import Pciem.Dma.Local
import Pciem.Ring.SharedRing

namespace Pciem.Nvme.Card

open Kernel Library.ByteMemory Library.Loop Dma.Indirect Dma.Local Ring.SharedRing

def nvmeRegCc : BitVec 64 := 0x14
def nvmeRegCsts : BitVec 64 := 0x1c
def nvmeRegAqa : BitVec 64 := 0x24
def nvmeRegAsqLo : BitVec 64 := 0x28
def nvmeRegAsqHi : BitVec 64 := 0x2c
def nvmeRegAcqLo : BitVec 64 := 0x30
def nvmeRegAcqHi : BitVec 64 := 0x34
def nvmeRegSq0Tdbl : BitVec 64 := 0x1000
def nvmeRegCq0Hdbl : BitVec 64 := 0x1004

def nvmeStatus (sct sc : BitVec 32) : BitVec 32 := (sct <<< 8 ||| sc) <<< 1

def nvmeSuccess : BitVec 32 := nvmeStatus 0x0 0x00
def nvmeInvalidField : BitVec 32 := nvmeStatus 0x0 0x02
def nvmeInternal : BitVec 32 := nvmeStatus 0x0 0x06
def nvmeInvalidNs : BitVec 32 := nvmeStatus 0x0 0x0b
def nvmeInvalidQueueDelete : BitVec 32 := nvmeStatus 0x1 0x03
def nvmeInvalidQueueCreate : BitVec 32 := nvmeStatus 0x1 0x04

def nvmeDiskSize : BitVec 64 := 1024 * 1024 * 1024
def nvmeTotalSectors : BitVec 64 := 262144
abbrev maxQueues : ℕ := 16

instance neZeroMaxQueues : NeZero maxQueues := ⟨by decide⟩

/-- The fields of a command that the card reads. -/
structure NvmeCommand where
  opcode : BitVec 8
  commandId : BitVec 16
  nsid : BitVec 32
  prp1 : BitVec 64
  prp2 : BitVec 64
  cdw10 : BitVec 32
  cdw11 : BitVec 32
  cdw12 : BitVec 32
  deriving DecidableEq

/-- The command in the 64 bytes of an entry. -/
def NvmeCommand.ofBytes (buf : Memory) : NvmeCommand where
  opcode := load buf 0 1
  commandId := load buf 2 2
  nsid := load buf 4 4
  prp1 := load buf 24 8
  prp2 := load buf 32 8
  cdw10 := load buf 40 4
  cdw11 := load buf 44 4
  cdw12 := load buf 48 4

structure NvmeCompletion where
  result : BitVec 32
  sqHead : BitVec 16
  sqId : BitVec 16
  commandId : BitVec 16
  status : BitVec 16
  deriving DecidableEq

def NvmeCompletion.encode (cpl : NvmeCompletion) : List (BitVec 8) :=
  bytes cpl.result 4 ++ bytes (0 : BitVec 32) 4 ++ bytes cpl.sqHead 2 ++ bytes cpl.sqId 2 ++
    bytes cpl.commandId 2 ++ bytes cpl.status 2

structure NvmeQueue where
  created : Bool
  sqSize : BitVec 16
  cqSize : BitVec 16
  sqAddr : BitVec 64
  cqAddr : BitVec 64
  sqTail : BitVec 16
  sqHead : BitVec 16
  cqTail : BitVec 16
  cqHead : BitVec 16
  cqPhase : BitVec 8
  vector : BitVec 16
  id : BitVec 16
  deriving DecidableEq

/-- `struct pciem_irq_inject` without what is reserved. -/
structure PciemIrqInject where
  vector : BitVec 32
  func : BitVec 8

/-- The device, with what its pointers and its system calls reach: BAR 0, the memory of the
process, the memory of the guest, and the interrupts that it has asked to inject, with what has
become of them. -/
structure NvmeDevice where
  running : Bool
  enabled : Bool
  csts : BitVec 32
  queues : Fin maxQueues → NvmeQueue
  ctrlId : Memory
  diskData : BitVec 64
  bar0 : Memory
  user : UserMemory
  guest : Memory
  irqs : List (PciemIrqInject × Except Errno Unit)

/-- The queue that the pointer to entry `i` of `queues` points to. -/
def NvmeDevice.setQueue (dev : NvmeDevice) (i : Fin maxQueues) (q : NvmeQueue) : NvmeDevice :=
  { dev with queues := Function.update dev.queues i q }

/-- `memset` of an `nvme_queue` to 0. -/
def zeroed : NvmeQueue := ⟨false, 0, 0, 0, 0, 0, 0, 0, 0, 0, 0, 0⟩

section Access

variable (env : Env) (dev : NvmeDevice)

def nvmeReadReg (offset : BitVec 64) : BitVec 32 := load dev.bar0 offset.toNat 4

def nvmeWriteReg (offset : BitVec 64) (value : BitVec 64) (size : ℕ) : NvmeDevice :=
  { dev with bar0 := store dev.bar0 offset.toNat (bytes value size) }

def nvmeDmaWrite (guestIova : BitVec 64) (bs : List (BitVec 8)) :
    Except Errno Unit × NvmeDevice :=
  let (ret, guest) := dmaWrite env dev.guest guestIova bs
  (ret, { dev with guest })

def nvmeDmaRead (guestIova : BitVec 64) (length : ℕ) : Except Errno Unit × Memory :=
  dmaRead env dev.guest guestIova length

/-- The transfer of a command, between the guest and the disk from `offset` on. -/
def rwCall (prp1 prp2 offset : BitVec 64) (length : BitVec 32) (writeToHost : Bool) : Call where
  us := env.us
  req := ⟨prp1, prp2, dev.diskData + offset, length, 4096, if writeToHost then 0x2 else 0x1, 0⟩
  argCopied := true
  allocated := env.allocated
  uncopied := env.uncopied

/-- `none` where the system call has not returned within `fuel`. -/
def nvmeDmaRw (fuel : ℕ) (prp1 prp2 offset : BitVec 64) (length : BitVec 32)
    (writeToHost : Bool) : Option (Except Errno Unit × NvmeDevice) :=
  (pciemIoctlDmaIndirect (rwCall env dev prp1 prp2 offset length writeToHost)
    ⟨dev.guest, dev.user, env.listBuf, env.dataBuf, 0, 0, 0, 0, 0, 0⟩ fuel).map
    fun r ↦ (r.1, { dev with guest := r.2.1, user := r.2.2 })

end Access

def nvmeGetQueue (idx : BitVec 16) : Option (Fin maxQueues) :=
  if h : idx.toNat < maxQueues then some ⟨idx.toNat, h⟩ else none

def setLo32 (dst : BitVec 64) (val : BitVec 32) : BitVec 64 :=
  dst &&& 0xFFFFFFFF00000000 ||| val.setWidth 64

def setHi32 (dst : BitVec 64) (val : BitVec 32) : BitVec 64 :=
  dst &&& 0x00000000FFFFFFFF ||| val.setWidth 64 <<< 32

def nvmeResetQueue (q : NvmeQueue) : NvmeQueue := { zeroed with id := q.id, cqPhase := 1 }

def nvmeResetQueues (dev : NvmeDevice) : NvmeDevice :=
  { dev with
    queues := fun i ↦ nvmeResetQueue { dev.queues i with id := BitVec.ofNat 16 i.val } }

section Admin

variable (env : Env) (dev : NvmeDevice) (cmd : NvmeCommand)

/-- The status of a command whose answer is written to the guest. -/
def answered (r : Except Errno Unit × NvmeDevice) : BitVec 32 × NvmeDevice :=
  match r with
  | (.ok (), dev) => (nvmeSuccess, dev)
  | (.error _, dev) => (nvmeInternal, dev)

/-- The 4096 bytes of the `nvme_id_ns`, whose fields other than these are 0. -/
def identifyNs : List (BitVec 8) :=
  bytes nvmeTotalSectors 8 ++ bytes nvmeTotalSectors 8 ++ bytes nvmeTotalSectors 8 ++
    List.replicate 106 0 ++ [12] ++ List.replicate 3965 0

def nvmeIdentifyCns0 : BitVec 32 × NvmeDevice :=
  if cmd.nsid ≠ 1 then (nvmeInvalidNs, dev)
  else answered (nvmeDmaWrite env dev cmd.prp1 identifyNs)

def nvmeIdentifyCns1 : BitVec 32 × NvmeDevice :=
  if cmd.nsid ≠ 0 then (nvmeInvalidNs, dev)
  else answered (nvmeDmaWrite env dev cmd.prp1 ((List.range 4096).map dev.ctrlId))

def nvmeIdentifyCns2 : BitVec 32 × NvmeDevice :=
  if cmd.nsid ≠ 0 then (nvmeInvalidNs, dev)
  else answered (nvmeDmaWrite env dev cmd.prp1 (bytes (1 : BitVec 32) 4 ++ List.replicate 4092 0))

def nvmeIdentifyCns3 : BitVec 32 × NvmeDevice :=
  if cmd.nsid > 1 then (nvmeInvalidNs, dev)
  else answered (nvmeDmaWrite env dev cmd.prp1 (List.replicate 4096 0))

def nvmeIdentify : BitVec 32 × NvmeDevice :=
  match (cmd.cdw10.setWidth 8).toNat with
  | 0 => nvmeIdentifyCns0 env dev cmd
  | 1 => nvmeIdentifyCns1 env dev cmd
  | 2 => nvmeIdentifyCns2 env dev cmd
  | 3 => nvmeIdentifyCns3 env dev cmd
  | _ => (nvmeInvalidField, dev)

def NvmeCommand.qid : BitVec 16 := cmd.cdw10.setWidth 16

def NvmeCommand.qsize : BitVec 16 := cmd.cdw10.extractLsb' 16 16

def nvmeCreateCq : BitVec 32 × NvmeDevice :=
  match nvmeGetQueue cmd.qid with
  | none => (nvmeInvalidQueueCreate, dev)
  | some i => (nvmeSuccess, dev.setQueue i { dev.queues i with
      cqAddr := cmd.prp1
      cqSize := cmd.qsize + 1
      vector := cmd.cdw11.extractLsb' 16 16
      created := true })

def nvmeCreateSq : BitVec 32 × NvmeDevice :=
  match nvmeGetQueue cmd.qid with
  | none => (nvmeInvalidQueueCreate, dev)
  | some i => (nvmeSuccess, dev.setQueue i { dev.queues i with
      sqAddr := cmd.prp1
      sqSize := cmd.qsize + 1
      created := true })

def nvmeDeleteQueue : BitVec 32 × NvmeDevice :=
  match nvmeGetQueue cmd.qid with
  | none => (nvmeInvalidQueueDelete, dev)
  | some i => (nvmeSuccess, dev.setQueue i (nvmeResetQueue (dev.queues i)))

/-- The status, and the result of the command. -/
def nvmeGetLogPage : BitVec 32 × BitVec 32 :=
  match (cmd.cdw10.setWidth 8).toNat with
  | 0x01 | 0x02 => (nvmeSuccess, 0)
  | _ => (nvmeInvalidField, 0)

def nvmeSetFeatures : BitVec 32 × BitVec 32 :=
  match (cmd.cdw10.setWidth 8).toNat with
  | 0x07 => (nvmeSuccess, 15 <<< 16 ||| 15)
  | 0x01 | 0x02 | 0x05 | 0x06 | 0x08 | 0x09 | 0x0B | 0x04 | 0x0A | 0x11 | 0x12 | 0x13 | 0x14 =>
    (nvmeSuccess, 0)
  | _ => (nvmeInvalidField, 0)

/-- The status of the command, its result and the device then. -/
def nvmeExecuteAdminCommand : BitVec 32 × BitVec 32 × NvmeDevice :=
  match cmd.opcode.toNat with
  | 0x02 => let (status, result) := nvmeGetLogPage cmd; (status, result, dev)
  | 0x06 => let (status, dev) := nvmeIdentify env dev cmd; (status, 0, dev)
  | 0x05 => let (status, dev) := nvmeCreateCq dev cmd; (status, 0, dev)
  | 0x01 => let (status, dev) := nvmeCreateSq dev cmd; (status, 0, dev)
  | 0x04 | 0x00 => let (status, dev) := nvmeDeleteQueue dev cmd; (status, 0, dev)
  | 0x09 => let (status, result) := nvmeSetFeatures cmd; (status, result, dev)
  | _ => (nvmeInvalidField, 0, dev)

end Admin

section Io

variable (env : Env) (fuel : ℕ) (dev : NvmeDevice) (cmd : NvmeCommand)

def NvmeCommand.slba : BitVec 64 := cmd.cdw10.setWidth 64 ||| cmd.cdw11.setWidth 64 <<< 32

/-- How many blocks the command is about. -/
def NvmeCommand.nlb : BitVec 32 := (cmd.cdw12.setWidth 16).setWidth 32 + 1

def NvmeCommand.offset : BitVec 64 := cmd.slba <<< 12

def NvmeCommand.len : BitVec 64 := cmd.nlb.setWidth 64 <<< 12

/-- `nvme_io_write` and `nvme_io_read`: the two differ in the direction of the transfer. -/
def nvmeIoTransfer (writeToHost : Bool) : Option (BitVec 32 × NvmeDevice) :=
  if cmd.offset ≥ nvmeDiskSize then
    some (nvmeInvalidField, dev)
  else
    (nvmeDmaRw env dev fuel cmd.prp1 cmd.prp2 cmd.offset (cmd.len.setWidth 32) writeToHost).map
      answered

def nvmeIoWrite : Option (BitVec 32 × NvmeDevice) := nvmeIoTransfer env fuel dev cmd false

def nvmeIoRead : Option (BitVec 32 × NvmeDevice) := nvmeIoTransfer env fuel dev cmd true

def nvmeExecuteIoCommand : Option (BitVec 32 × NvmeDevice) :=
  match cmd.opcode.toNat with
  | 0x00 => some (nvmeSuccess, dev)
  | 0x02 => nvmeIoRead env fuel dev cmd
  | 0x01 => nvmeIoWrite env fuel dev cmd
  | _ => some (nvmeInvalidField, dev)

end Io

section Queues

variable (env : Env) (fuel : ℕ)

/-- The part of `nvme_execute_command` before the completion. -/
def dispatch (dev : NvmeDevice) (cmd : NvmeCommand) (i : Fin maxQueues) :
    Option (BitVec 32 × BitVec 32 × NvmeDevice) :=
  if (dev.queues i).id = 0 then
    some (nvmeExecuteAdminCommand env dev cmd)
  else
    (nvmeExecuteIoCommand env fuel dev cmd).map fun r ↦ (r.1, 0, r.2)

/-- The completion of a command, from its status and result. -/
def completion (q : NvmeQueue) (cmd : NvmeCommand) (status result : BitVec 32) :
    NvmeCompletion where
  result
  sqHead := q.sqHead
  sqId := q.id
  commandId := cmd.commandId
  status := (status ||| (q.cqPhase &&& 1).setWidth 32).setWidth 16

/-- `cq_tail` and `cq_phase` after a completion. -/
def NvmeQueue.pushed (q : NvmeQueue) : NvmeQueue :=
  if q.cqTail + 1 = q.cqSize then
    { q with cqTail := 0, cqPhase := q.cqPhase ^^^ 1 }
  else
    { q with cqTail := q.cqTail + 1 }

/-- The interrupt that is asked for after a completion. The field `func` is not set. -/
def injection (n : ℕ) (vector : BitVec 16) : PciemIrqInject × Except Errno Unit :=
  (⟨vector.setWidth 32, env.irqFunc n⟩, env.injectIrq n)

/-- The part of `nvme_execute_command` that writes the completion. What the write and the injection
return is logged only. -/
def post (dev : NvmeDevice) (cmd : NvmeCommand) (i : Fin maxQueues) (status result : BitVec 32) :
    NvmeDevice :=
  let q := dev.queues i
  let (_, dev) := nvmeDmaWrite env dev (q.cqAddr + q.cqTail.setWidth 64 * 16)
    (completion q cmd status result).encode
  { dev.setQueue i q.pushed with
    irqs := dev.irqs ++ [injection env dev.irqs.length q.vector] }

def nvmeExecuteCommand (dev : NvmeDevice) (cmd : NvmeCommand) (i : Fin maxQueues) :
    Option NvmeDevice := do
  let (status, result, dev) ← dispatch env fuel dev cmd i
  return post env dev cmd i status result

def nvmeReadSqEntry (dev : NvmeDevice) (q : NvmeQueue) : Except Errno Unit × NvmeCommand :=
  let (ret, buf) := nvmeDmaRead env dev (q.sqAddr + q.sqHead.setWidth 64 * 64) 64
  (ret, .ofBytes buf)

/-- The queue once the command at its head has been read. -/
def NvmeQueue.popped (q : NvmeQueue) : NvmeQueue :=
  { q with sqHead := BitVec.ofNat 16 ((q.sqHead.toNat + 1) % q.sqSize.toNat) }

/-- One turn of the loop of `nvme_handle_doorbell_write`. The loop ends with `none` where the
card divides by 0 or the command does not return within `fuel`. -/
def doorbellStep (i : Fin maxQueues) (dev : NvmeDevice) : NvmeDevice ⊕ Option NvmeDevice :=
  let q := dev.queues i
  if q.sqHead = q.sqTail then
    .inr (some dev)
  else
    match nvmeReadSqEntry env dev q with
    | (.error _, _) => .inl dev
    | (.ok (), cmd) =>
      if q.sqSize = 0 then
        .inr none
      else
        match nvmeExecuteCommand env fuel (dev.setQueue i q.popped) cmd i with
        | none => .inr none
        | some dev => .inl dev

def doorbellQueue (ev : PciemEvent) : BitVec 16 :=
  ((ev.offset.toBitVec - nvmeRegSq0Tdbl) / 8).setWidth 16

/-- The doorbell is the one of the completions. -/
def IsCq (ev : PciemEvent) : Prop := (ev.offset.toBitVec - nvmeRegSq0Tdbl) % 8 ≥ 4

instance decidableIsCq (ev : PciemEvent) : Decidable (IsCq ev) :=
  inferInstanceAs (Decidable (_ ≤ _))

def NvmeQueue.acked (q : NvmeQueue) (ev : PciemEvent) : NvmeQueue :=
  { q with cqHead := ev.data.toBitVec.setWidth 16 }

def NvmeQueue.rung (q : NvmeQueue) (ev : PciemEvent) : NvmeQueue :=
  { q with sqTail := ev.data.toBitVec.setWidth 16 }

/-- The doorbell register has the value that the driver wrote. -/
def echo (dev : NvmeDevice) (reg : BitVec 64) (ev : PciemEvent) : NvmeDevice :=
  nvmeWriteReg dev (reg + (doorbellQueue ev).setWidth 64 * 8) ev.data.toBitVec 4

def nvmeHandleDoorbellWrite (dev : NvmeDevice) (ev : PciemEvent) : Option NvmeDevice :=
  match nvmeGetQueue (doorbellQueue ev) with
  | none => some dev
  | some i =>
    if IsCq ev then
      some (echo (dev.setQueue i ((dev.queues i).acked ev)) nvmeRegCq0Hdbl ev)
    else do
      let dev ← (run (doorbellStep env fuel i) fuel
        (dev.setQueue i ((dev.queues i).rung ev))).join
      return echo dev nvmeRegSq0Tdbl ev

end Queues

def nvmeEnable (dev : NvmeDevice) : NvmeDevice :=
  let q := dev.queues 0
  let aqa := nvmeReadReg dev nvmeRegAqa
  { dev.setQueue 0 { q with
      sqSize := aqa.setWidth 16 + 1
      cqSize := aqa.extractLsb' 16 16 + 1
      sqAddr := setHi32 (setLo32 q.sqAddr (nvmeReadReg dev nvmeRegAsqLo))
        (nvmeReadReg dev nvmeRegAsqHi)
      cqAddr := setHi32 (setLo32 q.cqAddr (nvmeReadReg dev nvmeRegAcqLo))
        (nvmeReadReg dev nvmeRegAcqHi) } with
    enabled := true }

/-- The field `rdy` of an `nvme_csts`. -/
def setRdy (csts : BitVec 32) (rdy : Bool) : BitVec 32 :=
  csts &&& ~~~(1 : BitVec 32) ||| (BitVec.ofBool rdy).setWidth 32

/-- The field `shst` of an `nvme_csts`. -/
def setShst (csts : BitVec 32) (shst : BitVec 2) : BitVec 32 :=
  csts &&& ~~~(0xC : BitVec 32) ||| shst.setWidth 32 <<< 2

def writeCsts (dev : NvmeDevice) (csts : BitVec 32) : NvmeDevice :=
  nvmeWriteReg { dev with csts } nvmeRegCsts (csts.setWidth 64) 4

def nvmeHandleCcWrite (dev : NvmeDevice) (ev : PciemEvent) : NvmeDevice :=
  let cc := ev.data.toBitVec.setWidth 32
  let csts := dev.csts
  if cc.extractLsb' 14 2 ≠ 0 then
    let csts := setRdy (setShst csts 1) false
    let dev := writeCsts dev csts
    let dev := nvmeResetQueues { dev with enabled := false }
    let csts := setRdy (setShst csts 2) false
    { writeCsts dev csts with running := false }
  else if cc.getLsbD 0 then
    writeCsts (nvmeEnable dev) (setShst (setRdy csts true) 0)
  else
    writeCsts (nvmeResetQueues { dev with enabled := false }) 0

/-- A write to a register of the admin queue, which is ignored while the device is enabled. -/
def writeAdminReg (dev : NvmeDevice) (ev : PciemEvent)
    (set : NvmeQueue → BitVec 32 → NvmeQueue) : NvmeDevice :=
  if dev.enabled then
    dev
  else
    nvmeWriteReg (dev.setQueue 0 (set (dev.queues 0) (ev.data.toBitVec.setWidth 32)))
      ev.offset.toBitVec ev.data.toBitVec 4

def setAqa (q : NvmeQueue) (data : BitVec 32) : NvmeQueue :=
  { q with sqSize := data.setWidth 16 + 1, cqSize := data.extractLsb' 16 16 + 1 }

def nvmeHandleWrite (env : Env) (fuel : ℕ) (dev : NvmeDevice) (ev : PciemEvent) :
    Option NvmeDevice :=
  let offset := ev.offset.toBitVec
  if ev.bar ≠ 0 then
    some dev
  else if offset = nvmeRegCc then
    some (nvmeHandleCcWrite dev ev)
  else if offset = nvmeRegAqa then
    some (writeAdminReg dev ev setAqa)
  else if offset = nvmeRegAsqLo then
    some (writeAdminReg dev ev fun q data ↦ { q with sqAddr := setLo32 q.sqAddr data })
  else if offset = nvmeRegAsqHi then
    some (writeAdminReg dev ev fun q data ↦ { q with sqAddr := setHi32 q.sqAddr data })
  else if offset = nvmeRegAcqLo then
    some (writeAdminReg dev ev fun q data ↦ { q with cqAddr := setLo32 q.cqAddr data })
  else if offset = nvmeRegAcqHi then
    some (writeAdminReg dev ev fun q data ↦ { q with cqAddr := setHi32 q.cqAddr data })
  else if offset < nvmeRegSq0Tdbl then
    some dev
  else if dev.enabled = false then
    some dev
  else
    nvmeHandleDoorbellWrite env fuel dev ev

def size2mask (size : UInt64) : UInt64 :=
  if size ≥ 8 then 0xffffffffffffffff else ((1 : UInt64) <<< (size <<< 3)) - 1

def pciemEventMmioWrite : UInt32 := 2

/-- An event of the ring in the event loop. -/
def handleEvent (env : Env) (fuel : ℕ) (dev : NvmeDevice) (ev : PciemEvent) :
    Option NvmeDevice :=
  let ev := { ev with data := ev.data &&& size2mask ev.size.toUInt64 }
  if ev.type &&& pciemEventMmioWrite ≠ 0 then nvmeHandleWrite env fuel dev ev else some dev

end Pciem.Nvme.Card
