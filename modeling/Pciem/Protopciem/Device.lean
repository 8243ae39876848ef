import Pciem.Library.TransitionSystem
import Mathlib.Data.List.Basic

namespace Pciem.Protopciem.Device

open Library.TransitionSystem

/-- The registers of BAR 0. -/
inductive Reg
  | control | status | cmd | data | resultLo | resultHi
  | dmaSrcLo | dmaSrcHi | dmaDstLo | dmaDstHi | dmaLen
  deriving DecidableEq

abbrev Regs := Reg → BitVec 32

def ctrlEnable : BitVec 32 := 1
def statusBusy : BitVec 32 := 1
def statusDone : BitVec 32 := 2
def statusError : BitVec 32 := 4

def cmdAdd : BitVec 32 := 0x01
def cmdMultiply : BitVec 32 := 0x02
def cmdXor : BitVec 32 := 0x03
def cmdExecuteCmdbuf : BitVec 32 := 0x05
def cmdDmaFrame : BitVec 32 := 0x06

def fbSize : BitVec 32 := 640 * 480 * 3
def cmdBufferSize : BitVec 32 := 4 * 1024 * 1024

/-- The commands that are about memory of the driver. -/
def Moves (cmd : BitVec 32) : Prop := cmd = cmdExecuteCmdbuf ∨ cmd = cmdDmaFrame

instance decidableMoves (cmd : BitVec 32) : Decidable (Moves cmd) :=
  inferInstanceAs (Decidable (_ ∨ _))

section Driver

/-- What `pci_execute_command` fails with. -/
inductive Failure
  | ebusy
  | eio
  deriving DecidableEq

/-- A call of `pci_execute_command`, with the memory that it is about. -/
structure Call where
  cmd : BitVec 32
  data : BitVec 32
  src : BitVec 64
  len : BitVec 32
  deriving DecidableEq

/-- The parts of a write to a register: it reaches the BAR, and then the ring. -/
inductive Mmio
  | store (r : Reg) (v : BitVec 32)
  | push (r : Reg)
  deriving DecidableEq

def pciWriteReg (r : Reg) (v : BitVec 32) : List Mmio := [.store r v, .push r]

def pciWriteReg64 (lo hi : Reg) (value : BitVec 64) : List Mmio :=
  pciWriteReg lo (value.setWidth 32) ++ pciWriteReg hi (value.extractLsb' 32 32)

/-- What `protopciem_write` and `protopciem_ioctl` write before they execute the command. -/
def submit (call : Call) : List Mmio :=
  if Moves call.cmd then
    pciWriteReg64 .dmaSrcLo .dmaSrcHi call.src ++ pciWriteReg64 .dmaDstLo .dmaDstHi 0 ++
      pciWriteReg .dmaLen call.len
  else []

/-- What `pci_execute_command` writes before it waits. -/
def execute (call : Call) : List Mmio :=
  pciWriteReg .status 0 ++ (if Moves call.cmd then [] else pciWriteReg .data call.data) ++
    pciWriteReg .control ctrlEnable ++ pciWriteReg .cmd call.cmd

/-- The thread that calls `pci_execute_command`. It waits where nothing is left to be written. -/
inductive Caller
  | out
  | submitting (call : Call) (ops : List Mmio)
  | executing (call : Call) (ops : List Mmio)
  | woken (call : Call)
  | fetched (call : Call) (result : BitVec 64)
  | closing (call : Call) (outcome : Except Failure (BitVec 64)) (ops : List Mmio)
  deriving DecidableEq

/-- `pci_irq_handler`. -/
inductive Handler
  | idle
  | writing (ops : List Mmio)

/-- `pci_work_handler`. What it makes of STATUS is counted and logged only. -/
inductive Work
  | idle
  | readLo
  | readHi (lo : BitVec 32)
  | writing (ops : List Mmio)

end Driver

section Emulator

/-- The status and the result of `process_command_local`. -/
def processCommandLocal (cmd data : BitVec 32) : BitVec 32 × BitVec 64 :=
  if cmd = cmdAdd then
    (statusDone, data.setWidth 64 + data.setWidth 64)
  else if cmd = cmdMultiply then
    (statusDone, data.setWidth 64 * data.setWidth 64)
  else if cmd = cmdXor then
    (statusDone, (data ^^^ 0xFFFFFFFF).setWidth 64)
  else
    (statusDone ||| statusError, 0)

/-- The registers that a command is forwarded with. -/
def forwarded : List Reg :=
  [.control, .data, .dmaSrcLo, .dmaSrcHi, .dmaDstLo, .dmaDstHi, .dmaLen, .cmd]

/-- The thread of the card that takes events from the ring, at its event: it is popped once the
event has been handled. -/
inductive Card
  | poll
  | took (cmd : BitVec 32)
  | localCmd
  | localData (cmd : BitVec 32)
  | answering (stores : List (Reg × BitVec 32))
  | forward (r : Reg) (rest : List Reg)
  | send (r : Reg) (v : BitVec 32) (rest : List Reg)
  | await (rest : List Reg)
  | popping

/-- `qemu_handler_thread`. -/
inductive QemuThread
  | idle
  | storing (stores : List (Reg × BitVec 32))

/-- What the card writes to the socket. -/
inductive ToQemu
  | write (r : Reg) (v : BitVec 32)
  | response (ok : Bool)

/-- What the backend writes to the socket. -/
inductive ToCard
  | dmaRead (addr : BitVec 64) (len : BitVec 32)
  | raiseIrq (status : BitVec 32) (result : BitVec 64)
  | ack

/-- The stores of an answer, by the thread that executes commands itself. -/
def localStores (status : BitVec 32) (result : BitVec 64) : List (Reg × BitVec 32) :=
  [(.resultLo, result.setWidth 32), (.resultHi, result.extractLsb' 32 32), (.status, status),
    (.cmd, 0)]

/-- The stores of an answer of the backend. -/
def qemuStores (status : BitVec 32) (result : BitVec 64) : List (Reg × BitVec 32) :=
  [(.status, status), (.resultLo, result.setWidth 32), (.resultHi, result.extractLsb' 32 32),
    (.cmd, 0)]

end Emulator

section Backend

/-- The backend waits for a message, or answers one, or waits for the bytes of a DMA. It is `lost`
once it takes a message for one of another kind. -/
inductive Backend
  | idle
  | acking
  | dma
  | exited
  | lost
  deriving DecidableEq

/-- A register write of the backend. -/
def backendWrite (regs : Regs) (r : Reg) (v : BitVec 32) : Regs :=
  match r with
  | .control =>
    let regs := Function.update regs .control v
    if v &&& 2 ≠ 0 then
      Function.update (Function.update (Function.update regs .status 0) .cmd 0) .data 0
    else regs
  | .cmd => Function.update (Function.update regs .cmd v) .status
      (regs .status &&& ~~~statusDone ||| statusBusy)
  | r => Function.update regs r v

def srcAddr (regs : Regs) : BitVec 64 := regs .dmaSrcHi ++ regs .dmaSrcLo

/-- How much a command reads of the memory of the guest. The backend exits where there is no such
command, and where a frame has another size. -/
def dmaLength (regs : Regs) : Option (BitVec 32) :=
  if regs .cmd = cmdExecuteCmdbuf then
    some (if regs .dmaLen > cmdBufferSize then cmdBufferSize else regs .dmaLen)
  else if regs .cmd = cmdDmaFrame ∧ regs .dmaLen = fbSize then
    some (regs .dmaLen)
  else
    none

def backendComplete (regs : Regs) : Regs :=
  Function.update regs .status ((regs .status ||| statusDone) &&& ~~~statusBusy)

/-- A command that the backend has processed, with the memory that it is about. -/
structure Job where
  cmd : BitVec 32
  src : BitVec 64
  len : BitVec 32
  deriving DecidableEq

def jobOf (regs : Regs) : Job := ⟨regs .cmd, srcAddr regs, regs .dmaLen⟩

end Backend

/-- The driver, the card and the backend, with what they share: BAR 0, the ring of the events that
its writes raise, the interrupt, and the two directions of the socket. -/
structure Machine where
  bar0 : Regs
  ring : List Reg
  irq : Bool
  caller : Caller
  operationPending : Bool
  opCompletion : Bool
  lastResult : BitVec 64
  handler : Handler
  queued : Bool
  work : Work
  card : Card
  waitingForAck : Bool
  qemuThread : QemuThread
  toQemu : List ToQemu
  toCard : List ToCard
  backend : Backend
  regs : Regs
  jobs : List Job
  returned : List (Call × Except Failure (BitVec 64))

def Machine.store (s : Machine) (r : Reg) (v : BitVec 32) : Machine :=
  { s with bar0 := Function.update s.bar0 r v }

def Machine.mmio (s : Machine) : Mmio → Machine
  | .store r v => s.store r v
  | .push r => { s with ring := s.ring ++ [r] }

/-- The command is one that the card leaves to the backend. -/
def Forwards (connected : Bool) (cmd : BitVec 32) : Prop := connected = true ∧ Moves cmd

instance decidableForwards (connected : Bool) (cmd : BitVec 32) :
    Decidable (Forwards connected cmd) :=
  inferInstanceAs (Decidable (_ ∧ _))

/-- The steps of all parties, in any order. The calls follow one another, and none of the waits of
the driver or the card runs out. -/
inductive Step (connected : Bool) : Machine → Machine → Prop
  | call {s : Machine} (call : Call) (h : s.caller = .out) (hcmd : call.cmd ≠ 0) :
      Step connected s { s with caller := .submitting call (submit call) }
  | submit {s : Machine} {call : Call} {op : Mmio} {ops : List Mmio}
      (h : s.caller = .submitting call (op :: ops)) :
      Step connected s { s.mmio op with caller := .submitting call ops }
  | busy {s : Machine} {call : Call} (h : s.caller = .submitting call [])
      (hpending : s.operationPending = true) :
      Step connected s { s with
        caller := .out
        returned := s.returned ++ [(call, .error .ebusy)] }
  | enter {s : Machine} {call : Call} (h : s.caller = .submitting call [])
      (hpending : s.operationPending = false) :
      Step connected s { s with
        caller := .executing call (execute call)
        operationPending := true
        opCompletion := false }
  | execute {s : Machine} {call : Call} {op : Mmio} {ops : List Mmio}
      (h : s.caller = .executing call (op :: ops)) :
      Step connected s { s.mmio op with caller := .executing call ops }
  | wake {s : Machine} {call : Call} (h : s.caller = .executing call [])
      (hdone : s.opCompletion = true) :
      Step connected s { s with caller := .woken call, opCompletion := false }
  | fetch {s : Machine} {call : Call} (h : s.caller = .woken call) :
      Step connected s { s with caller := .fetched call s.lastResult }
  | check {s : Machine} {call : Call} {result : BitVec 64} (h : s.caller = .fetched call result) :
      Step connected s { s with
        caller := .closing call
          (if s.bar0 .status &&& statusError ≠ 0 then .error .eio else .ok result)
          (pciWriteReg .control ctrlEnable) }
  | close {s : Machine} {call : Call} {outcome : Except Failure (BitVec 64)} {op : Mmio}
      {ops : List Mmio} (h : s.caller = .closing call outcome (op :: ops)) :
      Step connected s { s.mmio op with caller := .closing call outcome ops }
  | leave {s : Machine} {call : Call} {outcome : Except Failure (BitVec 64)}
      (h : s.caller = .closing call outcome []) :
      Step connected s { s with caller := .out, returned := s.returned ++ [(call, outcome)] }
  -- The interrupt handler and the work that it queues.
  | interrupt {s : Machine} (h : s.handler = .idle) (hirq : s.irq = true) :
      Step connected s { s with
        irq := false
        handler := if s.bar0 .status &&& (statusDone ||| statusError) = 0 then .idle
          else .writing (pciWriteReg .status 0) }
  | handle {s : Machine} {op : Mmio} {ops : List Mmio} (h : s.handler = .writing (op :: ops)) :
      Step connected s { s.mmio op with handler := .writing ops }
  | queueWork {s : Machine} (h : s.handler = .writing []) :
      Step connected s { s with handler := .idle, queued := true }
  | startWork {s : Machine} (h : s.work = .idle) (hqueued : s.queued = true) :
      Step connected s { s with
        queued := false
        work := if s.operationPending then .readLo else .idle }
  | readLo {s : Machine} (h : s.work = .readLo) :
      Step connected s { s with work := .readHi (s.bar0 .resultLo) }
  | readHi {s : Machine} {lo : BitVec 32} (h : s.work = .readHi lo) :
      Step connected s { s with
        lastResult := s.bar0 .resultHi ++ lo
        work := .writing (pciWriteReg .cmd 0) }
  | work {s : Machine} {op : Mmio} {ops : List Mmio} (h : s.work = .writing (op :: ops)) :
      Step connected s { s.mmio op with work := .writing ops }
  | complete {s : Machine} (h : s.work = .writing []) :
      Step connected s { s with work := .idle, operationPending := false, opCompletion := true }
  -- The thread of the card that takes the events.
  | drop {s : Machine} {r : Reg} {ring : List Reg} (h : s.card = .poll) (hring : s.ring = r :: ring)
      (hr : r ≠ .cmd) : Step connected s { s with card := .popping }
  | test {s : Machine} {ring : List Reg} (h : s.card = .poll) (hring : s.ring = .cmd :: ring) :
      Step connected s { s with
        card := if s.bar0 .cmd = 0 then .popping else .took (s.bar0 .cmd) }
  | busyStatus {s : Machine} {cmd : BitVec 32} (h : s.card = .took cmd) :
      Step connected s { s.store .status statusBusy with
        card := if Forwards connected cmd then .forward .control forwarded.tail else .localCmd }
  | localCmd {s : Machine} (h : s.card = .localCmd) :
      Step connected s { s with card := .localData (s.bar0 .cmd) }
  | localData {s : Machine} {cmd : BitVec 32} (h : s.card = .localData cmd) :
      Step connected s { s with
        card := .answering (localStores (processCommandLocal cmd (s.bar0 .data)).1
          (processCommandLocal cmd (s.bar0 .data)).2) }
  | answer {s : Machine} {r : Reg} {v : BitVec 32} {stores : List (Reg × BitVec 32)}
      (h : s.card = .answering ((r, v) :: stores)) :
      Step connected s { s.store r v with card := .answering stores }
  | inject {s : Machine} (h : s.card = .answering []) :
      Step connected s { s with card := .popping, irq := true }
  | read {s : Machine} {r : Reg} {rest : List Reg} (h : s.card = .forward r rest) :
      Step connected s { s with card := .send r (s.bar0 r) rest }
  | send {s : Machine} {r : Reg} {v : BitVec 32} {rest : List Reg} (h : s.card = .send r v rest) :
      Step connected s { s with
        card := .await rest
        toQemu := s.toQemu ++ [.write r v]
        waitingForAck := true }
  | next {s : Machine} {r : Reg} {rest : List Reg} (h : s.card = .await (r :: rest))
      (hack : s.waitingForAck = false) : Step connected s { s with card := .forward r rest }
  | last {s : Machine} (h : s.card = .await []) (hack : s.waitingForAck = false) :
      Step connected s { s with card := .popping }
  | pop {s : Machine} (h : s.card = .popping) :
      Step connected s { s with card := .poll, ring := s.ring.tail }
  -- The thread of the card that reads the socket.
  | ack {s : Machine} {toCard : List ToCard} (h : s.qemuThread = .idle)
      (hcard : s.toCard = .ack :: toCard) :
      Step connected s { s with toCard, waitingForAck := false }
  | respond {s : Machine} {addr : BitVec 64} {len : BitVec 32} {toCard : List ToCard} (ok : Bool)
      (h : s.qemuThread = .idle) (hcard : s.toCard = .dmaRead addr len :: toCard) :
      Step connected s { s with toCard, toQemu := s.toQemu ++ [.response ok] }
  | raise {s : Machine} {status : BitVec 32} {result : BitVec 64} {toCard : List ToCard}
      (h : s.qemuThread = .idle) (hcard : s.toCard = .raiseIrq status result :: toCard) :
      Step connected s { s with toCard, qemuThread := .storing (qemuStores status result) }
  | storeAnswer {s : Machine} {r : Reg} {v : BitVec 32} {stores : List (Reg × BitVec 32)}
      (h : s.qemuThread = .storing ((r, v) :: stores)) :
      Step connected s { s.store r v with qemuThread := .storing stores }
  | injectAnswer {s : Machine} (h : s.qemuThread = .storing []) :
      Step connected s { s with qemuThread := .idle, irq := true }
  -- The backend. It exits also where the bytes are no command buffer.
  | register {s : Machine} {r : Reg} {v : BitVec 32} {toQemu : List ToQemu}
      (h : s.backend = .idle) (hqemu : s.toQemu = .write r v :: toQemu) (hr : r ≠ .cmd) :
      Step connected s { s with toQemu, regs := backendWrite s.regs r v, backend := .acking }
  | command {s : Machine} {v : BitVec 32} {toQemu : List ToQemu} {len : BitVec 32}
      (h : s.backend = .idle) (hqemu : s.toQemu = .write .cmd v :: toQemu)
      (hlen : dmaLength (backendWrite s.regs .cmd v) = some len) :
      Step connected s { s with
        toQemu
        regs := backendWrite s.regs .cmd v
        toCard := s.toCard ++ [.dmaRead (srcAddr s.regs) len]
        backend := .dma }
  | refuse {s : Machine} {v : BitVec 32} {toQemu : List ToQemu} (h : s.backend = .idle)
      (hqemu : s.toQemu = .write .cmd v :: toQemu)
      (hlen : dmaLength (backendWrite s.regs .cmd v) = none) :
      Step connected s { s with toQemu, backend := .exited }
  | process {s : Machine} {ok : Bool} {toQemu : List ToQemu} (h : s.backend = .dma)
      (hqemu : s.toQemu = .response ok :: toQemu) :
      Step connected s { s with
        toQemu
        regs := backendComplete s.regs
        jobs := s.jobs ++ [jobOf s.regs]
        toCard := s.toCard ++ [.raiseIrq (backendComplete s.regs .status)
          (s.regs .resultHi ++ s.regs .resultLo)]
        backend := .acking }
  | crash {s : Machine} {toQemu : List ToQemu} (h : s.backend = .dma)
      (hqemu : s.toQemu = .response true :: toQemu) :
      Step connected s { s with toQemu, backend := .exited }
  | acknowledge {s : Machine} (h : s.backend = .acking) :
      Step connected s { s with toCard := s.toCard ++ [.ack], backend := .idle }
  | misread {s : Machine} {ok : Bool} {toQemu : List ToQemu} (h : s.backend = .idle)
      (hqemu : s.toQemu = .response ok :: toQemu) :
      Step connected s { s with toQemu, backend := .lost }
  | misreadDma {s : Machine} {r : Reg} {v : BitVec 32} {toQemu : List ToQemu}
      (h : s.backend = .dma) (hqemu : s.toQemu = .write r v :: toQemu) :
      Step connected s { s with toQemu, backend := .lost }

/-- Nothing has been asked of the device yet. -/
structure Fresh (s : Machine) : Prop where
  cmd : s.bar0 .cmd = 0
  ring : s.ring = []
  irq : s.irq = false
  caller : s.caller = .out
  operationPending : s.operationPending = false
  opCompletion : s.opCompletion = false
  handler : s.handler = .idle
  queued : s.queued = false
  work : s.work = .idle
  card : s.card = .poll
  waitingForAck : s.waitingForAck = false
  qemuThread : s.qemuThread = .idle
  toQemu : s.toQemu = []
  toCard : s.toCard = []
  backend : s.backend = .idle
  resultLo : s.regs .resultLo = 0
  resultHi : s.regs .resultHi = 0
  jobs : s.jobs = []
  returned : s.returned = []

def protopciem (connected : Bool) : System Machine where
  init := Fresh
  next := Step connected

end Pciem.Protopciem.Device
