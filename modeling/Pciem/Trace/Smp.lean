import Pciem.Library.Emulation
import Pciem.Trace.Coverage
import Pciem.Trace.Maps
import Pciem.Trace.Riscv
import Pciem.Trace.Rvc

namespace Pciem.Trace.Smp

open Kernel Library Library.ByteMemory Library.Emulation Library.TransitionSystem
open Library.Rv64 (Coded Instruction Hart)
open Ring.SharedRing Context Maps Riscv Rvc

def excLoadPageFault : BitVec 64 := 13

def excStorePageFault : BitVec 64 := 15

/-- The map that `__enter_riscv_handle_page_fault` goes on with. Where there is none the fault is
left to the kernel. -/
def faultMap (maps : List SmptraceMap) (cause faultVa : BitVec 64) (userMode inPf : Bool) :
    Option SmptraceMap :=
  if cause ≠ excLoadPageFault ∧ cause ≠ excStorePageFault then
    none
  else if userMode then
    none
  else
    match smptraceFindMapRcu maps faultVa with
    | none => none
    | some map => if inPf then none else some map

/-- Whether the fault has been dealt with. The flag `in_pf` is left as it was. -/
def enterRiscvHandlePageFault (userMode : Bool) (fetch : BitVec 64 → Option (BitVec 32))
    (ctx : SmptraceCtx) (maps : List SmptraceMap) (cause faultVa : BitVec 64) (inPf : Bool)
    (regs : PtRegs) (s : Traced) : Option (Bool × PtRegs × Traced) :=
  match faultMap maps cause faultVa userMode inPf with
  | none => some (false, regs, s)
  | some map => do
    let r ← emulateRiscvFault userMode fetch ctx map faultVa regs s
    match r.1 with
    | .ok _ => some (true, r.2)
    | .error _ => some (false, r.2)

section Stages

/-- What the handler knows of an instruction: `ls` and `is_rvc`. -/
structure Decoded where
  ls : RiscvLsInsn
  isRvc : Bool

/-- How far a processor has come in the handler: it has decoded the instruction, has copied from or
to the shadow, has called the hook. -/
inductive Stage
  | idle
  | decoded (map : SmptraceMap) (faultVa : BitVec 64) (i : Coded) (d : Decoded)
  | copied (map : SmptraceMap) (faultVa : BitVec 64) (i : Coded) (d : Decoded)
    (data : List (BitVec 8))
  | notified (map : SmptraceMap) (faultVa : BitVec 64) (i : Coded) (d : Decoded)
    (data : List (BitVec 8))

def decodeWord (insn : BitVec 32) : Option Decoded :=
  if insn &&& 0x3 ≠ 0x3 then
    (riscvDecodeRvcLsInsn (insn.setWidth 16)).map fun ls ↦ ⟨ls, true⟩
  else
    (riscvDecodeLsInsn insn).map fun ls ↦ ⟨ls, false⟩

/-- Up to the decoding of the word at `epc`, which is that of the instruction `i`. -/
def enterStage (maps : List SmptraceMap) (cause faultVa : BitVec 64) (inPf : Bool) (i : Coded)
    (insn : BitVec 32) : Option Stage := do
  let map ← faultMap maps cause faultVa false inPf
  let d ← decodeWord insn
  some (.decoded map faultVa i d)

/-- `memcpy_toio` or `memcpy_fromio`. There is no result where the kernel runs into `BUG`. -/
def copyStage (ctx : SmptraceCtx) (map : SmptraceMap) (faultVa : BitVec 64) (ls : RiscvLsInsn)
    (regs : PtRegs) (mem : Memory) : Option (List (BitVec 8) × Memory) :=
  let off := barOffset ctx map faultVa
  if OutOfBar ctx off ls.size then
    none
  else if ls.isStore then
    let src := bytes (riscvGetReg regs ls.rs2) ls.size
    some (src, if ctx.stopWrites then mem else store mem (ctx.pa.toNat + off.toNat) src)
  else
    some (peek mem (ctx.pa.toNat + off.toNat) ls.size, mem)

/-- The event of an access, where its hook is set and the device is there. -/
def notice (ctx : SmptraceCtx) (us : Bool) (off : BitVec 64) (isStore : Bool) (size : ℕ)
    (data : List (BitVec 8)) : Option PciemEvent :=
  if (if isStore then ctx.notif.write else ctx.notif.read) ∧ us then
    some (traceEvent ctx (if isStore then pciemEventMmioWrite else pciemEventMmioRead) off size
      (compose (data.map (BitVec.setWidth 64))))
  else
    none

def finishStage (d : Decoded) (regs : PtRegs) (data : List (BitVec 8)) : PtRegs :=
  let regs := if d.ls.isStore then regs
    else d.ls.loaded regs (compose (data.map (BitVec.setWidth 64)))
  Function.update regs .epc (regs .epc + if d.isRvc then 2 else 4)

/-- The BAR in physical memory. -/
def bar (ctx : SmptraceCtx) (mem : Memory) : Memory := fun off ↦ mem (ctx.pa.toNat + off)

end Stages

section System

structure Processor where
  regs : PtRegs
  inPf : Bool
  stage : Stage

/-- `queued` has the events that `queue_event` has been handed, and `log` those of the accesses, in
the order in which these have been made. -/
structure Machine (ι : Type) where
  traces : Traces
  mem : Memory
  cpus : ι → Processor
  queued : List (ι × PciemEvent)
  log : List (ι × PciemEvent)
  crashed : Bool

/-- The registers that a driver can tell. -/
def hart (regs : PtRegs) : Hart := ⟨registers regs, regs .epc⟩

/-- The mapping has `n` bytes at the address. -/
def Spans (m : Mapping) (addr n : ℕ) : Prop :=
  m.va.toNat ≤ addr ∧ addr + n ≤ m.va.toNat + m.len.toNat

instance decidableSpans (m : Mapping) (addr n : ℕ) : Decidable (Spans m addr n) :=
  inferInstanceAs (Decidable (_ ∧ _))

def placeIn (m : Mapping) (addr : ℕ) : ℕ := m.pa.toNat + (addr - m.va.toNat)

-- `poisoned` tells for which addresses of a mapping `smptrace_arch_poison_pte` has cleared the
-- entry: unaligned mappings may leave one out.
variable {ι : Type} [DecidableEq ι] (ctx : SmptraceCtx) (us : Bool) (poisoned : Mapping → ℕ → Prop)

/-- A driver maps the BAR or a part of it, at addresses that are free. -/
def Admissible (s : Traces) : Call → Prop
  | .ioremap m => Fresh s (.ioremap m) ∧
    (m.InBar ctx → m.pa.toNat + m.len.toNat ≤ ctx.pa.toNat + ctx.len.toNat)
  | .iounmap _ => True

/-- No driver unmaps what another one is about to access. -/
def Spared (cpu : Processor) : Call → Prop
  | .ioremap _ => True
  | .iounmap va =>
    match cpu.stage with
    | .decoded map _ _ _ => map.va ≠ va
    | _ => True

/-- The next stage of the handler. -/
def advance (s : Machine ι) (c : ι) : Machine ι :=
  let cpu := s.cpus c
  match cpu.stage with
  | .idle => s
  | .decoded map faultVa i d =>
    match copyStage ctx map faultVa d.ls cpu.regs s.mem with
    | none => { s with crashed := true }
    | some (data, mem) =>
      { s with
        mem
        cpus := Function.update s.cpus c { cpu with stage := .copied map faultVa i d data }
        log := s.log ++
          entry c (notice ctx us (barOffset ctx map faultVa) d.ls.isStore d.ls.size data) }
  | .copied map faultVa i d data =>
    { s with
      cpus := Function.update s.cpus c { cpu with stage := .notified map faultVa i d data }
      queued := s.queued ++
        entry c (notice ctx us (barOffset ctx map faultVa) d.ls.isStore d.ls.size data) }
  | .notified _ _ _ d data =>
    { s with
      cpus := Function.update s.cpus c ⟨finishStage d cpu.regs data, false, .idle⟩ }

/-- What stands at `epc`. Behind a short instruction it may be anything. -/
def word (behind : BitVec 16) : Coded → BitVec 32
  | .full i => i.encode
  | .short c => behind ++ c.encode

/-- The processor faults at the instruction at `epc`. -/
def fault (s : Machine ι) (c : ι) (i : Coded) (behind : BitVec 16) : Machine ι :=
  let cpu := s.cpus c
  let cause := if (decoded i.base).isStore then excStorePageFault else excLoadPageFault
  match enterStage s.traces.maps cause (i.addressOf (hart cpu.regs)) cpu.inPf i
      (word behind i) with
  | none => { s with crashed := true }
  | some stage => { s with cpus := Function.update s.cpus c ⟨cpu.regs, true, stage⟩ }

/-- The instructions that the handler carries out as it should. -/
def Exact : Coded → Prop
  | .full _ => True
  | .short c => ¬ LoadsWord c

/-- The mapping is one of the BAR, and its entry for the address has been cleared. -/
def Poisoned (m : Mapping) (addr : ℕ) : Prop := m.InBar ctx ∧ poisoned m addr

/-- `compute` is any instruction that accesses no device. An access faults where it meets an entry
that has been cleared. -/
inductive Step : Machine ι → Machine ι → Prop
  | compute {s : Machine ι} {c : ι} (regs : PtRegs) : (s.cpus c).stage = .idle →
      Step s { s with cpus := Function.update s.cpus c { s.cpus c with regs } }
  | call {s : Machine ι} (a : Call) : Admissible ctx s.traces a → (∀ c, Spared (s.cpus c) a) →
      Step s { s with traces := step ctx s.traces a }
  | plain {s : Machine ι} {c : ι} {i : Coded} {m : Mapping} {regs : PtRegs} :
      (s.cpus c).stage = .idle → m ∈ s.traces.live →
      Spans m (i.addressOf (hart (s.cpus c).regs)).toNat i.width →
      (∀ k < i.width, ¬ Poisoned ctx poisoned m ((i.addressOf (hart (s.cpus c).regs)).toNat + k)) →
      hart regs = Coded.isa.retire i (hart (s.cpus c).regs)
        (Coded.isa.moved i (hart (s.cpus c).regs) s.mem
          (placeIn m (i.addressOf (hart (s.cpus c).regs)).toNat)) →
      Step s { s with
        mem := Coded.isa.write true i (hart (s.cpus c).regs) s.mem
          (placeIn m (i.addressOf (hart (s.cpus c).regs)).toNat)
        cpus := Function.update s.cpus c { s.cpus c with regs } }
  | fault {s : Machine ι} {c : ι} {i : Coded} {m : Mapping} (behind : BitVec 16) :
      (s.cpus c).stage = .idle → m ∈ s.traces.live → Exact i →
      Spans m (i.addressOf (hart (s.cpus c).regs)).toNat i.width →
      Poisoned ctx poisoned m (i.addressOf (hart (s.cpus c).regs)).toNat →
      Step s (fault s c i behind)
  | handler {s : Machine ι} (c : ι) : Step s (advance ctx us s c)

/-- Harts that carry out every load and store of theirs at once, with a log of those that go to the
BAR by an entry that has been cleared. -/
def untraced : Platform (List Mapping) Hart Coded PciemEvent where
  toIsa := Coded.isa
  place live addr n := (live.find? fun m ↦ Spans m addr n).map fun m ↦ placeIn m addr
  Trap live addr := ∃ m ∈ live, Poisoned ctx poisoned m addr ∧ m.va.toNat ≤ addr ∧
    addr < m.va.toNat + m.len.toNat
  keep := !ctx.stopWrites
  note i p data :=
    notice ctx us (BitVec.ofNat 64 (p - ctx.pa.toNat)) (decoded i.base).isStore i.width data
  Change live live' := ∃ a, Admissible ctx ⟨live, []⟩ a ∧ live' = (step ctx ⟨live, []⟩ a).live

/-- Where the emulation stands. -/
def Stage.point : Stage → Point Coded
  | .idle => .idle
  | .decoded map faultVa i _ => .trapped i (ctx.pa.toNat + (barOffset ctx map faultVa).toNat)
  | .copied map faultVa i _ data =>
    .moved i (ctx.pa.toNat + (barOffset ctx map faultVa).toNat) data
  | .notified map faultVa i _ data =>
    .noted i (ctx.pa.toNat + (barOffset ctx map faultVa).toNat) data

def Processor.cpu (cpu : Processor) : Cpu Hart Coded := ⟨hart cpu.regs, cpu.stage.point ctx⟩

/-- The registers with the access that has been made. -/
def Processor.settled (cpu : Processor) : PtRegs :=
  match cpu.stage with
  | .idle | .decoded _ _ _ _ => cpu.regs
  | .copied _ _ _ d data | .notified _ _ _ d data => finishStage d cpu.regs data

/-- The processors as if they accessed the BAR at once. -/
def Machine.direct (s : Machine ι) : Direct (List Mapping) Hart PciemEvent ι where
  env := s.traces.live
  mem := s.mem
  regs c := hart (s.cpus c).settled
  log := s.log

end System

section Handler

variable {ctx : SmptraceCtx} {map : SmptraceMap} {faultVa : BitVec 64} {regs : PtRegs}

/-- What the handler takes the word of an instruction for. -/
def decodedAs : Coded → Decoded
  | .full i => ⟨decoded i, false⟩
  | .short c => ⟨{ decoded c.expand with signExtend := false }, true⟩

theorem decodeWord_word (behind : BitVec 16) (i : Coded) :
    decodeWord (word behind i) = some (decodedAs i) := by
  unfold decodeWord
  cases i with
  | full i =>
    rw [word, if_neg (not_rvc_encode i), decode_encode]
    rfl
  | short c =>
    obtain ⟨hrvc, hlow⟩ := rvc_encode behind c
    rw [word, if_pos hrvc, hlow, decodeRvc_encode]
    rfl

theorem ls_of_exact {i : Coded} (h : Exact i) : (decodedAs i).ls = decoded i.base := by
  cases i with
  | full i => rfl
  | short c =>
    have hsign := signExtend_of_not_loadsWord h
    change { decoded c.expand with signExtend := false } = decoded c.expand
    rw [← hsign]

theorem size_decoded (i : Instruction) : (decoded i).size = i.width := by
  cases i with
  | load op rd rs1 imm => rfl
  | store op rs1 rs2 imm => rfl

theorem store_bar (mem : Memory) (off : ℕ) (bs : List (BitVec 8)) :
    bar ctx (store mem (ctx.pa.toNat + off) bs) = store (bar ctx mem) off bs := by
  funext q
  unfold bar store
  by_cases hq : off ≤ q
  · rw [if_pos hq, if_pos (by omega), Nat.add_sub_add_left]
  · rw [if_neg hq, if_neg (by omega)]

theorem peek_bar {s : Traced} {mem : Memory} (hs : s.shadow = bar ctx mem) (off : BitVec 64)
    (n : ℕ) : s.peek off n = peek mem (ctx.pa.toNat + off.toNat) n := by
  unfold Traced.peek peek
  rw [hs]
  refine List.map_congr_left fun k _ ↦ ?_
  rw [bar, Nat.add_assoc]

/-- The events that the ring has been given. -/
def handed (s : Traced) : List PciemEvent := s.pushes.map (·.1)

theorem handed_notice (ctx : SmptraceCtx) (s : Traced) (off : BitVec 64) (isStore : Bool)
    (size : ℕ) (data : List (BitVec 8)) :
    handed (s.notified (if isStore then ctx.notif.write else ctx.notif.read) (traceEvent ctx
        (if isStore then pciemEventMmioWrite else pciemEventMmioRead) off size
        (compose (data.map (BitVec.setWidth 64))))) =
      handed s ++ (notice ctx s.us off isStore size data).toList := by
  rw [handed, pushes_notified, List.map_append, handed]
  unfold notice
  by_cases h : (if isStore then ctx.notif.write else ctx.notif.read) = true ∧ s.us = true
  · rw [if_pos h, if_pos h]
    rfl
  · rw [if_neg h, if_neg h]
    rfl

/-- The copy and the call of the hook are what `emulateLs` does. -/
theorem emulateLs_eq {ls : RiscvLsInsn} {mem mem' : Memory} {data : List (BitVec 8)} {s : Traced}
    (hsize : ls.size ∈ sizes) (hcopy : copyStage ctx map faultVa ls regs mem = some (data, mem'))
    (hs : s.shadow = bar ctx mem) :
    ∃ s', emulateLs ctx map faultVa ls regs s = some (if ls.isStore then regs else
          ls.loaded regs (compose (data.map (BitVec.setWidth 64))), s') ∧
      s'.shadow = bar ctx mem' ∧ handed s' = handed s ++
        (notice ctx s.us (barOffset ctx map faultVa) ls.isStore ls.size data).toList := by
  unfold copyStage at hcopy
  dsimp only at hcopy
  by_cases hout : OutOfBar ctx (barOffset ctx map faultVa) ls.size
  · rw [if_pos hout] at hcopy
    cases hcopy
  · rw [if_neg hout] at hcopy
    cases hstore : ls.isStore with
    | true =>
      rw [hstore, if_pos rfl, Option.some.injEq, Prod.mk.injEq] at hcopy
      obtain ⟨rfl, rfl⟩ := hcopy
      have hwrite := emulateWrite_eq hsize hout (length_bytes (riscvGetReg regs ls.rs2) _) s
      have hls := handed_notice ctx (s.poke ctx (barOffset ctx map faultVa)
        (bytes (riscvGetReg regs ls.rs2) ls.size)) (barOffset ctx map faultVa) true ls.size
        (bytes (riscvGetReg regs ls.rs2) ls.size)
      have hemulate : emulateLs ctx map faultVa ls regs s = (smptraceEmulateWrite ctx map faultVa
          ls.size (bytes (riscvGetReg regs ls.rs2) ls.size) s).map (Prod.mk regs) := by
        rw [Option.map_eq_bind, emulateLs, if_pos hstore]
        rfl
      rw [hwrite] at hemulate
      refine ⟨_, hemulate, ?_, ?_⟩
      · rw [shadow_notified, shadow_poke, hs]
        split_ifs
        · rfl
        · exact (store_bar ..).symm
      · refine hls.trans ?_
        unfold Traced.poke handed
        split_ifs
        · rfl
        · rfl
    | false =>
      rw [hstore, if_neg Bool.false_ne_true, Option.some.injEq, Prod.mk.injEq] at hcopy
      obtain ⟨rfl, rfl⟩ := hcopy
      obtain ⟨stack, hread⟩ := emulateRead_eq hsize hout s
      rw [← compose_peek, peek_bar hs] at hread
      have hls := handed_notice ctx { s with stack } (barOffset ctx map faultVa) false
        ls.size (peek mem (ctx.pa.toNat + (barOffset ctx map faultVa).toNat) ls.size)
      have hemulate : emulateLs ctx map faultVa ls regs s =
          (smptraceEmulateRead ctx map faultVa ls.size s).map fun dst ↦
            (ls.loaded regs (compose (dst.1.map (BitVec.setWidth 64))), dst.2) := by
        rw [Option.map_eq_bind, emulateLs, if_neg (Bool.eq_false_iff.mp hstore)]
        rfl
      rw [hread] at hemulate
      refine ⟨_, hemulate, ?_, hls⟩
      rw [shadow_notified]
      exact hs

theorem emulate_word {i : Coded} (hexact : Exact i) (behind : BitVec 16) (s : Traced)
    {fetch : BitVec 64 → Option (BitVec 32)} (hfetch : fetch (regs .epc) = some (word behind i)) :
    emulateRiscvFault false fetch ctx map faultVa regs s =
      (emulateLs ctx map faultVa (decoded i.base) regs s).map fun r ↦ (.ok (),
        Function.update r.1 .epc (r.1 .epc + if (decodedAs i).isRvc then 2 else 4), r.2) := by
  cases i with
  | full i => exact emulate_encode i faultVa regs s hfetch
  | short c =>
    rw [emulate_encodeRvc behind c hfetch]
    have hls := ls_of_exact hexact
    change { decoded c.expand with signExtend := false } = decoded c.expand at hls
    rw [hls]
    rfl

/-- The stages one after the other are the handler. -/
theorem handler_alone {fetch : BitVec 64 → Option (BitVec 32)} {maps : List SmptraceMap}
    {cause : BitVec 64} {inPf : Bool} {i : Coded} {behind : BitVec 16} {d : Decoded}
    {mem mem' : Memory} {data : List (BitVec 8)} {s : Traced} (hexact : Exact i)
    (hfetch : fetch (regs .epc) = some (word behind i))
    (henter : enterStage maps cause faultVa inPf i (word behind i) =
      some (.decoded map faultVa i d))
    (hcopy : copyStage ctx map faultVa d.ls regs mem = some (data, mem'))
    (hs : s.shadow = bar ctx mem) :
    ∃ s', enterRiscvHandlePageFault false fetch ctx maps cause faultVa inPf regs s =
        some (true, finishStage d regs data, s') ∧ s'.shadow = bar ctx mem' ∧
      handed s' = handed s ++
        (notice ctx s.us (barOffset ctx map faultVa) d.ls.isStore d.ls.size data).toList := by
  obtain ⟨hmap, rfl⟩ : faultMap maps cause faultVa false inPf = some map ∧ d = decodedAs i := by
    unfold enterStage at henter
    rw [decodeWord_word] at henter
    cases hmap : faultMap maps cause faultVa false inPf with
    | none =>
      rw [hmap] at henter
      cases henter
    | some map' =>
      rw [hmap] at henter
      injection henter with henter
      injection henter with hmap' _ _ hd
      exact ⟨congrArg some hmap', hd.symm⟩
  have hls := ls_of_exact hexact
  have hsize : (decodedAs i).ls.size ∈ sizes := by
    rw [hls, size_decoded]
    exact width_mem_sizes i.base
  obtain ⟨s', hemulate, hshadow, hhanded⟩ := emulateLs_eq hsize hcopy hs
  refine ⟨s', ?_, hshadow, hhanded⟩
  unfold enterRiscvHandlePageFault
  rw [hmap]
  dsimp only
  rw [emulate_word hexact behind s hfetch, ← hls, hemulate]
  rfl

end Handler

section Run

variable {ctx : SmptraceCtx} {us : Bool} {poisoned : Mapping → ℕ → Prop} {live : List Mapping}
  {m : Mapping} {addr n : ℕ}

/-- What the handler of a processor relies on. -/
def OnTrack (ctx : SmptraceCtx) (poisoned : Mapping → ℕ → Prop) (live : List Mapping)
    (cpu : Processor) : Prop :=
  match cpu.stage with
  | .idle => cpu.inPf = false
  | .decoded map faultVa i d =>
    Exact i ∧ d = decodedAs i ∧ faultVa = i.addressOf (hart cpu.regs) ∧
      ∃ m ∈ live, Poisoned ctx poisoned m faultVa.toNat ∧ map = m.toSmptraceMap ∧
        Spans m faultVa.toNat i.width
  | .copied _ _ i d data | .notified _ _ i d data =>
    Exact i ∧ d = decodedAs i ∧ data.length = i.width

variable {ι : Type} [DecidableEq ι]

structure Machine.Good (ctx : SmptraceCtx) (poisoned : Mapping → ℕ → Prop) (s : Machine ι) :
    Prop where
  attributed : Attributed ctx s.traces
  contained : ∀ m ∈ s.traces.live, m.InBar ctx →
    m.pa.toNat + m.len.toNat ≤ ctx.pa.toNat + ctx.len.toNat
  onTrack : ∀ c, OnTrack ctx poisoned s.traces.live (s.cpus c)
  alive : s.crashed = false

variable {s s' : Machine ι} {c : ι}

theorem Machine.Good.update (h : s.Good ctx poisoned) {mem : Memory} {cpu : Processor}
    {queued log : List (ι × PciemEvent)} (hcpu : OnTrack ctx poisoned s.traces.live cpu) :
    Machine.Good ctx poisoned
      ⟨s.traces, mem, Function.update s.cpus c cpu, queued, log, s.crashed⟩ :=
  ⟨h.attributed, h.contained,
    (Function.forall_update_iff s.cpus fun _ ↦ OnTrack ctx poisoned s.traces.live).mpr
      ⟨hcpu, fun d _ ↦ h.onTrack d⟩, h.alive⟩

section Advance

variable {regs : PtRegs} {inPf : Bool} {map : SmptraceMap} {faultVa : BitVec 64} {i : Coded}
  {d : Decoded} {data : List (BitVec 8)}

end Advance

open Coverage PageTables

/-- Two processors before tracing. One is about to access the page, the other one memory that is
mapped elsewhere. -/
def quiet : Machine Bool where
  traces := .none
  mem _ := 0
  cpus c :=
    ⟨if c then Function.update pageRegs (.a ⟨1, by decide⟩) onePage.va else pageRegs, false, .idle⟩
  queued := []
  log := []
  crashed := false

end Run

section Access

variable {ctx : SmptraceCtx} {m : Mapping}

/-- What a mapping shows of physical memory. -/
def through (m : Mapping) (mem : Memory) : Memory :=
  fun addr ↦ if m.va.toNat ≤ addr then mem (placeIn m addr) else 0

theorem peek_through {addr n : ℕ} (h : Spans m addr n) (mem : Memory) :
    peek (through m mem) addr n = peek mem (placeIn m addr) n := by
  obtain ⟨hlo, hhi⟩ := h
  unfold peek through placeIn
  refine List.map_congr_left fun k _ ↦ ?_
  rw [if_pos (by omega), show m.pa.toNat + (addr + k - m.va.toNat) =
    m.pa.toNat + (addr - m.va.toNat) + k by omega]

theorem store_through {addr n : ℕ} (h : Spans m addr n) (mem : Memory) (bs : List (BitVec 8)) :
    store (through m mem) addr bs = through m (store mem (placeIn m addr) bs) := by
  obtain ⟨hlo, hhi⟩ := h
  funext q
  by_cases hq : m.va.toNat ≤ q
  · simp only [through, store, if_pos hq]
    by_cases hlt : addr ≤ q
    · have hle : placeIn m addr ≤ placeIn m q := by
        unfold placeIn
        omega
      have hsub : placeIn m q - placeIn m addr = q - addr := by
        unfold placeIn
        omega
      rw [if_pos hlt, if_pos hle, hsub]
    · have hnle : ¬ placeIn m addr ≤ placeIn m q := by
        unfold placeIn
        omega
      rw [if_neg hlt, if_neg hnle]
  · rw [store, if_neg (by omega), through, if_neg hq, through, if_neg hq]

theorem moved_through {i : Coded} {h : Hart} (hspans : Spans m (i.addressOf h).toNat i.width)
    (mem : Memory) : Coded.isa.moved i h (through m mem) (i.addressOf h).toNat =
      Coded.isa.moved i h mem (placeIn m (i.addressOf h).toNat) :=
  congrArg (Coded.isa.stored i h).getD (peek_through hspans mem)

theorem write_through {i : Coded} {h : Hart} (hspans : Spans m (i.addressOf h).toNat i.width)
    (mem : Memory) : Coded.isa.write true i h (through m mem) (i.addressOf h).toNat =
      through m (Coded.isa.write true i h mem (placeIn m (i.addressOf h).toNat)) := by
  unfold Isa.write
  cases hstored : Coded.isa.stored i h with
  | none => rfl
  | some bs => exact store_through hspans mem bs

/-- An access that is made at once is the instruction on the memory that the mapping shows. -/
theorem execute_through (i : Coded) (h : Hart) (mem : Memory)
    (hspans : Spans m (i.addressOf h).toNat i.width) : i.execute (h.over (through m mem)) =
      (Coded.isa.retire i h (Coded.isa.moved i h mem (placeIn m (i.addressOf h).toNat))).over
        (through m (Coded.isa.write true i h mem (placeIn m (i.addressOf h).toNat))) := by
  rw [Coded.execute_eq, ← moved_through hspans, ← write_through hspans]
  rfl

end Access

end Pciem.Trace.Smp
