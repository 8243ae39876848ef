import Pciem.Trace.Arm64
import Pciem.Trace.Riscv
import Pciem.Trace.X86Store

namespace Pciem.Trace.Notification

open Kernel Library.ByteMemory Library.X64 Ring.SharedRing Context

/-- A fault of the kernel in a traced BAR, as the handler of each architecture gets it. On x86 the
bytes at the instruction pointer begin with a move. -/
inductive Fault
  | x86 (i : Move) (hi : i.Encodable) (rest : List (BitVec 8)) (segs : InsnDecode.Segments)
    (regs : X86.PtRegs)
  | arm64 (fetch : BitVec 64 → Option (BitVec 32)) (faultVa esr : BitVec 64)
    (regs : Arm64.PtRegs)
  | riscv (fetch : BitVec 64 → Option (BitVec 32)) (faultVa : BitVec 64) (regs : Riscv.PtRegs)

/-- What the instruction does in the BAR: it stores bytes, or loads some. -/
structure Access where
  stored : Option (List (BitVec 8))
  addr : BitVec 64
  size : ℕ

/-- What the handler returns, and leaves. -/
def Fault.emulate (ctx : SmptraceCtx) (map : SmptraceMap) (s : Traced) :
    Fault → Option (Except Errno Unit × Traced)
  | .x86 i _ rest segs regs =>
    (InsnDecode.emulateBytes (i.encode ++ rest) segs ctx map regs s).map fun r ↦ (r.1, r.2.2)
  | .arm64 fetch faultVa esr regs =>
    (Arm64.emulateArm64Fault false fetch ctx map faultVa esr regs s).map fun r ↦ (r.1, r.2.2)
  | .riscv fetch faultVa regs =>
    (Riscv.emulateRiscvFault false fetch ctx map faultVa regs s).map fun r ↦ (r.1, r.2.2)

def x86Access (i : Move) (segs : InsnDecode.Segments) (regs : X86.PtRegs) : Access :=
  let m := X86Move.machine regs segs
  ⟨i.stored m, i.address m, i.width.size⟩

def arm64Access (faultVa : BitVec 64) (a : Arm64.Access) (regs : Arm64.PtRegs) : Access :=
  let val := if a.srt = 31 then 0 else regs.regs a.srt
  ⟨if a.isStore then some (bytes val a.size) else none, faultVa, a.size⟩

def riscvAccess (faultVa : BitVec 64) (ls : Riscv.RiscvLsInsn) (regs : Riscv.PtRegs) : Access :=
  ⟨if ls.isStore then some (bytes (Riscv.riscvGetReg regs ls.rs2) ls.size) else none, faultVa,
    ls.size⟩

def Fault.access : Fault → Option Access
  | .x86 i _ _ segs regs => some (x86Access i segs regs)
  | .arm64 fetch faultVa esr regs =>
    if esr &&& Arm64.esrElxIsv ≠ 0 then
      some (arm64Access faultVa (Arm64.syndromeAccess esr) regs)
    else
      (fetch regs.pc).bind fun insn ↦ (Arm64.arm64DecodeLsInsn insn).map fun ls ↦
        arm64Access faultVa ls.access (ls.writeBack regs)
  | .riscv fetch faultVa regs =>
    (fetch (regs .epc)).bind fun insn ↦
      (if insn &&& 0x3 ≠ 0x3 then Riscv.riscvDecodeRvcLsInsn (insn.setWidth 16)
        else Riscv.riscvDecodeLsInsn insn).map fun ls ↦ riscvAccess faultVa ls regs

/-- The hook of the access. -/
def Access.hook (a : Access) (notif : SmptraceNotifier) : Bool :=
  if a.stored.isSome then notif.write else notif.read

/-- The event that is to tell of the access. -/
def Access.event (a : Access) (ctx : SmptraceCtx) (map : SmptraceMap) (s : Traced) : PciemEvent :=
  let off := barOffset ctx map a.addr
  match a.stored with
  | some src =>
    traceEvent ctx pciemEventMmioWrite off a.size (compose (src.map (BitVec.setWidth 64)))
  | none => traceEvent ctx pciemEventMmioRead off a.size (load s.shadow off.toNat a.size)

/-- The shadow is read once for the sign of what is loaded, and once for the load. -/
def Fault.ReadsTwice : Fault → Prop
  | .x86 i _ _ _ _ => i.op = .signExtendByte ∨ i.op = .signExtendWord
  | .arm64 _ _ _ _ | .riscv _ _ _ => False

/-- The ring takes one more event, and none after that. -/
def LastRoom (ring : PciemSharedRing) : Prop :=
  Room ring ∧ nextIndex (nextIndex ring.tail) = ring.head

/-- The ring takes just one of the events that it is given. -/
def Fault.Taken (f : Fault) (ring : PciemSharedRing) : Prop :=
  Room ring ∧ (f.ReadsTwice → LastRoom ring)

/-- The handler has the address of the move: there is no base that it leaves out, and where it has
the address of an error this is the right one. -/
def Located (i : Move) (segs : InsnDecode.Segments) (regs : X86.PtRegs) : Prop :=
  if InsnDecode.LoopsBack (InsnDecode.keptPrefixes i.prefixes) then
    i.address (X86Move.machine regs segs) = -1
  else
    i.segmentBase (X86Move.machine regs segs) = 0

/-- The handler takes the access for what it is. -/
def Fault.Understood : Fault → Prop
  | .x86 i _ _ segs regs => Located i segs regs ∧ X86Store.SameByte i regs
  | .arm64 _ _ _ _ | .riscv _ _ _ => True

section Events

variable {ring : PciemSharedRing} {ev ev' : PciemEvent}

/-- What becomes of an event that the ring is given `n` times. -/
def given (ring : PciemSharedRing) (ev : PciemEvent) : ℕ → List (PciemEvent × Bool)
  | 0 => []
  | n + 1 => (ev, decide (Room ring)) :: given (pciemSharedRingPush ring ev).2 ev n

theorem accepted_one :
    ((given ring ev 1).filter (·.2)).map (·.1) = [ev'] ↔ Room ring ∧ ev = ev' := by
  by_cases h : Room ring
  · simp [given, h]
  · simp [given, h]

theorem room_pushed (h : Room ring) : Room (pciemSharedRingPush ring ev).2 ↔
    nextIndex (nextIndex ring.tail) ≠ ring.head := by
  have hpush : (pciemSharedRingPush ring ev).2 = _ := congrArg Prod.snd (if_neg h)
  rw [hpush]
  exact Iff.rfl

theorem accepted_two :
    ((given ring ev 2).filter (·.2)).map (·.1) = [ev'] ↔ LastRoom ring ∧ ev = ev' := by
  unfold LastRoom
  by_cases h : Room ring
  · by_cases h' : nextIndex (nextIndex ring.tail) = ring.head
    · simp [given, h, room_pushed, h']
    · simp [given, h, room_pushed, h']
  · have hpush : (pciemSharedRingPush ring ev).2 = ring :=
      congrArg Prod.snd (if_pos (not_not.mp h))
    simp [given, h, hpush]

theorem compose_inj {bs bs' : List (BitVec 8)} (hlength : bs.length = bs'.length)
    (hle : bs.length ≤ 8)
    (h : compose (bs.map (BitVec.setWidth 64)) = compose (bs'.map (BitVec.setWidth 64))) :
    bs = bs' := by
  refine List.ext_getElem hlength fun k hk hk' ↦ ?_
  have hbyte := byte_compose bs hk (w := 64) (by omega)
  rw [← hbyte, h, byte_compose bs' hk' (by omega)]

theorem barOffset_inj (ctx : SmptraceCtx) (map : SmptraceMap) {addr addr' : BitVec 64} :
    barOffset ctx map addr = barOffset ctx map addr' ↔ addr = addr' := by
  refine ⟨fun h ↦ ?_, fun h ↦ congrArg _ h⟩
  unfold barOffset at h
  rwa [BitVec.add_right_inj, BitVec.sub_left_inj] at h

/-- Where two accesses of one kind and size have the same event. -/
theorem event_inj (ctx : SmptraceCtx) (map : SmptraceMap) (s : Traced) {addr addr' : BitVec 64}
    {size : ℕ} {stored stored' : Option (List (BitVec 8))}
    (hstored : stored.map List.length = stored'.map List.length)
    (hlength : ∀ bs, stored = some bs → bs.length ≤ 8) :
    Access.event ⟨stored, addr, size⟩ ctx map s = Access.event ⟨stored', addr', size⟩ ctx map s ↔
      addr = addr' ∧ stored = stored' := by
  rw [← barOffset_inj ctx map]
  cases stored with
  | none =>
    cases stored' with
    | some bs' => cases hstored
    | none =>
      simp only [Access.event, traceEvent, and_true]
      constructor
      · intro h
        injection h with _ _ _ hoff
        injection hoff
      · intro h
        rw [h]
  | some bs =>
    cases stored' with
    | none => cases hstored
    | some bs' =>
      simp only [Access.event, traceEvent, Option.some_inj]
      constructor
      · intro h
        injection h with _ _ _ hoff _ _ hdata
        injection hoff with hoff
        injection hdata with hdata
        exact ⟨hoff, compose_inj (Option.some_inj.mp hstored) (hlength bs rfl) hdata⟩
      · rintro ⟨hoff, rfl⟩
        rw [hoff]

end Events

section Accesses

variable {ctx : SmptraceCtx} {map : SmptraceMap} {addr : BitVec 64} {size : ℕ} {s s' : Traced}

theorem pushes_write (hhook : ctx.notif.write = true) {src : List (BitVec 8)}
    (hsrc : src.length = size) (h : smptraceEmulateWrite ctx map addr size src s = some s') :
    s'.pushes = s.pushes ++ if s.us then given s.ring (traceEvent ctx pciemEventMmioWrite
      (barOffset ctx map addr) size (compose (src.map (BitVec.setWidth 64)))) 1 else [] := by
  by_cases hout : OutOfBar ctx (barOffset ctx map addr) size
  · simp [smptraceEmulateWrite, hout] at h
  · by_cases hsize : size ∈ sizes
    · rw [emulateWrite_eq hsize hout hsrc, Option.some.injEq] at h
      subst h
      rw [pushes_notified, hhook, given, given]
      unfold Traced.poke
      split_ifs <;> simp_all
    · simp [smptraceEmulateWrite, hout, hhook, fillIoNotif, hsize] at h

theorem pushes_read (hhook : ctx.notif.read = true) {dst : List (BitVec 8)}
    (h : smptraceEmulateRead ctx map addr size s = some (dst, s')) :
    let ev := traceEvent ctx pciemEventMmioRead (barOffset ctx map addr) size
      (load s.shadow (barOffset ctx map addr).toNat size)
    s'.us = s.us ∧ s'.shadow = s.shadow ∧
      (s.us = true → s'.ring = (pciemSharedRingPush s.ring ev).2) ∧
      s'.pushes = s.pushes ++ if s.us then given s.ring ev 1 else [] := by
  by_cases hout : OutOfBar ctx (barOffset ctx map addr) size
  · simp [smptraceEmulateRead, hout] at h
  · by_cases hsize : size ∈ sizes
    · obtain ⟨stack, hread⟩ := emulateRead_eq hsize hout s
      rw [hread] at h
      cases h
      refine ⟨us_notified .., shadow_notified .., fun hus ↦ ring_notified _ _ _ hhook hus, ?_⟩
      rw [pushes_notified, given, given]
      simp [hhook]
    · simp [smptraceEmulateRead, hout, hhook, fillIoNotif, hsize] at h

/-- What an access gives to the ring, `n` times. -/
def Access.Queues (a : Access) (ctx : SmptraceCtx) (map : SmptraceMap) (s s' : Traced) (n : ℕ) :
    Prop :=
  a.hook ctx.notif = true →
    s'.pushes = s.pushes ++ if s.us then given s.ring (a.event ctx map s) n else []

theorem queues_write {val : BitVec w} {src : List (BitVec 8)} (hsrc : src = bytes val size)
    (h : smptraceEmulateWrite ctx map addr size src s = some s') :
    Access.Queues ⟨some src, addr, size⟩ ctx map s s' 1 := by
  subst hsrc
  exact fun hhook ↦ pushes_write hhook (length_bytes ..) h

theorem queues_read {dst : List (BitVec 8)}
    (h : smptraceEmulateRead ctx map addr size s = some (dst, s')) :
    Access.Queues ⟨none, addr, size⟩ ctx map s s' 1 :=
  fun hhook ↦ (pushes_read hhook h).2.2.2

/-- The second read finds what the first has found, and reports it once more. -/
theorem queues_read_read {s'' : Traced} {dst dst' : List (BitVec 8)}
    (h : smptraceEmulateRead ctx map addr size s = some (dst, s'))
    (h' : smptraceEmulateRead ctx map addr size s' = some (dst', s'')) :
    Access.Queues ⟨none, addr, size⟩ ctx map s s'' 2 := by
  intro hhook
  obtain ⟨hus, hshadow, hring, hpushes⟩ := pushes_read hhook h
  rw [(pushes_read hhook h').2.2.2, hpushes, hus, hshadow, List.append_assoc]
  cases hset : s.us with
  | false => rfl
  | true =>
    rw [hring hset]
    rfl

/-- Of one event that is given once the ring is to take it, of one that is given twice it is to take
one. -/
theorem Access.Queues.one_iff {a : Access} {ev : PciemEvent} {n : ℕ}
    (h : a.Queues ctx map s s' n) (hhook : a.hook ctx.notif = true) (hn : n = 1 ∨ n = 2) :
    s'.queued = s.queued ++ [ev] ↔ s.us = true ∧ (Room s.ring ∧ (n = 2 → LastRoom s.ring)) ∧
      a.event ctx map s = ev := by
  unfold Traced.queued
  rw [h hhook, List.filter_append, List.map_append, List.append_cancel_left_eq]
  cases s.us with
  | false => simp
  | true =>
    rcases hn with rfl | rfl
    · rw [if_pos rfl, accepted_one]
      simp
    · rw [if_pos rfl, accepted_two]
      simp only [LastRoom, true_and, forall_const]
      tauto

end Accesses

section Handlers

variable {ctx : SmptraceCtx} {map : SmptraceMap} {s s' : Traced}

/-- What the handler takes an instruction for. -/
def taken (d : X86.DecodedInsn) (regs : X86.PtRegs) : Option Access :=
  match d.mmio with
  | .write => d.data.map fun r ↦ ⟨some (bytes (regs.gpr r) d.len), d.addr, d.len⟩
  | .writeImm => some ⟨some (bytes d.immediate1 d.len), d.addr, d.len⟩
  | .read | .readZeroExtend | .readSignExtend => some ⟨none, d.addr, d.len⟩
  | .decodeFailed | .movs => none

/-- How often an instruction reads or writes the shadow. -/
def times (d : X86.DecodedInsn) : ℕ :=
  if d.mmio = .readSignExtend then 2 else 1

theorem queues_emulateData {d : X86.DecodedInsn} {r : ℕ} {regs regs' : X86.PtRegs}
    (hr : d.data = some r)
    (h : X86.emulateData ctx map d r regs s = some (.ok (), regs', s')) :
    ∃ a, taken d regs = some a ∧ a.Queues ctx map s s' (times d) := by
  unfold X86.emulateData at h
  unfold taken times
  cases hmmio : d.mmio with
  | decodeFailed | writeImm | movs => simp [hmmio] at h
  | write =>
    simp only [hmmio, Option.bind_eq_bind, Option.bind_eq_some_iff] at h
    obtain ⟨t, hwrite, hsome⟩ := h
    cases hsome
    exact ⟨_, by rw [hr, Option.map_some], queues_write rfl hwrite⟩
  | read | readZeroExtend =>
    simp only [hmmio, Option.bind_eq_bind, Option.bind_eq_some_iff] at h
    obtain ⟨dst, hread, hsome⟩ := h
    cases hsome
    exact ⟨_, rfl, queues_read hread⟩
  | readSignExtend =>
    simp only [hmmio, Option.bind_eq_bind, Option.bind_eq_some_iff] at h
    obtain ⟨val, hval, dst, hread, hsome⟩ := h
    cases hsome
    exact ⟨_, rfl, queues_read_read hval hread⟩

theorem queues_emulateMmio {d : X86.DecodedInsn} {regs regs' : X86.PtRegs}
    (h : X86.emulateMmio ctx map d regs s = some (.ok (), regs', s')) :
    ∃ a, taken d regs = some a ∧ a.Queues ctx map s s' (times d) := by
  unfold X86.emulateMmio at h
  split_ifs at h with himm hlen hmovs
  · simp only [Option.bind_eq_bind, Option.bind_eq_some_iff] at h
    obtain ⟨t, hwrite, hsome⟩ := h
    cases hsome
    exact ⟨_, by rw [taken, himm], by simpa [times, himm] using queues_write rfl hwrite⟩
  · cases h
  · cases hr : d.data with
    | none =>
      rw [hr] at h
      cases h
    | some r =>
      rw [hr] at h
      exact queues_emulateData hr h

theorem queues_x86 {d : X86.DecodedInsn} {regs regs' : X86.PtRegs}
    (h : X86.emulatePfInstruction false (.ok d) ctx map regs s = some (.ok (), regs', s')) :
    ∃ a, taken d regs = some a ∧ a.Queues ctx map s s' (times d) := by
  simp only [X86.emulatePfInstruction, Bool.false_eq_true, if_false] at h
  split_ifs at h
  · cases h
  · cases hmmio : X86.emulateMmio ctx map d regs s with
    | none =>
      rw [hmmio] at h
      cases h
    | some after =>
      obtain ⟨result, regs'', s''⟩ := after
      rw [hmmio] at h
      cases result with
      | error e => cases h
      | ok =>
        cases h
        exact queues_emulateMmio hmmio

theorem queues_arm64 {addr : BitVec 64} {a : Arm64.Access} {regs regs' : Arm64.PtRegs}
    (h : Arm64.finishFault ctx map addr a regs s = some (.ok (), regs', s')) :
    (arm64Access addr a regs).Queues ctx map s s' 1 := by
  simp only [Arm64.finishFault, Option.bind_eq_bind, Option.bind_eq_some_iff] at h
  obtain ⟨after, hemulate, hsome⟩ := h
  cases hsome
  unfold Arm64.emulateAccess at hemulate
  unfold arm64Access
  cases hstore : a.isStore with
  | true =>
    simp only [hstore, if_true, Option.bind_eq_bind, Option.bind_eq_some_iff] at hemulate
    obtain ⟨t, hwrite, hsome⟩ := hemulate
    cases hsome
    exact queues_write rfl hwrite
  | false =>
    simp only [hstore, Bool.false_eq_true, if_false, Option.bind_eq_bind,
      Option.bind_eq_some_iff] at hemulate
    obtain ⟨dst, hread, hsome⟩ := hemulate
    cases hsome
    exact queues_read hread

theorem queues_riscv {addr : BitVec 64} {ls : Riscv.RiscvLsInsn} {regs regs' : Riscv.PtRegs}
    (h : Riscv.emulateLs ctx map addr ls regs s = some (regs', s')) :
    (riscvAccess addr ls regs).Queues ctx map s s' 1 := by
  unfold Riscv.emulateLs at h
  unfold riscvAccess
  cases hstore : ls.isStore with
  | true =>
    simp only [hstore, if_true, Option.bind_eq_bind, Option.bind_eq_some_iff] at h
    obtain ⟨t, hwrite, hsome⟩ := h
    cases hsome
    exact queues_write rfl hwrite
  | false =>
    simp only [hstore, Bool.false_eq_true, if_false, Option.bind_eq_bind,
      Option.bind_eq_some_iff] at h
    obtain ⟨dst, hread, hsome⟩ := h
    cases hsome
    exact queues_read hread

theorem taken_decodedOf (i : Move) (addr : BitVec 64) (regs : X86.PtRegs) :
    taken (X86Move.decodedOf i addr) regs =
      some ⟨if i.op.isStore then some (X86Store.written i regs) else none, addr, i.width.size⟩ ∧
    times (X86Move.decodedOf i addr) =
      if i.op = .signExtendByte ∨ i.op = .signExtendWord then 2 else 1 := by
  unfold taken times X86Move.decodedOf X86Store.written
  cases i.op with
  | registerByte | register | immediateByte | immediate | loadByte | load | zeroExtendByte
  | zeroExtendWord | signExtendByte | signExtendWord => exact ⟨rfl, rfl⟩

theorem located_iff {i : Move} {p : InsnDecode.Prefixes} {segs : InsnDecode.Segments}
    {regs : X86.PtRegs} {addr : BitVec 64} (hi : i.Encodable)
    (hp : InsnDecode.Scanned p i.prefixes)
    (h : InsnDecode.insnGetAddrRef (InsnDecode.insnOf i p) regs segs = some addr) :
    addr = i.address (X86Move.machine regs segs) ↔ Located i segs regs := by
  unfold Located
  by_cases hloops : InsnDecode.LoopsBack (InsnDecode.keptPrefixes i.prefixes)
  · rw [if_pos hloops]
    rcases X86Move.insnGetAddrRef_error hp hloops with hnone | herror
    · cases h.symm.trans hnone
    · rw [Option.some_inj.mp (h.symm.trans herror)]
      exact eq_comm
  · rw [if_neg hloops, Option.some_inj.mp (h.symm.trans
      (X86Move.insnGetAddrRef_eq hi hp hloops)), Move.address, eq_comm]
    exact eq_comm.trans BitVec.self_eq_add_right

/-- The handler comes to an end with a move that it has decoded. -/
theorem decoded_of_ok {i : Move} {rest : List (BitVec 8)} {segs : InsnDecode.Segments}
    {regs regs' : X86.PtRegs} (hi : i.Encodable)
    (h : InsnDecode.emulateBytes (i.encode ++ rest) segs ctx map regs s =
      some (.ok (), regs', s')) : ∃ p addr, InsnDecode.Scanned p i.prefixes ∧
    InsnDecode.insnGetAddrRef (InsnDecode.insnOf i p) regs segs = some addr ∧
    X86.emulatePfInstruction false (.ok (X86Move.decodedOf i addr)) ctx map regs s =
      some (.ok (), regs', s') := by
  cases hd : InsnDecode.insnDecode (i.encode ++ rest) with
  | none =>
    unfold InsnDecode.emulateBytes at h
    rw [hd] at h
    cases h
  | some insn =>
    obtain ⟨p, hp, hemulate⟩ := X86Move.emulateBytes_eq hi hd segs ctx map regs s
    rw [hemulate] at h
    obtain ⟨addr, haddr, h⟩ := Option.bind_eq_some_iff.mp h
    exact ⟨p, addr, hp, haddr, h⟩

theorem operand_of_ok {i : Move} {addr : BitVec 64} {regs regs' : X86.PtRegs}
    (h : X86.emulatePfInstruction false (.ok (X86Move.decodedOf i addr)) ctx map regs s =
      some (.ok (), regs', s')) : i.op = .immediate → i.operand ≠ .qword := by
  intro hop hoperand
  rw [X86Store.emulate_wide hop hoperand] at h
  cases h

/-- What the handler takes a move for is what the move does, where it has its address and bytes. -/
theorem event_taken_iff {i : Move} {p : InsnDecode.Prefixes} {segs : InsnDecode.Segments}
    {regs : X86.PtRegs} {addr : BitVec 64} (hi : i.Encodable)
    (hp : InsnDecode.Scanned p i.prefixes)
    (haddr : InsnDecode.insnGetAddrRef (InsnDecode.insnOf i p) regs segs = some addr)
    (hoperand : i.op = .immediate → i.operand ≠ .qword) :
    Access.event ⟨if i.op.isStore then some (X86Store.written i regs) else none, addr,
        i.width.size⟩ ctx map s = (x86Access i segs regs).event ctx map s ↔
      Located i segs regs ∧ X86Store.SameByte i regs := by
  have hle := le_of_mem_sizes (X86.size_mem_sizes i.width)
  have hlength := X86Store.length_written i regs
  unfold x86Access Move.stored
  dsimp only
  cases hstore : i.op.isStore with
  | true =>
    rw [if_pos rfl, if_pos rfl, event_inj ctx map s, located_iff hi hp haddr, Option.some_inj,
      X86Store.written_eq_iff segs hstore hoperand]
    · rw [Option.map_some, Option.map_some, hlength, length_bytes]
    · intro bs hbs
      cases hbs
      omega
  | false =>
    rw [if_neg Bool.false_ne_true, if_neg Bool.false_ne_true, event_inj ctx map s rfl,
      located_iff hi hp haddr]
    · refine and_congr_right fun _ ↦ iff_of_true rfl fun hhigh ↦ ?_
      rw [hhigh.1] at hstore
      cases hstore
    · intro bs hbs
      cases hbs

/-- The handler of x86 tells of a move once or twice, and of the move as it takes it. -/
theorem queues_move {i : Move} {rest : List (BitVec 8)} {segs : InsnDecode.Segments}
    {regs : X86.PtRegs} {hi : i.Encodable}
    (h : (Fault.x86 i hi rest segs regs).emulate ctx map s = some (.ok (), s')) :
    ∃ (a : Access) (n : ℕ), a.Queues ctx map s s' n ∧ a.hook = (x86Access i segs regs).hook ∧
      (n = 1 ∨ n = 2) ∧ (n = 2 ↔ (Fault.x86 i hi rest segs regs).ReadsTwice) ∧
      (a.event ctx map s = (x86Access i segs regs).event ctx map s ↔
        Located i segs regs ∧ X86Store.SameByte i regs) := by
  simp only [Fault.emulate, Option.map_eq_some_iff] at h
  obtain ⟨after, hemulate, hafter⟩ := h
  obtain ⟨result, regs', t⟩ := after
  cases hafter
  obtain ⟨p, addr, hp, haddr, hemulate⟩ := decoded_of_ok hi hemulate
  obtain ⟨htaken, htimes⟩ := taken_decodedOf i addr regs
  obtain ⟨a, ha, hqueues⟩ := queues_x86 hemulate
  cases htaken.symm.trans ha
  rw [htimes] at hqueues
  refine ⟨_, _, hqueues, ?_, ?_, ?_, event_taken_iff hi hp haddr (operand_of_ok hemulate)⟩
  · funext notif
    unfold Access.hook x86Access Move.stored
    cases i.op.isStore with
    | false | true => rfl
  · split_ifs
    · exact .inr rfl
    · exact .inl rfl
  · unfold Fault.ReadsTwice
    split_ifs with htwice
    · exact iff_of_true rfl htwice
    · exact iff_of_false (by decide) htwice

/-- The handler tells of an access once or twice, and of the access as it takes it. -/
theorem queues_emulate {f : Fault} (h : f.emulate ctx map s = some (.ok (), s')) :
    ∃ a, f.access = some a ∧ ∃ (a' : Access) (n : ℕ), a'.Queues ctx map s s' n ∧
      a'.hook = a.hook ∧
      (n = 1 ∨ n = 2) ∧ (n = 2 ↔ f.ReadsTwice) ∧
      (a'.event ctx map s = a.event ctx map s ↔ f.Understood) := by
  have hplain (a : Access) {f : Fault} (hf : ¬ f.ReadsTwice) (hf' : f.Understood) :
      a.hook = a.hook ∧ ((1 : ℕ) = 1 ∨ (1 : ℕ) = 2) ∧ ((1 : ℕ) = 2 ↔ f.ReadsTwice) ∧
        (a.event ctx map s = a.event ctx map s ↔ f.Understood) :=
    ⟨rfl, .inl rfl, iff_of_false (by decide) hf, iff_of_true rfl hf'⟩
  cases f with
  | x86 i hi rest segs regs => exact ⟨_, rfl, queues_move h⟩
  | arm64 fetch faultVa esr regs =>
    simp only [Fault.emulate, Option.map_eq_some_iff] at h
    obtain ⟨after, hemulate, hafter⟩ := h
    obtain ⟨result, regs', t⟩ := after
    cases hafter
    rw [Arm64.emulateArm64Fault, if_neg Bool.false_ne_true] at hemulate
    split_ifs at hemulate with hisv
    · exact ⟨_, if_pos hisv, _, 1, queues_arm64 hemulate, hplain _ id trivial⟩
    · cases hfetch : fetch regs.pc with
      | none =>
        rw [hfetch] at hemulate
        cases hemulate
      | some insn =>
        cases hdecode : Arm64.arm64DecodeLsInsn insn with
        | none =>
          simp only [hfetch, hdecode] at hemulate
          cases hemulate
        | some ls =>
          simp only [hfetch, hdecode] at hemulate
          refine ⟨arm64Access faultVa ls.access (ls.writeBack regs), ?_, _, 1,
            queues_arm64 hemulate, hplain _ id trivial⟩
          rw [Fault.access, if_neg hisv, hfetch, Option.bind_some, hdecode, Option.map_some]
  | riscv fetch faultVa regs =>
    simp only [Fault.emulate, Option.map_eq_some_iff] at h
    obtain ⟨after, hemulate, hafter⟩ := h
    obtain ⟨result, regs', t⟩ := after
    cases hafter
    rw [Riscv.emulateRiscvFault, if_neg Bool.false_ne_true] at hemulate
    cases hfetch : fetch (regs .epc) with
    | none =>
      rw [hfetch] at hemulate
      cases hemulate
    | some insn =>
      cases hdecode : if insn &&& 0x3 ≠ 0x3 then Riscv.riscvDecodeRvcLsInsn (insn.setWidth 16)
          else Riscv.riscvDecodeLsInsn insn with
      | none =>
        simp only [hfetch, hdecode] at hemulate
        cases hemulate
      | some ls =>
        simp only [hfetch, hdecode, Option.bind_eq_bind, Option.bind_eq_some_iff] at hemulate
        obtain ⟨after, hls, hsome⟩ := hemulate
        cases hsome
        refine ⟨riscvAccess faultVa ls regs, ?_, _, 1, queues_riscv hls, hplain _ id trivial⟩
        rw [Fault.access, hfetch, Option.bind_some, hdecode, Option.map_some]

end Handlers

/-- There is one event of an access that is emulated, and this tells of the access, where the device
is there and the ring takes one event, and where the handler takes the access for what it is. -/
theorem one_event_iff {ctx : SmptraceCtx} {map : SmptraceMap} {s s' : Traced} {f : Fault}
    (h : f.emulate ctx map s = some (.ok (), s')) :
    ∃ a, f.access = some a ∧ (a.hook ctx.notif = true →
      (s'.queued = s.queued ++ [a.event ctx map s] ↔
        s.us = true ∧ f.Taken s.ring ∧ f.Understood)) := by
  obtain ⟨a, haccess, a', n, hqueues, hhook, hn, htwice, hevent⟩ := queues_emulate h
  refine ⟨a, haccess, fun hset ↦ ?_⟩
  rw [hqueues.one_iff (hhook ▸ hset) hn, htwice, hevent]
  exact Iff.rfl

/-- `movzx eax, byte ptr [rax + 4]` -/
def byteLoad : Move := ⟨[], none, .zeroExtendByte, 1, 0, 0, 0, 0, 0, 4, 0⟩

/-- `movsx eax, byte ptr [rax + 4]` -/
def signedLoad : Move := ⟨[], none, .signExtendByte, 1, 0, 0, 0, 0, 0, 4, 0⟩

/-- The fault of a load from the page. -/
def loadFault (i : Move) (hi : i.Encodable) : Fault :=
  .x86 i hi (List.replicate 8 0) X86Store.flatSegments (X86.pageRegs 0x5000)

theorem encodable_byteLoad : byteLoad.Encodable := ⟨by decide, by decide, by decide, by decide⟩

theorem encodable_signedLoad : signedLoad.Encodable :=
  ⟨by decide, by decide, by decide, by decide⟩

theorem one_event_byteLoad : ∃ s',
    (loadFault byteLoad encodable_byteLoad).emulate page pageMap (filled 0x80) =
      some (.ok (), s') ∧
    ∃ a, (loadFault byteLoad encodable_byteLoad).access = some a ∧
      (a.hook page.notif = true →
        (s'.queued = (filled 0x80).queued ++ [a.event page pageMap (filled 0x80)] ↔
          (filled 0x80).us = true ∧
            (loadFault byteLoad encodable_byteLoad).Taken (filled 0x80).ring ∧
            (loadFault byteLoad encodable_byteLoad).Understood)) :=
  ⟨_, rfl, one_event_iff rfl⟩

/-- The read for the sign is reported, too. -/
theorem sign_reported : ∃ s' a,
    (loadFault signedLoad encodable_signedLoad).emulate page pageMap (filled 0x80) =
      some (.ok (), s') ∧
    (loadFault signedLoad encodable_signedLoad).access = some a ∧ a.hook page.notif = true ∧
      s'.queued ≠ (filled 0x80).queued ++ [a.event page pageMap (filled 0x80)] := by
  refine ⟨_, _, rfl, rfl, rfl, fun h ↦ ?_⟩
  exact absurd (congrArg List.length h) (by decide)

end Pciem.Trace.Notification
