import Pciem.Trace.X86Move

namespace Pciem.Trace.X86Store

open Kernel Library.ByteMemory Library.X64 Context X86 InsnDecode X86Move

section Stores

variable {i : Move} {regs : PtRegs} {segs : Segments} {addr : BitVec 64} {ctx : SmptraceCtx}
  {map : SmptraceMap} {s : Traced}

/-- What the handler takes for the bytes of the operand. -/
def written (i : Move) (regs : PtRegs) : List (BitVec 8) :=
  match i.op with
  | .immediateByte | .immediate =>
    bytes ((i.immediate.setWidth (8 * i.immediateSize)).signExtend 32 : BitVec 32) i.width.size
  | _ => bytes (regs.gpr (i.number i.reg Move.rexR)) i.width.size

theorem emulate_wide (h : i.op = .immediate) (hoperand : i.operand = .qword) :
    emulatePfInstruction false (.ok (decodedOf i addr)) ctx map regs s = none := by
  simp [emulatePfInstruction, emulateMmio, decodedOf, mmioOf, Move.width, MoveOp.width, h, hoperand,
    Width.size]

theorem emulate_eq (hstore : i.op.isStore) (h : i.op = .immediate → i.operand ≠ .qword) :
    emulatePfInstruction false (.ok (decodedOf i addr)) ctx map regs s =
      (smptraceEmulateWrite ctx map addr i.width.size (written i regs) s).map fun s' ↦
        (.ok (), { regs with ip := regs.ip + BitVec.ofNat 64 i.encode.length }, s') := by
  have hsize (hop : i.op = .immediateByte ∨ i.op = .immediate) : ¬ i.width.size > 4 := by
    obtain ⟨hsize, hle⟩ := Move.immediateSize_eq (hop.imp_right fun hop ↦ ⟨hop, h hop⟩)
    omega
  cases hop : i.op with
  | loadByte | load | zeroExtendByte | zeroExtendWord | signExtendByte | signExtendWord =>
    rw [hop] at hstore
    cases hstore
  | registerByte | register =>
    simp only [emulatePfInstruction, emulateMmio, emulateData, decodedOf, mmioOf, written, hop]
    cases smptraceEmulateWrite ctx map addr i.width.size
        (bytes (regs.gpr (i.number i.reg Move.rexR)) i.width.size) s with
    | none => rfl
    | some s' => rfl
  | immediateByte | immediate =>
    simp only [emulatePfInstruction, emulateMmio, decodedOf, mmioOf, written, hop,
      if_neg (hsize (by simp [hop]))]
    cases smptraceEmulateWrite ctx map addr i.width.size
        (bytes ((i.immediate.setWidth (8 * i.immediateSize)).signExtend 32 : BitVec 32)
          i.width.size) s with
    | none => rfl
    | some s' => rfl

theorem length_written (i : Move) (regs : PtRegs) : (written i regs).length = i.width.size := by
  unfold written
  split
  · exact length_bytes ..
  · exact length_bytes ..
  · exact length_bytes ..

/-- The bytes of an immediate, which is as wide as the operand unless this has eight bytes. -/
theorem immediate_bytes (h : i.op = .immediate → i.operand ≠ .qword)
    (hop : i.op = .immediateByte ∨ i.op = .immediate) : written i regs =
      bytes (i.source (machine regs segs)) i.width.size := by
  obtain ⟨hsize, hle⟩ := Move.immediateSize_eq (hop.imp_right fun hop ↦ ⟨hop, h hop⟩)
  have hwritten : written i regs =
      bytes ((i.immediate.setWidth (8 * i.immediateSize)).signExtend 32 : BitVec 32)
        i.width.size := by
    rcases hop with hop | hop
    · rw [written, hop]
    · rw [written, hop]
  have hsource : i.source (machine regs segs) =
      (i.immediate.setWidth (8 * i.immediateSize)).signExtend 64 := by
    rcases hop with hop | hop
    · rw [Move.source, hop]
    · rw [Move.source, hop]
  rw [hwritten, hsource, ← hsize, bytes_signExtend _ (by omega), bytes_signExtend _ (by omega)]

/-- The second byte of a register is the first byte of the register that is taken for it. -/
def SameByte (i : Move) (regs : PtRegs) : Prop :=
  i.HighByte → byte (regs.gpr i.reg.toNat) 0 = byte (regs.gpr (i.reg.toNat - 4)) 1

/-- The bytes are those of the store, unless the second byte of a register is to be stored. -/
theorem written_eq_iff (segs : Segments) (hstore : i.op.isStore)
    (h : i.op = .immediate → i.operand ≠ .qword) :
    written i regs = bytes (i.source (machine regs segs)) i.width.size ↔ SameByte i regs := by
  have himmediate (hop : i.op = .immediateByte ∨ i.op = .immediate) :
      written i regs = bytes (i.source (machine regs segs)) i.width.size ↔ SameByte i regs := by
    refine iff_of_true (immediate_bytes h hop) fun hhigh ↦ ?_
    rcases hop with hop | hop
    · cases hhigh.1.symm.trans hop
    · cases hhigh.1.symm.trans hop
  have hregister (hop : i.op = .registerByte ∨ i.op = .register) :
      written i regs = bytes (i.source (machine regs segs)) i.width.size ↔ SameByte i regs := by
    have hwritten : written i regs =
        bytes (regs.gpr (i.number i.reg Move.rexR)) i.width.size := by
      rcases hop with hop | hop
      · rw [written, hop]
      · rw [written, hop]
    have hsource : i.source (machine regs segs) =
        if i.HighByte then regs.gpr (i.reg.toNat - 4) >>> 8
        else regs.gpr (i.number i.reg Move.rexR) := by
      rcases hop with hop | hop
      · rw [Move.source, hop, machine]
      · rw [Move.source, hop, machine]
    unfold SameByte
    rw [hwritten, hsource]
    by_cases hhigh : i.HighByte
    · have hnumber : i.number i.reg Move.rexR = i.reg.toNat := by
        rw [Move.number, Move.rexBit, hhigh.2.1]
        rfl
      rw [if_pos hhigh, imp_iff_right hhigh, hnumber, Move.width_eq_byte (.inl hhigh.1)]
      have hbytes (x : BitVec 64) : bytes x Width.byte.size = [byte x 0] := rfl
      rw [hbytes, hbytes, byte_ushiftRight, List.singleton_inj]
    · rw [if_neg hhigh]
      exact iff_of_true rfl fun hhigh' ↦ absurd hhigh' hhigh
  cases hop : i.op with
  | registerByte => exact hregister (.inl hop)
  | register => exact hregister (.inr hop)
  | immediateByte => exact himmediate (.inl hop)
  | immediate => exact himmediate (.inr hop)
  | loadByte | load | zeroExtendByte | zeroExtendWord | signExtendByte | signExtendWord =>
    rw [hop] at hstore
    cases hstore

end Stores

section Exactness

variable {i : Move} {regs : PtRegs} {segs : Segments} {rest : List (BitVec 8)} {insn : Insn}
  {ctx : SmptraceCtx} {map : SmptraceMap} {s : Traced}

/-- The handler comes to an end without `BUG`, the instruction is over, and of what the BAR holds
nothing else is written than the operand. -/
def Exact (i : Move) (rest : List (BitVec 8)) (ctx : SmptraceCtx) (map : SmptraceMap)
    (regs : PtRegs) (segs : Segments) (s : Traced) : Prop :=
  ∃ s', emulateBytes (i.encode ++ rest) segs ctx map regs s =
      some (.ok (), { regs with ip := regs.ip + BitVec.ofNat 64 i.encode.length }, s') ∧
    window ctx map s'.shadow = (if ctx.stopWrites then window ctx map s.shadow
      else i.execute (machine regs segs) (window ctx map s.shadow)) ∧
    ∀ q < map.pa.toNat - ctx.pa.toNat, s'.shadow q = s.shadow q

/-- Where the decoder finds the operand of a move: it leaves out the base of `fs` and `gs`. -/
def offsetTaken (i : Move) (ctx : SmptraceCtx) (map : SmptraceMap) (regs : PtRegs)
    (segs : Segments) : BitVec 64 :=
  barOffset ctx map (i.effective (machine regs segs))

/-- What a store leaves of the BAR, at the address that it has. -/
def storedBar (i : Move) (ctx : SmptraceCtx) (map : SmptraceMap) (regs : PtRegs) (segs : Segments)
    (shadow : Memory) : Memory :=
  store shadow (barOffset ctx map (i.address (machine regs segs))).toNat
    (bytes (i.source (machine regs segs)) i.width.size)

/-- The address without the base of its segment is in the BAR, too, and what is stored there makes
the bytes of the BAR what the store itself would make them. -/
def Hidden (i : Move) (ctx : SmptraceCtx) (map : SmptraceMap) (regs : PtRegs) (segs : Segments)
    (s : Traced) : Prop :=
  ¬ OutOfBar ctx (offsetTaken i ctx map regs segs) i.width.size ∧ (ctx.stopWrites = true ∨
    store s.shadow (offsetTaken i ctx map regs segs).toNat (written i regs) =
      storedBar i ctx map regs segs s.shadow)

/-- The overrides do not lead back to one another, an immediate does not have eight bytes, and with
no base of a segment the second byte of a register is the first byte of the one that is taken for
it. -/
structure Handled (i : Move) (ctx : SmptraceCtx) (map : SmptraceMap) (regs : PtRegs)
    (segs : Segments) (s : Traced) : Prop where
  overrides : ¬ LoopsBack (keptPrefixes i.prefixes)
  immediate : i.op = .immediate → i.operand ≠ .qword
  flat : i.segmentBase (machine regs segs) = 0 → ctx.stopWrites = true ∨ SameByte i regs
  based : i.segmentBase (machine regs segs) ≠ 0 → Hidden i ctx map regs segs s

/-- Where the kernel maps a BAR: far from both ends of what can be addressed. -/
structure Apart (ctx : SmptraceCtx) (map : SmptraceMap) : Prop where
  below : map.va.toNat + ctx.len.toNat < 2 ^ 64
  above : ctx.len.toNat ≤ map.va.toNat

theorem Apart.outOfBar {addr : BitVec 64} {size : ℕ} (h : Apart ctx map)
    (hin : Inside ctx map addr size) (hsize : size ∈ sizes) :
    OutOfBar ctx (barOffset ctx map (-1)) size := by
  have hpa := hin.pa_le
  have hva := hin.va_le
  have hfits := hin.fits
  have hbelow := h.below
  have habove := h.above
  have hpos := pos_of_mem_sizes hsize
  have htop : (-1 : BitVec 64).toNat = 2 ^ 64 - 1 := by decide
  refine .inl ?_
  rw [ge_iff_le, BitVec.le_def, toNat_barOffset hpa (by omega) (by omega), htop]
  omega

theorem store_inj {mem : Memory} {q : ℕ} {bs bs' : List (BitVec 8)}
    (hlength : bs.length = bs'.length) (h : store mem q bs = store mem q bs') : bs = bs' := by
  refine List.ext_getElem hlength fun k hk hk' ↦ ?_
  have hstore : store mem q bs (q + k) = bs[k] := store_inside hk
  rw [← hstore, h, store_inside hk']

/-- The window and the bytes below it are all of the BAR. -/
theorem eq_of_window {mem mem' : Memory} (hwindow : window ctx map mem = window ctx map mem')
    (hlow : ∀ q < map.pa.toNat - ctx.pa.toNat, mem q = mem' q) : mem = mem' := by
  funext q
  rcases Nat.lt_or_ge q (map.pa.toNat - ctx.pa.toNat) with hlt | hge
  · exact hlow q hlt
  · have hq := congrFun hwindow (map.va.toNat + (q - (map.pa.toNat - ctx.pa.toNat)))
    rwa [window, window, if_pos (Nat.le_add_right _ _), if_pos (Nat.le_add_right _ _),
      Nat.add_sub_cancel_left, Nat.add_sub_cancel' hge] at hq

theorem execute_window (hstore : i.op.isStore)
    (hin : Inside ctx map (i.address (machine regs segs)) i.width.size) (shadow : Memory) :
    i.execute (machine regs segs) (window ctx map shadow) =
      window ctx map (storedBar i ctx map regs segs shadow) := by
  rw [storedBar, window_store hin, Move.execute, Move.stored, if_pos hstore]
  rfl

/-- The store is exact where the bytes that are taken leave in the BAR what is to be left there. -/
theorem exact_iff_stored (hi : i.Encodable) (hstore : i.op.isStore)
    (hd : insnDecode (i.encode ++ rest) = some insn)
    (hin : Inside ctx map (i.address (machine regs segs)) i.width.size)
    (hoverrides : ¬ LoopsBack (keptPrefixes i.prefixes))
    (himmediate : i.op = .immediate → i.operand ≠ .qword) :
    Exact i rest ctx map regs segs s ↔ Hidden i ctx map regs segs s := by
  obtain ⟨p, hp, hemulate⟩ := emulateBytes_eq hi hd segs ctx map regs s
  rw [insnGetAddrRef_eq hi hp hoverrides, Option.bind_some, emulate_eq hstore himmediate]
    at hemulate
  unfold Exact Hidden
  rw [hemulate]
  by_cases hout : OutOfBar ctx (offsetTaken i ctx map regs segs) i.width.size
  · have hnone : smptraceEmulateWrite ctx map (i.effective (machine regs segs)) i.width.size
        (written i regs) s = none := if_pos hout
    rw [hnone, Option.map_none]
    refine iff_of_false ?_ fun h ↦ h.1 hout
    rintro ⟨s', hsome, -⟩
    cases hsome
  · rw [and_iff_right hout,
      emulateWrite_eq (size_mem_sizes i.width) hout (length_written i regs) s, Option.map_some]
    constructor
    · rintro ⟨s', hsome, hwindow, hlow⟩
      cases hsome
      rw [shadow_notified, shadow_poke] at hwindow hlow
      cases hstop : ctx.stopWrites with
      | true => exact .inl rfl
      | false =>
        rw [hstop, if_neg Bool.false_ne_true, if_neg Bool.false_ne_true,
          execute_window hstore hin] at hwindow
        rw [hstop, if_neg Bool.false_ne_true] at hlow
        refine .inr (eq_of_window hwindow fun q hq ↦ (hlow q hq).trans (store_outside ?_).symm)
        rw [hin.toNat_barOffset]
        exact .inl (by omega)
    · intro h
      refine ⟨_, rfl, ?_, fun q hq ↦ ?_⟩
      · rw [shadow_notified, shadow_poke]
        cases hstop : ctx.stopWrites with
        | true => rfl
        | false =>
          have hbar := h.resolve_left (by simp [hstop])
          rw [if_neg Bool.false_ne_true, if_neg Bool.false_ne_true, execute_window hstore hin,
            ← hbar]
          rfl
      · rw [shadow_notified, shadow_poke]
        cases hstop : ctx.stopWrites with
        | true => rfl
        | false =>
          have hbar := h.resolve_left (by simp [hstop])
          refine (congrFun hbar q).trans (store_outside ?_)
          rw [hin.toNat_barOffset]
          exact .inl (by omega)

/-- Without a base of the segment only the second byte of a register makes a difference. -/
theorem hidden_iff (hstore : i.op.isStore) (himmediate : i.op = .immediate → i.operand ≠ .qword)
    (hin : Inside ctx map (i.address (machine regs segs)) i.width.size)
    (hbase : i.segmentBase (machine regs segs) = 0) :
    Hidden i ctx map regs segs s ↔ ctx.stopWrites = true ∨ SameByte i regs := by
  have haddr : i.effective (machine regs segs) = i.address (machine regs segs) := by
    rw [Move.address, hbase]
    exact (BitVec.add_zero _).symm
  have hout := hin.not_outOfBar (size_mem_sizes i.width)
  unfold Hidden offsetTaken storedBar
  rw [haddr, and_iff_right hout, ← written_eq_iff segs hstore himmediate]
  refine or_congr_right ⟨fun h ↦ store_inj ?_ h, fun h ↦ congrArg _ h⟩
  rw [length_written, length_bytes]

/-- What makes a store to a traced BAR go wrong: an override that leads to another one, a base that
is left out, its size, or where its byte is. Where the BAR is mapped matters only for an address
that is none. -/
theorem store_exact_iff (hi : i.Encodable) (hstore : i.op.isStore)
    (hd : insnDecode (i.encode ++ rest) = some insn)
    (hin : Inside ctx map (i.address (machine regs segs)) i.width.size) (s : Traced) :
    (Handled i ctx map regs segs s → Exact i rest ctx map regs segs s) ∧
      (Apart ctx map → Exact i rest ctx map regs segs s → Handled i ctx map regs segs s) := by
  constructor
  · intro h
    rw [exact_iff_stored hi hstore hd hin h.overrides h.immediate]
    by_cases hbase : i.segmentBase (machine regs segs) = 0
    · exact (hidden_iff hstore h.immediate hin hbase).mpr (h.flat hbase)
    · exact h.based hbase
  · intro hmap hexact
    obtain ⟨p, hp, hemulate⟩ := emulateBytes_eq hi hd segs ctx map regs s
    obtain ⟨s', hsome, -⟩ := id hexact
    rw [hemulate] at hsome
    obtain ⟨addr, haddr, hsome⟩ := Option.bind_eq_some_iff.mp hsome
    have himmediate : i.op = .immediate → i.operand ≠ .qword := by
      intro hop hoperand
      rw [emulate_wide hop hoperand] at hsome
      cases hsome
    have hoverrides : ¬ LoopsBack (keptPrefixes i.prefixes) := by
      intro hloops
      rcases insnGetAddrRef_error hp hloops with hnone | herror
      · cases haddr.symm.trans hnone
      · obtain rfl : addr = -1 := Option.some_inj.mp (haddr.symm.trans herror)
        have hout := hmap.outOfBar hin (size_mem_sizes i.width)
        rw [emulate_eq hstore himmediate, smptraceEmulateWrite, if_pos hout] at hsome
        cases hsome
    have hhidden := (exact_iff_stored hi hstore hd hin hoverrides himmediate).mp hexact
    exact ⟨hoverrides, himmediate, fun hbase ↦ (hidden_iff hstore himmediate hin hbase).mp hhidden,
      fun _ ↦ hhidden⟩

/-- `mov dword ptr ss:[rax + 4], imm32` -/
def dwordStore : Move := ⟨[0x36], none, .immediate, 1, 0, 0, 0, 0, 0, 4, 0x12345678⟩

def flatSegments : Segments := ⟨fun _ ↦ 0, 0, 0⟩

theorem handled_dword :
    Handled dwordStore page pageMap (pageRegs 0x5000) flatSegments (filled 0) where
  overrides := by decide
  immediate := by decide
  flat _ := .inr fun h ↦ absurd h (by decide)
  based h := absurd (by decide) h

theorem exact_dword :
    Exact dwordStore (List.replicate 8 0) page pageMap (pageRegs 0x5000) flatSegments (filled 0) ∧
      (Exact dwordStore (List.replicate 8 0) page pageMap (pageRegs 0x5000) flatSegments
          (filled 0) →
        Handled dwordStore page pageMap (pageRegs 0x5000) flatSegments (filled 0)) := by
  have hi : dwordStore.Encodable := ⟨by decide, by decide, by decide, by decide⟩
  have hd : (insnDecode (dwordStore.encode ++ List.replicate 8 0)).isSome := rfl
  have hin : Inside page pageMap (dwordStore.address (machine (pageRegs 0x5000) flatSegments))
      dwordStore.width.size := ⟨by decide, by decide, by decide⟩
  have hexact := store_exact_iff hi rfl (Option.some_get hd).symm hin (filled 0)
  exact ⟨hexact.1 handled_dword, hexact.2 ⟨by decide, by decide⟩⟩

/-- `mov qword ptr [rax], imm32` -/
def qwordStore : Move := ⟨[], some 8, .immediate, 0, 0, 0, 0, 0, 0, 0, 0x12345678⟩

/-- The size of the operand is more than four bytes. -/
theorem not_exact_qword : qwordStore.Encodable ∧
    (insnDecode (qwordStore.encode ++ List.replicate 8 0)).isSome = true ∧
    Inside page pageMap (qwordStore.address (machine (pageRegs 0x5000) flatSegments))
      qwordStore.width.size ∧
    ¬ Exact qwordStore (List.replicate 8 0) page pageMap (pageRegs 0x5000) flatSegments
      (filled 0) := by
  refine ⟨⟨by decide, by decide, by decide, by decide⟩, rfl,
    ⟨by decide, by decide, by decide⟩, ?_⟩
  rintro ⟨s', hsome, -⟩
  cases hsome

end Exactness

end Pciem.Trace.X86Store
