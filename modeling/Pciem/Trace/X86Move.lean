import Pciem.Trace.InsnDecode

namespace Pciem.Trace.X86Move

open Kernel Library.ByteMemory Library.BitField Library.Loop Library.X64 Context X86 InsnDecode

/-- The machine that the registers are of. -/
def machine (regs : PtRegs) (segs : Segments) : Machine :=
  ⟨regs.gpr, regs.ip, segs.fsBase, segs.gsBase⟩

section Registers

variable (i : Move) (p : Prefixes)

theorem rexPrefix_and (k : ℕ) (hk : k < 4) :
    (if (insnOf i p).rexPrefix &&& BitVec.twoPow 8 k ≠ 0 then 8 else 0) =
      if i.rexBit k then 8 else 0 :=
  if_congr (rexByte_and i hk) rfl rfl

theorem getRegno_reg : getRegno (insnOf i p) .reg = some (i.number i.reg Move.rexR) := by
  have hrex : (if (insnOf i p).rexPrefix &&& 4 ≠ 0 then 8 else 0) = _ :=
    rexPrefix_and i p Move.rexR (by decide)
  rw [getRegno, hrex, insnOf, reg_modrmByte, Move.number]

theorem getRegno_rm : getRegno (insnOf i p) .rm =
    if i.mod.toNat = 0 ∧ i.rm.toNat = 5 then none else some (i.number i.rm Move.rexB) := by
  have hrex : (if (insnOf i p).rexPrefix &&& 1 ≠ 0 then 8 else 0) = _ :=
    rexPrefix_and i p Move.rexB (by decide)
  rw [getRegno, hrex, insnOf, mod_modrmByte, rm_modrmByte, Move.number]

theorem getRegno_base (h : i.HasIndex) : getRegno (insnOf i p) .base =
    if i.mod.toNat = 0 ∧ i.base.toNat = 5 then none else some (i.number i.base Move.rexB) := by
  have hrex : (if (insnOf i p).rexPrefix &&& 1 ≠ 0 then 8 else 0) = _ :=
    rexPrefix_and i p Move.rexB (by decide)
  rw [getRegno, hrex, insnOf, mod_modrmByte, base_sibByte i h, Move.number]

theorem getRegno_index (h : i.HasIndex) (hmod : i.mod.toNat ≠ 3) :
    getRegno (insnOf i p) .index =
      if i.number i.index Move.rexX = 4 then none else some (i.number i.index Move.rexX) := by
  have hrex : (if (insnOf i p).rexPrefix &&& 2 ≠ 0 then 8 else 0) = _ :=
    rexPrefix_and i p Move.rexX (by decide)
  rw [getRegno, hrex, insnOf, mod_modrmByte, index_sibByte i h, ← Move.number]
  exact if_congr (and_iff_right hmod) rfl rfl

end Registers

section Address

variable {i : Move} {p : Prefixes} {regs : PtRegs} {segs : Segments}

/-- What is displaced, as the decoder has it. -/
def displaced (i : Move) (p : Prefixes) (origin : BitVec 64) : BitVec 64 :=
  if (insnOf i p).addrBytes = 4 then (origin.setWidth 32 + (insnOf i p).displacement).setWidth 64
  else origin + (insnOf i p).displacement.signExtend 64

theorem getEffAddrSib_eq (h : i.HasIndex) (hmod : i.mod.toNat ≠ 3) :
    getEffAddrSib (insnOf i p) regs = displaced i p (i.indexed (machine regs segs)) := by
  have hbase : ((getRegno (insnOf i p) .base).map regs.gpr).getD 0 =
      if i.mod.toNat = 0 ∧ i.base.toNat = 5 then 0
      else regs.gpr (i.number i.base Move.rexB) := by
    rw [getRegno_base i p h]
    split_ifs
    · rfl
    · rfl
  have hindex : ((getRegno (insnOf i p) .index).map regs.gpr).getD 0 *
        BitVec.ofNat 64 (2 ^ i.scale.toNat) =
      if i.number i.index Move.rexX = 4 then 0
      else regs.gpr (i.number i.index Move.rexX) * BitVec.ofNat 64 (2 ^ i.scale.toNat) := by
    rw [getRegno_index i p h hmod]
    split_ifs
    · exact BitVec.zero_mul
    · rfl
  have hscale : 1 <<< x86SibScale ((insnOf i p).sib.getD 0) = 2 ^ i.scale.toNat := by
    rw [Nat.one_shiftLeft]
    exact congrArg (2 ^ ·) (scale_sibByte i h)
  rw [getEffAddrSib, displaced, Move.indexed, hscale, hbase]
  simp only [← hindex, machine]
  by_cases h4 : (insnOf i p).addrBytes = 4
  · have hwidth : 32 ≤ 64 := by decide
    rw [if_pos h4, if_pos h4, BitVec.setWidth_add (w := 64) _ _ hwidth,
      BitVec.setWidth_mul (w := 64) _ _ hwidth, BitVec.setWidth_ofNat_of_le hwidth]
  · rw [if_neg h4, if_neg h4]

theorem getEffAddr_eq (hi : i.Encodable) (segs : Segments) : getEffAddr (insnOf i p) regs =
    displaced i p (i.origin (machine regs segs)) := by
  have hsib : (insnOf i p).sib.isSome ↔ i.HasIndex := by
    rw [insnOf, sibByte]
    split_ifs with h
    · exact iff_of_true rfl h
    · exact iff_of_false Bool.false_ne_true h
  rw [getEffAddr, if_congr hsib rfl rfl, Move.origin]
  by_cases h : i.HasIndex
  · rw [if_pos h, if_pos h]
    exact getEffAddrSib_eq h hi.memory
  · rw [if_neg h, if_neg h, getEffAddrModrm, getRegno_rm, displaced]
    by_cases hrip : i.mod.toNat = 0 ∧ i.rm.toNat = 5
    · rw [if_pos hrip, if_pos hrip]
      rfl
    · rw [if_neg hrip, if_neg hrip]
      rfl

theorem addrBytes_eq_four (hp : Scanned p i.prefixes) :
    (insnOf i p).addrBytes = 4 ↔ 0x67 ∈ i.prefixes := by
  have haddr : (insnOf i p).addrBytes = _ := hp.addr
  rw [haddr]
  split_ifs with h
  · exact iff_of_true rfl h
  · exact iff_of_false (by decide) h

theorem displacementSize_le (i : Move) : i.displacementSize ≤ 4 := by
  unfold Move.displacementSize
  split_ifs
  · decide
  · exact le_rfl
  · decide

theorem effective_eq (hi : i.Encodable) (hp : Scanned p i.prefixes) (regs : PtRegs)
    (segs : Segments) : (if (insnOf i p).addrBytes = 4 then
        ((getEffAddr (insnOf i p) regs).setWidth 32).setWidth 64
      else getEffAddr (insnOf i p) regs) = i.effective (machine regs segs) := by
  have hsize := displacementSize_le i
  rw [getEffAddr_eq hi segs, Move.effective, displaced]
  by_cases h4 : (insnOf i p).addrBytes = 4
  · have hwidth : 32 ≤ 64 := by decide
    rw [if_pos h4, if_pos h4, if_pos ((addrBytes_eq_four hp).mp h4),
      BitVec.setWidth_setWidth_of_le _ hwidth, BitVec.setWidth_eq,
      BitVec.setWidth_add (w := 64) _ _ hwidth, setWidth_signExtend _ hwidth]
    rfl
  · rw [if_neg h4, if_neg h4, if_neg fun h ↦ h4 ((addrBytes_eq_four hp).mpr h)]
    exact congrArg (_ + ·) (signExtend_signExtend _ (by omega) (by decide))

theorem getSegBaseLimit_eq (insn : Insn) (segs : Segments) : getSegBaseLimit insn segs =
    (run (overrideStep insn.prefixes) 6 ⟨0, 0⟩).map fun n ↦
      if n > 1 then .error .einval else .ok 0 := by
  have hbase : insnGetSegBase segs .ignore = 0 := by simp [insnGetSegBase, getSegmentSelector]
  have hlimit : getSegLimit segs .ignore = -1 := by simp [getSegLimit, getSegmentSelector]
  unfold getSegBaseLimit resolveSegReg getSegRegOverrideIdx
  rw [Option.map_map, Option.map_map]
  refine Option.map_congr fun n _ ↦ ?_
  simp only [Function.comp_apply]
  split_ifs
  · rfl
  · simp [Except.map, Except.bind, resolveDefaultSeg, hbase, hlimit]

theorem overrides_of (hp : Scanned p i.prefixes) :
    (insnOf i p).prefixes = keptPrefixes i.prefixes ∧ (keptPrefixes i.prefixes).length = 4 := by
  have hfield := hp.field_eq
  exact ⟨hfield, hfield ▸ length_field hp.length⟩

/-- The address is that of the operand in a segment that begins at zero. -/
theorem insnGetAddrRef_eq (hi : i.Encodable) (hp : Scanned p i.prefixes)
    (h : ¬ LoopsBack (keptPrefixes i.prefixes)) :
    insnGetAddrRef (insnOf i p) regs segs = some (i.effective (machine regs segs)) := by
  obtain ⟨hkept, h4⟩ := overrides_of hp
  obtain ⟨n, hn, hrun⟩ := overrides_settled h4 h
  rw [insnGetAddrRef, getSegBaseLimit_eq, hkept, hrun, Option.map_some, Option.map_some,
    if_neg (by omega), ← effective_eq hi hp regs segs]
  by_cases haddr : (insnOf i p).addrBytes = 4
  · simp only [if_pos haddr]
    exact congrArg some (BitVec.add_zero _)
  · simp only [if_neg haddr]
    exact congrArg some (BitVec.add_zero _)

theorem insnGetAddrRef_error (hp : Scanned p i.prefixes)
    (h : LoopsBack (keptPrefixes i.prefixes)) :
    insnGetAddrRef (insnOf i p) regs segs = none ∨
      insnGetAddrRef (insnOf i p) regs segs = some (-1) := by
  obtain ⟨hkept, h4⟩ := overrides_of hp
  rw [insnGetAddrRef, getSegBaseLimit_eq, hkept]
  rcases overrides_stuck h4 h with hrun | ⟨hrun, -⟩
  · rw [hrun]
    exact .inr rfl
  · rw [hrun]
    exact .inl rfl

end Address

section Emulation

variable {i : Move} {rest : List (BitVec 8)} {insn : Insn}

def mmioOf : MoveOp → InsnMmioType
  | .registerByte | .register => .write
  | .immediateByte | .immediate => .writeImm
  | .loadByte | .load => .read
  | .zeroExtendByte | .zeroExtendWord => .readZeroExtend
  | .signExtendByte | .signExtendWord => .readSignExtend

/-- What the handler gets of a move. -/
def decodedOf (i : Move) (addr : BitVec 64) : DecodedInsn where
  mmio := mmioOf i.op
  len := i.width.size
  opndBytes := i.operand.size
  immediate1 := (i.immediate.setWidth (8 * i.immediateSize)).signExtend 32
  data := some (i.number i.reg Move.rexR)
  addr := addr
  length := i.encode.length

theorem insnDecodeMmio_eq (i : Move) (p : Prefixes) :
    insnDecodeMmio (insnOf i p) = (mmioOf i.op, i.width.size) := by
  have hsize := opndSize_eq i
  unfold insnDecodeMmio insnOf Move.width
  cases hop : i.op with
  | registerByte | immediateByte | loadByte | zeroExtendByte | zeroExtendWord | signExtendByte
  | signExtendWord => rfl
  | register | immediate | load =>
    simp only [MoveOp.opcode, MoveOp.width, hsize]
    rfl

theorem decodedInsn_eq (i : Move) (p : Prefixes) (addr : BitVec 64) :
    decodedInsn (insnOf i p) addr = decodedOf i addr := by
  have hsize : (insnOf i p).opndBytes = i.operand.size := opndSize_eq i
  rw [decodedInsn, insnDecodeMmio_eq, getRegno_reg, hsize]
  rfl

theorem emulateBytes_eq (hi : i.Encodable) (hd : insnDecode (i.encode ++ rest) = some insn)
    (segs : Segments) (ctx : SmptraceCtx) (map : SmptraceMap) (regs : PtRegs) (s : Traced) :
    ∃ p, Scanned p i.prefixes ∧
      emulateBytes (i.encode ++ rest) segs ctx map regs s =
        (insnGetAddrRef (insnOf i p) regs segs).bind fun addr ↦
          emulatePfInstruction false (.ok (decodedOf i addr)) ctx map regs s := by
  obtain ⟨p, hp, rfl⟩ := insnDecode_eq i hi hd
  refine ⟨p, hp, ?_⟩
  unfold emulateBytes
  simp only [hd, decodedInsn_eq]
  rfl

/-- What is relied on of the decoder for a load. -/
theorem reports_decodedOf {l : Load} (h : i.op.asLoad i.operand = some l) (addr : BitVec 64) :
    l.Encodable ∧ l.memory = i.width ∧ Reports (decodedOf i addr) l := by
  have hbyte := Move.operand_ne_byte i
  unfold decodedOf Move.width
  cases hop : i.op with
  | registerByte | register | immediateByte | immediate =>
    rw [hop] at h
    cases h
  | loadByte | load =>
    rw [hop] at h
    cases h
    exact ⟨trivial, rfl, rfl, rfl⟩
  | zeroExtendByte | signExtendByte =>
    rw [hop] at h
    cases h
    exact ⟨⟨.inl rfl, hbyte⟩, rfl, rfl, rfl, rfl⟩
  | zeroExtendWord | signExtendWord =>
    rw [hop] at h
    cases h
    exact ⟨⟨.inr rfl, hbyte⟩, rfl, rfl, rfl, rfl⟩

end Emulation

end Pciem.Trace.X86Move
