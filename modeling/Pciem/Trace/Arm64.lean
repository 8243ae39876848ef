import Pciem.Kernel.Errno
import Pciem.Library.A64
import Pciem.Library.BitField
import Pciem.Trace.Context

namespace Pciem.Trace.Arm64

open Kernel Library Library.ByteMemory Library.BitField Context

/-- The members of `struct pt_regs` that an access works on; `regs` has `x0` to `x30`. -/
structure PtRegs where
  regs : ℕ → BitVec 64
  sp : BitVec 64
  pc : BitVec 64

structure Arm64LsInsn where
  rt : ℕ
  rn : ℕ
  size : ℕ
  isStore : Bool
  signExtend : Bool
  sf : Bool
  postIndex : Bool
  preIndex : Bool
  wbDelta : BitVec 64
deriving DecidableEq

/-- `post_index`, `pre_index` and `wb_delta`, where the word has one of the forms that are known. -/
def decodeForm (insn : BitVec 32) : Option (Bool × Bool × BitVec 64) :=
  let group := ((insn >>> 24) &&& 0x3F).toNat
  if group = 0x39 then
    some (false, false, 0)
  else if group = 0x38 ∧ ((insn >>> 21) &&& 1).toNat = 0 then
    let idx := ((insn >>> 10) &&& 3).toNat
    if idx = 0 then
      some (false, false, 0)
    else if idx = 1 ∨ idx = 3 then
      let imm9 := (insn >>> 12) &&& 0x1FF
      let imm9 := (imm9 <<< 23).sshiftRight 23
      some (decide (idx = 1), decide (idx = 3), imm9.signExtend 64)
    else
      none
  else
    none

/-- `is_store`, `sign_extend` and `sf`. -/
def decodeOp (sizeField opc : ℕ) : Option (Bool × Bool × Bool) :=
  match sizeField <<< 2 ||| opc with
  | 0x00 => some (true, false, true)
  | 0x01 => some (false, false, true)
  | 0x02 => some (false, true, true)
  | 0x03 => some (false, true, false)
  | 0x04 => some (true, false, true)
  | 0x05 => some (false, false, true)
  | 0x06 => some (false, true, true)
  | 0x07 => some (false, true, false)
  | 0x08 => some (true, false, true)
  | 0x09 => some (false, false, false)
  | 0x0A => some (false, true, true)
  | 0x0C => some (true, false, true)
  | 0x0D => some (false, false, true)
  | _ => none

def arm64DecodeLsInsn (insn : BitVec 32) : Option Arm64LsInsn :=
  let isFp := ((insn >>> 26) &&& 1).toNat ≠ 0
  let sizeField := ((insn >>> 30) &&& 3).toNat
  let opc := ((insn >>> 22) &&& 3).toNat
  let rn := ((insn >>> 5) &&& 0x1F).toNat
  let rt := (insn &&& 0x1F).toNat
  if isFp then
    none
  else do
    let (postIndex, preIndex, wbDelta) ← decodeForm insn
    let (isStore, signExtend, sf) ← decodeOp sizeField opc
    some ⟨rt, rn, 1 <<< sizeField, isStore, signExtend, sf, postIndex, preIndex, wbDelta⟩

/-- What the handler takes from the syndrome or from the word. -/
structure Access where
  srt : ℕ
  size : ℕ
  isStore : Bool
  sse : Bool
  sf : Bool

def esrElxIsv : BitVec 64 := 1 <<< 24

def esrElxSas : BitVec 64 := 3 <<< 22

def esrElxSse : BitVec 64 := 1 <<< 21

def esrElxSrtMask : BitVec 64 := 0x1F <<< 16

def esrElxSf : BitVec 64 := 1 <<< 15

def esrElxWnr : BitVec 64 := 1 <<< 6

def syndromeAccess (esr : BitVec 64) : Access where
  srt := ((esr &&& esrElxSrtMask) >>> 16).toNat
  size := 1 <<< ((esr &&& esrElxSas) >>> 22).toNat
  isStore := decide (esr &&& esrElxWnr ≠ 0)
  sse := decide (esr &&& esrElxSse ≠ 0)
  sf := decide (esr &&& esrElxSf ≠ 0)

def Arm64LsInsn.access (ls : Arm64LsInsn) : Access :=
  ⟨ls.rt, ls.size, ls.isStore, ls.signExtend, ls.sf⟩

def PtRegs.set (regs : PtRegs) (n : ℕ) (val : BitVec 64) : PtRegs :=
  { regs with regs := Function.update regs.regs n val }

/-- The base register as the handler leaves it. -/
def Arm64LsInsn.writeBack (ls : Arm64LsInsn) (regs : PtRegs) : PtRegs :=
  if (ls.preIndex ∨ ls.postIndex) ∧ ls.rn ≠ 31 then
    regs.set ls.rn (regs.regs ls.rn + ls.wbDelta)
  else
    regs

/-- What a load leaves in the registers. -/
def Access.loaded (a : Access) (regs : PtRegs) (val : BitVec 64) : PtRegs :=
  if a.srt ≠ 31 then
    if a.sse then
      let sval := (val <<< (64 - a.size * 8)).sshiftRight (64 - a.size * 8)
      regs.set a.srt (if a.sf then sval else (sval.setWidth 32).setWidth 64)
    else
      regs.set a.srt (if a.sf then val else (val.setWidth 32).setWidth 64)
  else
    regs

def emulateAccess (ctx : SmptraceCtx) (map : SmptraceMap) (addr : BitVec 64) (a : Access)
    (regs : PtRegs) (s : Traced) : Option (PtRegs × Traced) :=
  if a.isStore then do
    let val := if a.srt = 31 then 0 else regs.regs a.srt
    let s ← smptraceEmulateWrite ctx map addr a.size (bytes val a.size) s
    some (regs, s)
  else do
    let dst ← smptraceEmulateRead ctx map addr a.size s
    let val : BitVec 64 := compose (dst.1.map (BitVec.setWidth 64))
    some (a.loaded regs val, dst.2)

/-- The access, and the step to the next instruction. -/
def finishFault (ctx : SmptraceCtx) (map : SmptraceMap) (addr : BitVec 64) (a : Access)
    (regs : PtRegs) (s : Traced) : Option (Except Errno Unit × PtRegs × Traced) := do
  let after ← emulateAccess ctx map addr a regs s
  some (.ok (), { after.1 with pc := after.1.pc + 4 }, after.2)

/-- `fetch` is `copy_from_kernel_nofault`. There is no result where the kernel runs into `BUG`. -/
def emulateArm64Fault (userMode : Bool) (fetch : BitVec 64 → Option (BitVec 32))
    (ctx : SmptraceCtx) (map : SmptraceMap) (faultVa esr : BitVec 64) (regs : PtRegs)
    (s : Traced) : Option (Except Errno Unit × PtRegs × Traced) :=
  if userMode then
    some (.error .eacces, regs, s)
  else if esr &&& esrElxIsv ≠ 0 then
    finishFault ctx map faultVa (syndromeAccess esr) regs s
  else
    match fetch regs.pc with
    | none => some (.error .efault, regs, s)
    | some insn =>
      match arm64DecodeLsInsn insn with
      | none => some (.error .einval, regs, s)
      | some ls => finishFault ctx map faultVa ls.access (ls.writeBack regs) s

section Decode

open A64

/-- The form of an instruction. -/
def form : Mode → Bool × Bool × BitVec 64
  | .unsigned _ | .unscaled _ => (false, false, 0)
  | .post imm => (true, false, imm.signExtend 64)
  | .pre imm => (false, true, imm.signExtend 64)

/-- The operation as the decoder has it: what is loaded without a sign has 64 bits, except for a
word. -/
def operation (op : Op) : Bool × Bool × Bool :=
  (op.isStore, op.signed, op != .ldrsbW && op != .ldrshW && op != .ldrW)

/-- What the decoder makes of an instruction. -/
def decoded (i : Instruction) : Arm64LsInsn where
  rt := i.rt.toNat
  rn := i.rn.toNat
  size := i.op.width
  isStore := (operation i.op).1
  signExtend := (operation i.op).2.1
  sf := (operation i.op).2.2
  postIndex := (form i.mode).1
  preIndex := (form i.mode).2.1
  wbDelta := (form i.mode).2.2

theorem fields (i : Instruction) : i.encode.extractLsb' 26 1 = 0 ∧
    i.encode.extractLsb' 30 2 = i.op.size ∧ i.encode.extractLsb' 22 2 = i.op.opc ∧
      i.encode.extractLsb' 5 5 = i.rn ∧ i.encode.extractLsb' 0 5 = i.rt := by
  unfold Instruction.encode
  cases i.mode with
  | unsigned imm | unscaled imm | post imm | pre imm =>
    simp (disch := decide) only [extractLsb'_append_low, extractLsb'_append_high]
    simp

theorem signExtend_imm9 (w : BitVec 32) :
    ((((w >>> 12) &&& 0x1FF) <<< 23).sshiftRight 23).signExtend 64 =
      (w.extractLsb' 12 9).signExtend 64 := by
  have hfield : (w >>> 12) &&& 0x1FF = (w.extractLsb' 12 9).setWidth 32 := by
    apply BitVec.eq_of_toNat_eq
    rw [toNat_field w 12 9 rfl, BitVec.toNat_setWidth_of_le (by decide)]
  have hshift := sshiftRight_shiftLeft (v := 32) (w.extractLsb' 12 9) (by decide) (by decide)
  rw [hfield, hshift, signExtend_signExtend _ (by decide) (by decide)]

theorem decodeForm_encode (i : Instruction) : decodeForm i.encode = some (form i.mode) := by
  unfold decodeForm
  dsimp only
  rw [toNat_field i.encode 24 6 rfl, toNat_field i.encode 21 1 rfl, toNat_field i.encode 10 2 rfl,
    signExtend_imm9]
  unfold Instruction.encode
  cases i.mode with
  | unsigned imm | unscaled imm | post imm | pre imm =>
    simp (disch := decide) only [extractLsb'_append_low, extractLsb'_append_high]
    simp [form]

theorem decodeOp_encode (op : Op) :
    decodeOp op.size.toNat op.opc.toNat = some (operation op) := by
  cases op with
  | strb | ldrb | ldrsb | ldrsbW | strh | ldrh | ldrsh | ldrshW | strW | ldrW | ldrsw | str
  | ldr => rfl

theorem width_eq (op : Op) : 1 <<< op.size.toNat = op.width := by
  cases op with
  | strb | ldrb | ldrsb | ldrsbW | strh | ldrh | ldrsh | ldrshW | strW | ldrW | ldrsw | str
  | ldr => rfl

theorem decode_encode (i : Instruction) : arm64DecodeLsInsn i.encode = some (decoded i) := by
  obtain ⟨hfp, hsize, hopc, hrn, hrt⟩ := fields i
  unfold arm64DecodeLsInsn
  dsimp only
  rw [toNat_field i.encode 26 1 rfl, toNat_field i.encode 30 2 rfl, toNat_field i.encode 22 2 rfl,
    toNat_field i.encode 5 5 rfl, toNat_mask i.encode 5 rfl, hfp, hsize, hopc, hrn, hrt,
    decodeForm_encode, decodeOp_encode, width_eq]
  rfl

theorem exists_op : ∀ size opc : BitVec 2, (decodeOp size.toNat opc.toNat).isSome →
    ∃ op ∈ Op.all, op.size = size ∧ op.opc = opc := by
  decide

theorem form_of_decode {w : BitVec 32} (h : (decodeForm w).isSome) :
    w.extractLsb' 24 6 = 0b111001 ∨ w.extractLsb' 24 6 = 0b111000 ∧ w.extractLsb' 21 1 = 0 ∧
      (w.extractLsb' 10 2 = 0b00 ∨ w.extractLsb' 10 2 = 0b01 ∨ w.extractLsb' 10 2 = 0b11) := by
  unfold decodeForm at h
  dsimp only at h
  rw [toNat_field w 24 6 rfl, toNat_field w 21 1 rfl, toNat_field w 10 2 rfl] at h
  generalize w.extractLsb' 24 6 = group at h ⊢
  generalize w.extractLsb' 21 1 = bit at h ⊢
  generalize w.extractLsb' 10 2 = idx at h ⊢
  split_ifs at h with hunsigned hother hunscaled hindexed
  · exact .inl (BitVec.eq_of_toNat_eq hunsigned)
  · exact .inr ⟨BitVec.eq_of_toNat_eq hother.1, BitVec.eq_of_toNat_eq hother.2,
      .inl (BitVec.eq_of_toNat_eq hunscaled)⟩
  · refine .inr ⟨BitVec.eq_of_toNat_eq hother.1, BitVec.eq_of_toNat_eq hother.2, .inr ?_⟩
    rcases hindexed with hpost | hpre
    · exact .inl (BitVec.eq_of_toNat_eq hpost)
    · exact .inr (BitVec.eq_of_toNat_eq hpre)
  · simp at h
  · simp at h

theorem word_eq_fields (w : BitVec 32) : w = w.extractLsb' 30 2 ++ w.extractLsb' 24 6 ++
    w.extractLsb' 22 2 ++ w.extractLsb' 10 12 ++ w.extractLsb' 5 5 ++ w.extractLsb' 0 5 := by
  rw [extractLsb'_append_extractLsb' w 24 2 6, extractLsb'_append_extractLsb' w 22 8 2,
    extractLsb'_append_extractLsb' w 10 10 12, extractLsb'_append_extractLsb' w 5 22 5,
    extractLsb'_append_extractLsb' w 0 27 5, BitVec.extractLsb'_eq_self]

theorem word_eq_fields' (w : BitVec 32) : w = w.extractLsb' 30 2 ++ w.extractLsb' 24 6 ++
    w.extractLsb' 22 2 ++ w.extractLsb' 21 1 ++ w.extractLsb' 12 9 ++ w.extractLsb' 10 2 ++
      w.extractLsb' 5 5 ++ w.extractLsb' 0 5 := by
  rw [extractLsb'_append_extractLsb' w 24 2 6, extractLsb'_append_extractLsb' w 22 8 2,
    extractLsb'_append_extractLsb' w 21 10 1, extractLsb'_append_extractLsb' w 12 11 9,
    extractLsb'_append_extractLsb' w 10 20 2, extractLsb'_append_extractLsb' w 5 22 5,
    extractLsb'_append_extractLsb' w 0 27 5, BitVec.extractLsb'_eq_self]

theorem parts_of_decode {w : BitVec 32} (h : (arm64DecodeLsInsn w).isSome) :
    (decodeForm w).isSome ∧
      (decodeOp (w.extractLsb' 30 2).toNat (w.extractLsb' 22 2).toNat).isSome := by
  unfold arm64DecodeLsInsn at h
  dsimp only at h
  rw [toNat_field w 30 2 rfl, toNat_field w 22 2 rfl] at h
  split_ifs at h
  · simp at h
  · cases hform : decodeForm w with
    | none => simp [hform] at h
    | some f =>
      cases hop : decodeOp (w.extractLsb' 30 2).toNat (w.extractLsb' 22 2).toNat with
      | none =>
        rw [hform, hop] at h
        cases h
      | some o => exact ⟨rfl, rfl⟩

theorem decode_isSome_iff (w : BitVec 32) :
    (arm64DecodeLsInsn w).isSome ↔ ∃ i : Instruction, i.encode = w := by
  constructor
  · intro h
    obtain ⟨hform, hop⟩ := parts_of_decode h
    obtain ⟨op, -, hsize, hopc⟩ := exists_op _ _ hop
    have hw := word_eq_fields w
    have hw' := word_eq_fields' w
    rcases form_of_decode hform with hgroup | ⟨hgroup, hbit, hidx | hidx | hidx⟩
    · rw [← hsize, ← hopc, hgroup] at hw
      exact ⟨⟨op, .unsigned (w.extractLsb' 10 12), w.extractLsb' 5 5, w.extractLsb' 0 5⟩, hw.symm⟩
    · rw [← hsize, ← hopc, hgroup, hbit, hidx] at hw'
      exact ⟨⟨op, .unscaled (w.extractLsb' 12 9), w.extractLsb' 5 5, w.extractLsb' 0 5⟩, hw'.symm⟩
    · rw [← hsize, ← hopc, hgroup, hbit, hidx] at hw'
      exact ⟨⟨op, .post (w.extractLsb' 12 9), w.extractLsb' 5 5, w.extractLsb' 0 5⟩, hw'.symm⟩
    · rw [← hsize, ← hopc, hgroup, hbit, hidx] at hw'
      exact ⟨⟨op, .pre (w.extractLsb' 12 9), w.extractLsb' 5 5, w.extractLsb' 0 5⟩, hw'.symm⟩
  · rintro ⟨i, rfl⟩
    simp [decode_encode]

end Decode

section Emulate

open A64

variable {ctx : SmptraceCtx} {map : SmptraceMap} {addr : BitVec 64} {regs : PtRegs} {a : Access}

theorem width_mem_sizes (op : Op) : op.width ∈ sizes := by
  cases op with
  | strb | ldrb | ldrsb | ldrsbW | strh | ldrh | ldrsh | ldrshW | strW | ldrW | ldrsw | str
  | ldr => decide

/-- The register is set, except for register 31. -/
def PtRegs.put (regs : PtRegs) (r : BitVec 5) (value : BitVec 64) : PtRegs :=
  if r = 31 then regs else regs.set r.toNat value

/-- What the handler knows is enough to carry out the operation: the size of the register matters
where the value is extended to more than its own size. -/
structure Describes (a : Access) (op : Op) (rt : BitVec 5) : Prop where
  srt : a.srt = rt.toNat
  size : a.size = op.width
  isStore : a.isStore = op.isStore
  sse : op.isStore = false → a.sse = op.signed
  sf : op.isStore = false → a.sf = op.wide ∨ op.signed = false ∧ 8 * op.width ≤ 32

theorem toNat_eq_31_iff {r : BitVec 5} : r.toNat = 31 ↔ r = 31 :=
  ⟨fun h ↦ BitVec.eq_of_toNat_eq h, fun h ↦ by rw [h]; rfl⟩

theorem loaded_eq {op : Op} {rt : BitVec 5} (h : Describes a op rt) (hload : op.isStore = false)
    (regs : PtRegs) (value : BitVec (8 * op.width)) :
    a.loaded regs (value.setWidth 64) = regs.put rt (op.extend value) := by
  have hpos := pos_of_mem_sizes (width_mem_sizes op)
  have hle := le_of_mem_sizes (width_mem_sizes op)
  have hsign := sshiftRight_shiftLeft (v := 64) value (by omega) (by omega)
  rw [show 64 - 8 * op.width = 64 - op.width * 8 by omega] at hsign
  unfold Access.loaded PtRegs.put
  rw [h.srt, h.size, h.sse hload]
  by_cases hrt : rt = 31
  · simp [hrt]
  · have hrt' : rt.toNat ≠ 31 := toNat_eq_31_iff.not.mpr hrt
    simp only [ne_eq, hrt', hrt, not_false_eq_true, if_true, if_false]
    unfold Op.extend
    cases hsigned : op.signed with
    | true =>
      simp only [if_true, hsign]
      rcases h.sf hload with hsf | ⟨hno, -⟩
      · rw [hsf]
        cases op.wide with
        | true => rfl
        | false => simp [setWidth_signExtend]
      · simp [hsigned] at hno
    | false =>
      simp only [Bool.false_eq_true, if_false]
      have hnarrow (h32 : 8 * op.width ≤ 32) :
          (value.setWidth 32).setWidth 64 = value.setWidth 64 :=
        BitVec.setWidth_setWidth (by omega)
      have hsame : (value.setWidth 64).setWidth 32 = value.setWidth 32 :=
        BitVec.setWidth_setWidth_of_le value (by decide)
      rcases h.sf hload with hsf | ⟨-, h32⟩
      · rw [hsf]
        cases op.wide with
        | true => rfl
        | false => simp [hsame]
      · cases op.wide with
        | true | false =>
          cases a.sf with
          | true | false => simp [hsame, hnarrow h32]

theorem emulateAccess_eq {op : Op} {rt : BitVec 5} (h : Describes a op rt) (s : Traced) :
    emulateAccess ctx map addr a regs s =
      if op.isStore then
        (smptraceEmulateWrite ctx map addr op.width
          (bytes (if rt = 31 then 0 else regs.regs rt.toNat) op.width) s).map fun s' ↦ (regs, s')
      else
        (smptraceEmulateRead ctx map addr op.width s).map fun dst ↦
          (regs.put rt (op.extend
            (load s.shadow (barOffset ctx map addr).toNat op.width : BitVec (8 * op.width))),
            dst.2) := by
  unfold emulateAccess
  rw [h.isStore, h.size, h.srt]
  cases hstore : op.isStore with
  | true =>
    simp only [if_true, toNat_eq_31_iff]
    rw [Option.map_eq_bind]
    rfl
  | false =>
    simp only [Bool.false_eq_true, if_false]
    by_cases hout : OutOfBar ctx (barOffset ctx map addr) op.width
    · simp [smptraceEmulateRead, hout]
    · obtain ⟨stack, hread⟩ := emulateRead_eq (width_mem_sizes op) hout s
      have hle := le_of_mem_sizes (width_mem_sizes op)
      have hvalue : (load s.shadow (barOffset ctx map addr).toNat op.width : BitVec 64) =
          (load s.shadow (barOffset ctx map addr).toNat op.width :
            BitVec (8 * op.width)).setWidth 64 :=
        (setWidth_load (v := 64) s.shadow _ op.width (by omega)).symm
      simp only [hread, Option.bind_eq_bind, Option.bind_some, Option.map_some, compose_peek]
      rw [hvalue, loaded_eq h hstore]

theorem describes_decoded (i : Instruction) : Describes (decoded i).access i.op i.rt := by
  refine ⟨rfl, rfl, rfl, fun _ ↦ rfl, fun hload ↦ ?_⟩
  have hsf : (decoded i).access.sf = (operation i.op).2.2 := rfl
  rw [hsf]
  cases hop : i.op with
  | strb | strh | strW | str =>
    rw [hop] at hload
    cases hload
  | ldrb | ldrh => exact .inr ⟨rfl, by decide⟩
  | ldrsb | ldrsbW | ldrsh | ldrshW | ldrW | ldrsw | ldr => exact .inl rfl

theorem describes_syndrome {i : Instruction} {esr : BitVec 64} (h : i.Syndrome esr) :
    Describes (syndromeAccess esr) i.op i.rt := by
  refine ⟨?_, ?_, ?_, fun _ ↦ ?_, fun _ ↦ .inl ?_⟩
  · exact (toNat_masked esr 16 5 rfl rfl).trans (congrArg BitVec.toNat h.srt)
  · have hsas : ((esr &&& esrElxSas) >>> 22).toNat = i.op.size.toNat :=
      (toNat_masked esr 22 2 rfl rfl).trans (congrArg BitVec.toNat h.sas)
    exact (congrArg (1 <<< ·) hsas).trans (width_eq i.op)
  · exact test_bit esr 6 rfl (by decide) h.wnr
  · exact test_bit esr 21 rfl (by decide) h.sse
  · exact test_bit esr 15 rfl (by decide) h.sf

/-- The machine that the interrupted code runs on, with the BAR as its memory. -/
def machine (ctx : SmptraceCtx) (map : SmptraceMap) (regs : PtRegs) (s : Traced) : A64.State where
  x r := if r = 31 then 0 else regs.regs r.toNat
  sp := regs.sp
  mem := window ctx map s.shadow
  pc := regs.pc

/-- The instruction, except that stopped writes leave the BAR as it is. -/
def executeTraced (ctx : SmptraceCtx) (i : Instruction) (m : A64.State) : A64.State :=
  { i.execute m with mem := if ctx.stopWrites then m.mem else (i.execute m).mem }

theorem pc_put (regs : PtRegs) (r : BitVec 5) (value : BitVec 64) :
    (regs.put r value).pc = regs.pc := by
  unfold PtRegs.put
  split_ifs
  · rfl
  · rfl

theorem finishFault_eq {op : Op} {rt : BitVec 5} (h : Describes a op rt) (s : Traced) :
    finishFault ctx map addr a regs s =
      if op.isStore then
        (smptraceEmulateWrite ctx map addr op.width
          (bytes (if rt = 31 then 0 else regs.regs rt.toNat) op.width) s).map fun s' ↦
            (.ok (), { regs with pc := regs.pc + 4 }, s')
      else
        (smptraceEmulateRead ctx map addr op.width s).map fun dst ↦
          (.ok (), { regs.put rt (op.extend
            (load s.shadow (barOffset ctx map addr).toNat op.width : BitVec (8 * op.width))) with
              pc := regs.pc + 4 }, dst.2) := by
  unfold finishFault
  rw [emulateAccess_eq h]
  cases op.isStore with
  | true =>
    simp only [if_true]
    generalize smptraceEmulateWrite ctx map addr op.width _ s = outcome
    cases outcome with
    | none | some s' => rfl
  | false =>
    simp only [Bool.false_eq_true, if_false]
    generalize smptraceEmulateRead ctx map addr op.width s = outcome
    cases outcome with
    | none => rfl
    | some dst =>
      simp only [Option.map_some, Option.bind_eq_bind, Option.bind_some, pc_put]

theorem finishFault_congr {a' : Access} {op : Op} {rt : BitVec 5} (h : Describes a op rt)
    (h' : Describes a' op rt) (s : Traced) :
    finishFault ctx map addr a regs s = finishFault ctx map addr a' regs s := by
  rw [finishFault_eq h, finishFault_eq h']

theorem not_isv {esr : BitVec 64} (h : esr.extractLsb' 24 1 = 0) : ¬ esr &&& esrElxIsv ≠ 0 :=
  of_decide_eq_false (test_bit esr 24 (b := false) rfl (by decide) h)

theorem emulate_isv {i : Instruction} {esr : BitVec 64} (h : i.Syndrome esr)
    (fetch : BitVec 64 → Option (BitVec 32)) (s : Traced) :
    emulateArm64Fault false fetch ctx map addr esr regs s =
      finishFault ctx map addr (syndromeAccess esr) regs s := by
  have hisv : esr &&& esrElxIsv ≠ 0 :=
    of_decide_eq_true (test_bit esr 24 (b := true) rfl (by decide) h.isv)
  rw [emulateArm64Fault, if_neg Bool.false_ne_true, if_pos hisv]

theorem emulate_decoded {i : Instruction} {esr : BitVec 64} (h : esr.extractLsb' 24 1 = 0)
    {fetch : BitVec 64 → Option (BitVec 32)} (hfetch : fetch regs.pc = some i.encode)
    (s : Traced) : emulateArm64Fault false fetch ctx map addr esr regs s =
      finishFault ctx map addr (decoded i).access ((decoded i).writeBack regs) s := by
  rw [emulateArm64Fault, if_neg Bool.false_ne_true, if_neg (not_isv h), hfetch]
  simp only [decode_encode]

theorem writeBack_of_none {i : Instruction} (h : i.mode.writeBack = none) (regs : PtRegs) :
    (decoded i).writeBack regs = regs := by
  unfold Arm64LsInsn.writeBack decoded
  cases hmode : i.mode with
  | unsigned | unscaled => simp [form]
  | post | pre =>
    rw [hmode] at h
    cases h

/-- The syndrome and the word say the same. -/
theorem emulate_syndrome {i : Instruction} (h : i.mode.writeBack = none) {esr esr' : BitVec 64}
    (hesr : esr.extractLsb' 24 1 = 0) (hsyndrome : i.Syndrome esr')
    {fetch : BitVec 64 → Option (BitVec 32)} (hfetch : fetch regs.pc = some i.encode)
    (s : Traced) : emulateArm64Fault false fetch ctx map addr esr' regs s =
      emulateArm64Fault false fetch ctx map addr esr regs s := by
  rw [emulate_isv hsyndrome, emulate_decoded hesr hfetch, writeBack_of_none h]
  exact finishFault_congr (describes_syndrome hsyndrome) (describes_decoded i) s

theorem get_machine (s : Traced) (r : BitVec 5) :
    (machine ctx map regs s).get r = if r = 31 then 0 else regs.regs r.toNat := by
  simp only [A64.State.get, machine]
  split_ifs
  · rfl
  · rfl

theorem toNat_ne {r r' : BitVec 5} (h : r' ≠ r) : r'.toNat ≠ r.toNat :=
  fun heq ↦ h (BitVec.eq_of_toNat_eq heq)

theorem machine_put (s : Traced) (r : BitVec 5) (value : BitVec 64) :
    machine ctx map (regs.put r value) s = (machine ctx map regs s).set r value := by
  unfold PtRegs.put A64.State.set
  split_ifs with hr
  · rfl
  · simp only [machine, PtRegs.set, A64.State.mk.injEq, and_true]
    funext r'
    by_cases hr' : r' = r
    · subst hr'
      rw [if_neg hr, Function.update_self, Function.update_self]
    · rw [Function.update_of_ne hr', Function.update_of_ne (toNat_ne hr')]

theorem writeBack_of_some {i : Instruction} (hrn : i.rn ≠ 31) {imm : BitVec 64}
    (h : i.mode.writeBack = some imm) (regs : PtRegs) :
    (decoded i).writeBack regs = regs.put i.rn (regs.regs i.rn.toNat + imm) := by
  have hrn' : i.rn.toNat ≠ 31 := toNat_eq_31_iff.not.mpr hrn
  unfold Arm64LsInsn.writeBack PtRegs.put decoded
  rw [if_neg hrn]
  cases hmode : i.mode with
  | unsigned | unscaled =>
    rw [hmode] at h
    cases h
  | post | pre =>
    rw [hmode, Mode.writeBack, Option.some.injEq] at h
    simp [form, hrn', h]

/-- The load or the store, after the base register has been written. -/
theorem machine_put_set {r r' : BitVec 5} (hr : r ≠ 31) (hne : r' ≠ r) (s : Traced)
    (value value' : BitVec 64) :
    machine ctx map ((regs.put r value).put r' value') s =
      ((machine ctx map regs s).set r' value').setBase r value := by
  rw [machine_put, machine_put]
  unfold A64.State.set A64.State.setBase
  rw [if_neg hr, if_neg hr]
  split_ifs
  · rfl
  · simp [Function.update_comm hne]

/-- The base register is not the stack pointer, nor is it written twice. -/
structure Separate (i : Instruction) : Prop where
  base : i.rn ≠ 31
  transfer : i.mode.writeBack ≠ none → i.rt ≠ i.rn

variable {i : Instruction} {s : Traced}

theorem machine_congr {s' : Traced} (h : s'.shadow = s.shadow) (regs : PtRegs) :
    machine ctx map regs s' = machine ctx map regs s := by
  unfold machine
  rw [h]

theorem mem_set (m : A64.State) (r : BitVec 5) (value : BitVec 64) :
    (m.set r value).mem = m.mem := by
  unfold A64.State.set
  split_ifs
  · rfl
  · rfl

theorem base_machine (h : i.rn ≠ 31) (s : Traced) :
    (machine ctx map regs s).base i.rn = regs.regs i.rn.toNat := by
  simp only [A64.State.base, machine, if_neg h]

/-- The register that is loaded, next to the base register. -/
theorem machine_load (hi : Separate i) (s : Traced) (value : BitVec 64) :
    machine ctx map (((decoded i).writeBack regs).put i.rt value) s =
      i.mode.writeBack.elim ((machine ctx map regs s).set i.rt value) fun imm ↦
        ((machine ctx map regs s).set i.rt value).setBase i.rn
          ((machine ctx map regs s).base i.rn + imm) := by
  cases hwb : i.mode.writeBack with
  | none => rw [writeBack_of_none hwb, machine_put, Option.elim_none]
  | some imm =>
    have hne : i.rt ≠ i.rn := hi.transfer (by simp [hwb])
    rw [writeBack_of_some hi.base hwb, machine_put_set hi.base hne, Option.elim_some,
      base_machine hi.base]

theorem pc_writeBack (hi : Separate i) (regs : PtRegs) :
    ((decoded i).writeBack regs).pc = regs.pc := by
  cases hwb : i.mode.writeBack with
  | none => rw [writeBack_of_none hwb]
  | some imm => rw [writeBack_of_some hi.base hwb, pc_put]

theorem mem_setBase (m : A64.State) (r : BitVec 5) (value : BitVec 64) :
    (m.setBase r value).mem = m.mem := by
  unfold A64.State.setBase
  split_ifs
  · rfl
  · rfl

theorem mem_execute (i : Instruction) (m : A64.State) :
    (i.execute m).mem = (i.transfer (i.address m).toNat m).mem := by
  unfold Instruction.execute
  cases i.mode.writeBack with
  | none => rfl
  | some imm => exact mem_setBase ..

theorem executeTraced_load (h : i.op.isStore = false) (m : A64.State) :
    executeTraced ctx i m = i.execute m := by
  have hmem : (i.execute m).mem = m.mem := by
    rw [mem_execute, Instruction.transfer, h]
    exact mem_set ..
  unfold executeTraced
  rw [hmem, ite_self]
  rw [← hmem]

/-- The instruction leaves what the machine has after it, apart from the program counter. -/
theorem execute_eq (i : Instruction) (m : A64.State) : i.execute m =
    { i.mode.writeBack.elim (i.transfer (i.address m).toNat m) fun imm ↦
        (i.transfer (i.address m).toNat m).setBase i.rn (m.base i.rn + imm) with pc := m.pc + 4 } :=
  rfl

theorem finish_load (hi : Separate i) (hload : i.op.isStore = false)
    (haddr : i.address (machine ctx map regs s) = addr) (hin : Inside ctx map addr i.op.width) :
    ∃ regs' s', finishFault ctx map addr (decoded i).access ((decoded i).writeBack regs) s =
        some (.ok (), regs', s') ∧
      machine ctx map regs' s' = executeTraced ctx i (machine ctx map regs s) := by
  have hwidth := width_mem_sizes i.op
  obtain ⟨stack, hread⟩ := emulateRead_eq hwidth (hin.not_outOfBar hwidth) s
  let value : BitVec (8 * i.op.width) := load s.shadow (barOffset ctx map addr).toNat i.op.width
  have hvalue : (load (machine ctx map regs s).mem addr.toNat i.op.width :
      BitVec (8 * i.op.width)) = value := load_window hin s.shadow
  have htransfer : i.transfer addr.toNat (machine ctx map regs s) =
      (machine ctx map regs s).set i.rt (i.op.extend value) := by
    rw [Instruction.transfer, hload, ← hvalue]
    rfl
  let regs' := ((decoded i).writeBack regs).put i.rt (i.op.extend value)
  let s' := { s with stack }.notified ctx.notif.read
    (traceEvent ctx pciemEventMmioRead (barOffset ctx map addr) i.op.width
      (load s.shadow (barOffset ctx map addr).toNat i.op.width))
  refine ⟨{ regs' with pc := regs.pc + 4 }, s', ?_, ?_⟩
  · rw [finishFault_eq (describes_decoded i), hload, hread, pc_writeBack hi]
    rfl
  · have hmachine : machine ctx map regs' s' = machine ctx map regs' s :=
      machine_congr (shadow_notified ..) regs'
    rw [executeTraced_load hload, execute_eq, haddr, htransfer, ← machine_load hi]
    exact congrArg (fun m ↦ { m with pc := regs.pc + 4 }) hmachine

theorem machine_store (hi : Separate i) {s' : Traced} {m : A64.State}
    (hm : machine ctx map regs s' = m) :
    machine ctx map ((decoded i).writeBack regs) s' =
      i.mode.writeBack.elim m fun imm ↦ m.setBase i.rn (m.base i.rn + imm) := by
  subst hm
  cases hwb : i.mode.writeBack with
  | none => rw [writeBack_of_none hwb, Option.elim_none]
  | some imm =>
    rw [writeBack_of_some hi.base hwb, Option.elim_some, base_machine hi.base, machine_put,
      A64.State.set, A64.State.setBase, if_neg hi.base, if_neg hi.base]

/-- What is stored is what the register has before the base register is written. -/
theorem stored_eq (hi : Separate i) (s : Traced) :
    (if i.rt = 31 then 0 else ((decoded i).writeBack regs).regs i.rt.toNat) =
      (machine ctx map regs s).get i.rt := by
  rw [get_machine]
  cases hwb : i.mode.writeBack with
  | none => rw [writeBack_of_none hwb]
  | some imm =>
    have hne : i.rt ≠ i.rn := hi.transfer (by simp [hwb])
    have hreg : ((decoded i).writeBack regs).regs i.rt.toNat = regs.regs i.rt.toNat := by
      rw [writeBack_of_some hi.base hwb, PtRegs.put, if_neg hi.base]
      exact Function.update_of_ne (toNat_ne hne) _ _
    rw [hreg]

theorem executeTraced_store (hi : Separate i) (hstore : i.op.isStore = true) (m : A64.State) :
    executeTraced ctx i m =
      let m' := { m with
        mem := if ctx.stopWrites then m.mem
          else store m.mem (i.address m).toNat (bytes (m.get i.rt) i.op.width) }
      { i.mode.writeBack.elim m' fun imm ↦ m'.setBase i.rn (m'.base i.rn + imm) with
        pc := m.pc + 4 } := by
  unfold executeTraced
  rw [mem_execute, execute_eq, Instruction.transfer, if_pos hstore]
  cases i.mode.writeBack with
  | none => rfl
  | some imm =>
    simp only [Option.elim_some, A64.State.setBase, if_neg hi.base]
    rfl

theorem finish_store (hi : Separate i) (hstore : i.op.isStore = true)
    (haddr : i.address (machine ctx map regs s) = addr) (hin : Inside ctx map addr i.op.width) :
    ∃ regs' s', finishFault ctx map addr (decoded i).access ((decoded i).writeBack regs) s =
        some (.ok (), regs', s') ∧
      machine ctx map regs' s' = executeTraced ctx i (machine ctx map regs s) := by
  have hwidth := width_mem_sizes i.op
  let src := bytes ((machine ctx map regs s).get i.rt) i.op.width
  have hsrc : src.length = i.op.width := length_bytes ..
  have hwrite := emulateWrite_eq hwidth (hin.not_outOfBar hwidth) hsrc s
  let s' := (s.poke ctx (barOffset ctx map addr) src).notified ctx.notif.write
    (traceEvent ctx pciemEventMmioWrite (barOffset ctx map addr) i.op.width
      (compose (src.map (BitVec.setWidth 64))))
  refine ⟨{ (decoded i).writeBack regs with pc := regs.pc + 4 }, s', ?_, ?_⟩
  · rw [finishFault_eq (describes_decoded i), hstore, if_pos rfl, stored_eq hi s, hwrite,
      pc_writeBack hi]
    rfl
  · have hstored : machine ctx map regs s' = { machine ctx map regs s with
        mem := if ctx.stopWrites then window ctx map s.shadow
          else store (window ctx map s.shadow) addr.toNat src } := by
      simp only [machine, s', shadow_notified, shadow_poke]
      split_ifs
      · rfl
      · rw [window_store hin]
    rw [executeTraced_store hi hstore, haddr]
    exact congrArg (fun m ↦ { m with pc := regs.pc + 4 }) (machine_store hi hstored)

/-- The words that the decoder takes are those of the loads and stores, these are carried out as
they should be, and what the syndrome says of one is as good as its word. -/
theorem emulate_exact : (∀ w, (arm64DecodeLsInsn w).isSome ↔ ∃ i : Instruction, i.encode = w) ∧
    ∀ (i : Instruction) (fetch : BitVec 64 → Option (BitVec 32)) (ctx : SmptraceCtx)
      (map : SmptraceMap) (faultVa esr : BitVec 64) (regs : PtRegs) (s : Traced),
      esr.extractLsb' 24 1 = 0 → fetch regs.pc = some i.encode →
      (Separate i → i.address (machine ctx map regs s) = faultVa →
        Inside ctx map faultVa i.op.width →
        ∃ regs' s', emulateArm64Fault false fetch ctx map faultVa esr regs s =
            some (.ok (), regs', s') ∧
          machine ctx map regs' s' = executeTraced ctx i (machine ctx map regs s)) ∧
      (i.mode.writeBack = none → ∀ esr', i.Syndrome esr' →
        emulateArm64Fault false fetch ctx map faultVa esr' regs s =
          emulateArm64Fault false fetch ctx map faultVa esr regs s) := by
  refine ⟨decode_isSome_iff, fun i fetch ctx map faultVa esr regs s hesr hfetch ↦
    ⟨fun hi haddr hin ↦ ?_, fun hmode esr' hsyndrome ↦
      emulate_syndrome hmode hesr hsyndrome hfetch s⟩⟩
  rw [emulate_decoded hesr hfetch]
  cases hop : i.op.isStore with
  | true => exact finish_store hi hop haddr hin
  | false => exact finish_load hi hop haddr hin

/-- `ldrb w0, [x1]` -/
def byteLoad : Instruction := ⟨.ldrb, .unsigned 0, 1, 0⟩

def pageRegs : PtRegs := ⟨fun r ↦ if r = 1 then 0x5004 else 0, 0, 0x1000⟩

theorem emulate_exact_byteLoad :
    (∃ regs' s', emulateArm64Fault false (fun _ ↦ some byteLoad.encode) page pageMap 0x5004 0
        pageRegs (filled 0x80) = some (.ok (), regs', s') ∧
      machine page pageMap regs' s' =
        executeTraced page byteLoad (machine page pageMap pageRegs (filled 0x80))) ∧
    emulateArm64Fault false (fun _ ↦ some byteLoad.encode) page pageMap 0x5004 0x1000000
        pageRegs (filled 0x80) =
      emulateArm64Fault false (fun _ ↦ some byteLoad.encode) page pageMap 0x5004 0
        pageRegs (filled 0x80) := by
  have hi : Separate byteLoad := ⟨by decide, by decide⟩
  have haddr : byteLoad.address (machine page pageMap pageRegs (filled 0x80)) = 0x5004 := by
    decide
  have hin : Inside page pageMap 0x5004 byteLoad.op.width := ⟨by decide, by decide, by decide⟩
  have hsyndrome : byteLoad.Syndrome 0x1000000 :=
    ⟨by decide, by decide, by decide, by decide, by decide, by decide⟩
  have hexact := emulate_exact.2 byteLoad (fun _ ↦ some byteLoad.encode) page pageMap 0x5004 0
    pageRegs (filled 0x80) (by decide) rfl
  exact ⟨hexact.1 hi haddr hin, hexact.2 rfl 0x1000000 hsyndrome⟩

end Emulate

end Pciem.Trace.Arm64
