import Pciem.Kernel.Errno
import Pciem.Library.BitField
import Pciem.Library.Rv64
import Pciem.Trace.Context

namespace Pciem.Trace.Riscv

open Kernel Library Library.ByteMemory Library.BitField Context

/-- The registers of `struct pt_regs`, by their names there. -/
inductive PtReg
  | epc
  | ra
  | sp
  | gp
  | tp
  | t (n : Fin 7)
  | s (n : Fin 12)
  | a (n : Fin 8)
deriving DecidableEq

abbrev PtRegs := PtReg → BitVec 64

structure RiscvLsInsn where
  rd : ℕ
  rs2 : ℕ
  size : ℕ
  isStore : Bool
  signExtend : Bool
deriving DecidableEq

def riscvGprOffsets : List PtReg :=
  [.epc, .ra, .sp, .gp, .tp, .t 0, .t 1, .t 2, .s 0, .s 1, .a 0, .a 1, .a 2, .a 3, .a 4, .a 5,
    .a 6, .a 7, .s 2, .s 3, .s 4, .s 5, .s 6, .s 7, .s 8, .s 9, .s 10, .s 11, .t 3, .t 4, .t 5,
    .t 6]

def riscvGetReg (regs : PtRegs) (regno : ℕ) : BitVec 64 :=
  if regno = 0 then 0 else regs (riscvGprOffsets.getD regno .epc)

def riscvSetReg (regs : PtRegs) (regno : ℕ) (val : BitVec 64) : PtRegs :=
  if regno = 0 then regs else Function.update regs (riscvGprOffsets.getD regno .epc) val

def riscvDecodeRvcLsInsn (insn16 : BitVec 16) : Option RiscvLsInsn :=
  let op := (insn16 &&& 0x3).toNat
  let funct3 := ((insn16 >>> 13) &&& 0x7).toNat
  if op = 0x0 then
    let rp := ((insn16 >>> 2) &&& 0x7).toNat
    match funct3 with
    | 0x2 => some ⟨8 + rp, 0, 4, false, false⟩
    | 0x3 => some ⟨8 + rp, 0, 8, false, false⟩
    | 0x6 => some ⟨0, 8 + rp, 4, true, false⟩
    | 0x7 => some ⟨0, 8 + rp, 8, true, false⟩
    | _ => none
  else if op = 0x2 then
    match funct3 with
    | 0x2 => some ⟨((insn16 >>> 7) &&& 0x1F).toNat, 0, 4, false, false⟩
    | 0x3 => some ⟨((insn16 >>> 7) &&& 0x1F).toNat, 0, 8, false, false⟩
    | 0x6 => some ⟨0, ((insn16 >>> 2) &&& 0x1F).toNat, 4, true, false⟩
    | 0x7 => some ⟨0, ((insn16 >>> 2) &&& 0x1F).toNat, 8, true, false⟩
    | _ => none
  else
    none

def riscvDecodeLsInsn (insn : BitVec 32) : Option RiscvLsInsn :=
  let opcode := (insn &&& 0x7F).toNat
  let funct3 := ((insn >>> 12) &&& 0x7).toNat
  if opcode = 0x03 then
    let rd := ((insn >>> 7) &&& 0x1F).toNat
    match funct3 with
    | 0x0 => some ⟨rd, 0, 1, false, true⟩
    | 0x1 => some ⟨rd, 0, 2, false, true⟩
    | 0x2 => some ⟨rd, 0, 4, false, true⟩
    | 0x3 => some ⟨rd, 0, 8, false, false⟩
    | 0x4 => some ⟨rd, 0, 1, false, false⟩
    | 0x5 => some ⟨rd, 0, 2, false, false⟩
    | 0x6 => some ⟨rd, 0, 4, false, false⟩
    | _ => none
  else if opcode = 0x23 then
    let rs2 := ((insn >>> 20) &&& 0x1F).toNat
    match funct3 with
    | 0x0 => some ⟨0, rs2, 1, true, false⟩
    | 0x1 => some ⟨0, rs2, 2, true, false⟩
    | 0x2 => some ⟨0, rs2, 4, true, false⟩
    | 0x3 => some ⟨0, rs2, 8, true, false⟩
    | _ => none
  else
    none

/-- What a load leaves in the registers. -/
def RiscvLsInsn.loaded (ls : RiscvLsInsn) (regs : PtRegs) (val : BitVec 64) : PtRegs :=
  if ls.rd ≠ 0 then
    if ls.signExtend then
      riscvSetReg regs ls.rd ((val <<< (64 - ls.size * 8)).sshiftRight (64 - ls.size * 8))
    else
      riscvSetReg regs ls.rd val
  else
    regs

def emulateLs (ctx : SmptraceCtx) (map : SmptraceMap) (faultVa : BitVec 64) (ls : RiscvLsInsn)
    (regs : PtRegs) (s : Traced) : Option (PtRegs × Traced) :=
  if ls.isStore then do
    let src := riscvGetReg regs ls.rs2
    let s ← smptraceEmulateWrite ctx map faultVa ls.size (bytes src ls.size) s
    some (regs, s)
  else do
    let dst ← smptraceEmulateRead ctx map faultVa ls.size s
    let val : BitVec 64 := compose (dst.1.map (BitVec.setWidth 64))
    some (ls.loaded regs val, dst.2)

/-- `fetch` is `copy_from_kernel_nofault`. There is no result where the kernel runs into `BUG`. -/
def emulateRiscvFault (userMode : Bool) (fetch : BitVec 64 → Option (BitVec 32))
    (ctx : SmptraceCtx) (map : SmptraceMap) (faultVa : BitVec 64) (regs : PtRegs) (s : Traced) :
    Option (Except Errno Unit × PtRegs × Traced) :=
  if userMode then
    some (.error .eacces, regs, s)
  else
    match fetch (regs .epc) with
    | none => some (.error .efault, regs, s)
    | some insn =>
      let isRvc := insn &&& 0x3 ≠ 0x3
      match if isRvc then riscvDecodeRvcLsInsn (insn.setWidth 16) else riscvDecodeLsInsn insn with
      | none => some (.error .einval, regs, s)
      | some ls => do
        let after ← emulateLs ctx map faultVa ls regs s
        let regs := after.1
        some (.ok (), Function.update regs .epc (regs .epc + if isRvc then 2 else 4), after.2)

section Registers

/-- The name that the calling convention gives a register. -/
def abiName (r : BitVec 5) : PtReg :=
  let n := r.toNat
  if n = 0 then .epc
  else if n = 1 then .ra
  else if n = 2 then .sp
  else if n = 3 then .gp
  else if n = 4 then .tp
  else if n ≤ 7 then .t (Fin.ofNat 7 (n - 5))
  else if n ≤ 9 then .s (Fin.ofNat 12 (n - 8))
  else if n ≤ 17 then .a (Fin.ofNat 8 (n - 10))
  else if n ≤ 27 then .s (Fin.ofNat 12 (n - 16))
  else .t (Fin.ofNat 7 (n - 25))

/-- The number of a register. -/
def PtReg.number : PtReg → BitVec 5
  | .epc => 0
  | .ra => 1
  | .sp => 2
  | .gp => 3
  | .tp => 4
  | .t n => if n.val ≤ 2 then BitVec.ofNat 5 (n + 5) else BitVec.ofNat 5 (n + 25)
  | .s n => if n.val ≤ 1 then BitVec.ofNat 5 (n + 8) else BitVec.ofNat 5 (n + 16)
  | .a n => BitVec.ofNat 5 (n + 10)

theorem number_abiName (r : BitVec 5) : (abiName r).number = r := by
  revert r
  decide

theorem abiName_injective : Function.Injective abiName :=
  Function.LeftInverse.injective number_abiName

theorem riscvGprOffsets_eq (r : BitVec 5) : riscvGprOffsets.getD r.toNat .epc = abiName r := by
  revert r
  decide

/-- The registers of the interrupted code. -/
def registers (regs : PtRegs) (r : BitVec 5) : BitVec 64 := if r = 0 then 0 else regs (abiName r)

/-- The machine that the interrupted code runs on, with the BAR as its memory. -/
def machine (ctx : SmptraceCtx) (map : SmptraceMap) (regs : PtRegs) (s : Traced) : Rv64.State where
  x := registers regs
  mem := window ctx map s.shadow
  pc := regs .epc

end Registers

section Decode

open Rv64

/-- What the decoder makes of an instruction. -/
def decoded : Instruction → RiscvLsInsn
  | .load op rd _ _ => ⟨rd.toNat, 0, op.width, false, op.signed && op != .ld⟩
  | .store op _ rs2 _ => ⟨0, rs2.toNat, op.width, true, false⟩

theorem fields_load (op : LoadOp) (rd rs1 : BitVec 5) (imm : BitVec 12) :
    (Instruction.load op rd rs1 imm).encode.extractLsb' 0 7 = 0x03 ∧
      (Instruction.load op rd rs1 imm).encode.extractLsb' 12 3 = op.funct3 ∧
      (Instruction.load op rd rs1 imm).encode.extractLsb' 7 5 = rd := by
  simp (disch := decide) only [Instruction.encode, extractLsb'_append_low,
    extractLsb'_append_high]
  simp

theorem fields_store (op : StoreOp) (rs1 rs2 : BitVec 5) (imm : BitVec 12) :
    (Instruction.store op rs1 rs2 imm).encode.extractLsb' 0 7 = 0x23 ∧
      (Instruction.store op rs1 rs2 imm).encode.extractLsb' 12 3 = op.funct3 ∧
      (Instruction.store op rs1 rs2 imm).encode.extractLsb' 20 5 = rs2 := by
  simp (disch := decide) only [Instruction.encode, extractLsb'_append_low,
    extractLsb'_append_high]
  simp

theorem decode_encode (i : Instruction) : riscvDecodeLsInsn i.encode = some (decoded i) := by
  unfold riscvDecodeLsInsn
  dsimp only
  rw [toNat_mask i.encode 7 rfl, toNat_field i.encode 12 3 rfl, toNat_field i.encode 7 5 rfl,
    toNat_field i.encode 20 5 rfl]
  cases i with
  | load op rd rs1 imm =>
    obtain ⟨hopcode, hfunct3, hrd⟩ := fields_load op rd rs1 imm
    rw [hopcode, hfunct3, hrd]
    cases op with
    | lb | lh | lw | ld | lbu | lhu | lwu => rfl
  | store op rs1 rs2 imm =>
    obtain ⟨hopcode, hfunct3, hrs2⟩ := fields_store op rs1 rs2 imm
    rw [hopcode, hfunct3, hrs2]
    cases op with
    | sb | sh | sw | sd => rfl

theorem word_eq_fields (w : BitVec 32) : w = w.extractLsb' 20 12 ++ w.extractLsb' 15 5 ++
    w.extractLsb' 12 3 ++ w.extractLsb' 7 5 ++ w.extractLsb' 0 7 := by
  rw [extractLsb'_append_extractLsb' w 15 12 5, extractLsb'_append_extractLsb' w 12 17 3,
    extractLsb'_append_extractLsb' w 7 20 5, extractLsb'_append_extractLsb' w 0 25 7,
    BitVec.extractLsb'_eq_self]

theorem exists_loadOp {f : BitVec 3} (h : f ≠ 7) : ∃ op : LoadOp, op.funct3 = f := by
  have hcases : f = 0 ∨ f = 1 ∨ f = 2 ∨ f = 3 ∨ f = 4 ∨ f = 5 ∨ f = 6 := by
    revert f
    decide
  rcases hcases with rfl | rfl | rfl | rfl | rfl | rfl | rfl
  · exact ⟨.lb, rfl⟩
  · exact ⟨.lh, rfl⟩
  · exact ⟨.lw, rfl⟩
  · exact ⟨.ld, rfl⟩
  · exact ⟨.lbu, rfl⟩
  · exact ⟨.lhu, rfl⟩
  · exact ⟨.lwu, rfl⟩

theorem exists_storeOp {f : BitVec 3} (h : f.toNat ≤ 3) : ∃ op : StoreOp, op.funct3 = f := by
  have hcases : f = 0 ∨ f = 1 ∨ f = 2 ∨ f = 3 := by
    revert f
    decide
  rcases hcases with rfl | rfl | rfl | rfl
  · exact ⟨.sb, rfl⟩
  · exact ⟨.sh, rfl⟩
  · exact ⟨.sw, rfl⟩
  · exact ⟨.sd, rfl⟩

/-- What the decoder accepts has an opcode of a load or a store, and one of its operations. -/
theorem opcode_of_decode {w : BitVec 32} (h : (riscvDecodeLsInsn w).isSome) :
    w.extractLsb' 0 7 = 0x03 ∧ w.extractLsb' 12 3 ≠ 7 ∨
      w.extractLsb' 0 7 = 0x23 ∧ (w.extractLsb' 12 3).toNat ≤ 3 := by
  unfold riscvDecodeLsInsn at h
  dsimp only at h
  rw [toNat_mask w 7 rfl, toNat_field w 12 3 rfl] at h
  generalize w.extractLsb' 0 7 = opcode at h ⊢
  generalize w.extractLsb' 12 3 = f at h ⊢
  by_cases hload : opcode = 0x03
  · subst hload
    refine .inl ⟨rfl, ?_⟩
    rintro rfl
    cases h
  · have hload' : opcode.toNat ≠ 0x03 := fun heq ↦ hload (BitVec.eq_of_toNat_eq heq)
    rw [if_neg hload'] at h
    by_cases hstore : opcode = 0x23
    · subst hstore
      refine .inr ⟨rfl, ?_⟩
      by_contra hlt
      have hf : f = 4 ∨ f = 5 ∨ f = 6 ∨ f = 7 := by
        clear h
        revert f
        decide
      rcases hf with rfl | rfl | rfl | rfl
      · cases h
      · cases h
      · cases h
      · cases h
    · have hstore' : opcode.toNat ≠ 0x23 := fun heq ↦ hstore (BitVec.eq_of_toNat_eq heq)
      rw [if_neg hstore'] at h
      cases h

theorem decode_isSome_iff (w : BitVec 32) :
    (riscvDecodeLsInsn w).isSome ↔ ∃ i : Instruction, i.encode = w := by
  constructor
  · intro h
    rcases opcode_of_decode h with ⟨hopcode, hf⟩ | ⟨hopcode, hf⟩
    · obtain ⟨op, hop⟩ := exists_loadOp hf
      refine ⟨.load op (w.extractLsb' 7 5) (w.extractLsb' 15 5) (w.extractLsb' 20 12), ?_⟩
      have hw := word_eq_fields w
      rw [← hop, hopcode] at hw
      exact hw.symm
    · obtain ⟨op, hop⟩ := exists_storeOp hf
      refine ⟨.store op (w.extractLsb' 15 5) (w.extractLsb' 20 5)
        (w.extractLsb' 25 7 ++ w.extractLsb' 7 5), ?_⟩
      have hw := word_eq_fields w
      rw [← hop, hopcode, ← extractLsb'_append_extractLsb' w 20 7 5] at hw
      simp (disch := decide) only [Instruction.encode, extractLsb'_append_low,
        extractLsb'_append_high, BitVec.extractLsb'_eq_self, Nat.sub_self]
      exact hw.symm
  · rintro ⟨i, rfl⟩
    rw [decode_encode]
    rfl

end Decode

section Emulate

open Rv64

variable {ctx : SmptraceCtx} {map : SmptraceMap} {faultVa : BitVec 64} {regs : PtRegs}

theorem width_load_mem_sizes (op : LoadOp) : op.width ∈ sizes := by
  cases op <;> decide

theorem width_mem_sizes (i : Instruction) : i.width ∈ sizes := by
  cases i with
  | load op _ _ _ => exact width_load_mem_sizes op
  | store op _ _ _ =>
    rw [Instruction.width]
    cases op <;> decide

/-- The value that a load leaves in its register, however its width is extended. -/
theorem loaded_eq (op : LoadOp) (rd rs1 : BitVec 5) (imm : BitVec 12) (regs : PtRegs)
    (value : BitVec (8 * op.width)) :
    (decoded (.load op rd rs1 imm)).loaded regs (value.setWidth 64) =
      riscvSetReg regs rd.toNat (extend op.signed value) := by
  have hwidth := width_load_mem_sizes op
  have hpos := pos_of_mem_sizes hwidth
  have hle := le_of_mem_sizes hwidth
  have hsign := sshiftRight_shiftLeft (v := 64) value (by omega) (by omega)
  simp only [show 64 - 8 * op.width = 64 - op.width * 8 by omega] at hsign
  unfold RiscvLsInsn.loaded
  by_cases hrd : rd.toNat = 0
  · simp [decoded, hrd, riscvSetReg]
  · simp only [decoded, hrd, ne_eq, not_false_eq_true, if_true]
    by_cases hld : op = .ld
    · subst hld
      have hvalue : value.setWidth 64 = value.signExtend 64 :=
        (BitVec.signExtend_eq_setWidth_of_le value (le_refl 64)).symm
      simp [extend, LoadOp.signed, hvalue]
    · by_cases hsigned : op.signed = true
      · simp [extend, hld, hsigned, hsign]
      · simp [extend, hsigned]

theorem getReg_toNat (regs : PtRegs) (r : BitVec 5) :
    riscvGetReg regs r.toNat = if r = 0 then 0 else regs (abiName r) := by
  unfold riscvGetReg
  rw [riscvGprOffsets_eq]
  by_cases hr : r = 0
  · simp [hr]
  · have hr' : r.toNat ≠ 0 := fun heq ↦ hr (BitVec.eq_of_toNat_eq heq)
    rw [if_neg hr, if_neg hr']

theorem setReg_toNat (regs : PtRegs) (r : BitVec 5) (value : BitVec 64) :
    riscvSetReg regs r.toNat value =
      if r = 0 then regs else Function.update regs (abiName r) value := by
  unfold riscvSetReg
  rw [riscvGprOffsets_eq]
  by_cases hr : r = 0
  · simp [hr]
  · have hr' : r.toNat ≠ 0 := fun heq ↦ hr (BitVec.eq_of_toNat_eq heq)
    rw [if_neg hr, if_neg hr']

theorem get_machine (ctx : SmptraceCtx) (map : SmptraceMap) (regs : PtRegs) (s : Traced)
    (r : BitVec 5) : (machine ctx map regs s).get r = riscvGetReg regs r.toNat := by
  rw [getReg_toNat, State.get]
  split_ifs with hr
  · rfl
  · exact if_neg hr

theorem registers_epc (regs : PtRegs) (pc : BitVec 64) :
    registers (Function.update regs .epc pc) = registers regs := by
  funext r
  unfold registers
  split_ifs with hr
  · rfl
  · exact Function.update_of_ne (abiName_injective.ne hr) _ _

theorem registers_setReg (regs : PtRegs) (rd : BitVec 5) (value : BitVec 64) :
    registers (riscvSetReg regs rd.toNat value) =
      if rd = 0 then registers regs else Function.update (registers regs) rd value := by
  rw [setReg_toNat]
  split_ifs with hrd
  · rfl
  · funext r
    unfold registers
    by_cases hr : r = rd
    · rw [hr, if_neg hrd, Function.update_self, Function.update_self]
    · rw [Function.update_of_ne hr, Function.update_of_ne (abiName_injective.ne hr)]

theorem machine_setReg (s s' : Traced) (rd : BitVec 5) (value pc : BitVec 64)
    (hshadow : s'.shadow = s.shadow) :
    machine ctx map (Function.update (riscvSetReg regs rd.toNat value) .epc pc) s' =
      { machine ctx map regs s with pc }.set rd value := by
  unfold machine State.set
  rw [registers_epc, registers_setReg, hshadow, Function.update_self]
  split_ifs
  · rfl
  · rfl

/-- The instruction, except that stopped writes leave the BAR as it is. -/
def executeTraced (ctx : SmptraceCtx) (i : Instruction) (m : State) : State :=
  { i.execute m with mem := if ctx.stopWrites then m.mem else (i.execute m).mem }

theorem mem_set (m : State) (r : BitVec 5) (value : BitVec 64) : (m.set r value).mem = m.mem := by
  unfold State.set
  split_ifs
  · rfl
  · rfl

theorem executeTraced_load (op : LoadOp) (rd rs1 : BitVec 5) (imm : BitVec 12) (m : State) :
    executeTraced ctx (.load op rd rs1 imm) m = (Instruction.load op rd rs1 imm).execute m := by
  have hmem : ((Instruction.load op rd rs1 imm).execute m).mem = m.mem := mem_set ..
  unfold executeTraced
  simp only [hmem, ite_self]
  rw [← hmem]

theorem setReg_epc (regs : PtRegs) (rd : BitVec 5) (value : BitVec 64) :
    riscvSetReg regs rd.toNat value .epc = regs .epc := by
  rw [setReg_toNat]
  split_ifs with hrd
  · rfl
  · exact Function.update_of_ne (Ne.symm (abiName_injective.ne hrd)) _ _

theorem emulateLs_load {op : LoadOp} {rd rs1 : BitVec 5} {imm : BitVec 12} {s : Traced}
    (haddr : (Instruction.load op rd rs1 imm).address (machine ctx map regs s) = faultVa)
    (hin : Inside ctx map faultVa op.width) :
    ∃ regs' s', emulateLs ctx map faultVa (decoded (.load op rd rs1 imm)) regs s =
        some (regs', s') ∧ regs' .epc = regs .epc ∧
      machine ctx map (Function.update regs' .epc (regs .epc + 4)) s' =
        executeTraced ctx (.load op rd rs1 imm) (machine ctx map regs s) := by
  have hwidth := width_load_mem_sizes op
  have hle := le_of_mem_sizes hwidth
  obtain ⟨stack, hread⟩ := emulateRead_eq hwidth (hin.not_outOfBar hwidth) s
  let value : BitVec (8 * op.width) := load s.shadow (barOffset ctx map faultVa).toNat op.width
  have hvalue : load s.shadow (barOffset ctx map faultVa).toNat op.width = value.setWidth 64 :=
    (setWidth_load (v := 64) s.shadow _ op.width (by omega)).symm
  have hls : emulateLs ctx map faultVa (decoded (.load op rd rs1 imm)) regs s =
      some (riscvSetReg regs rd.toNat (extend op.signed value), { s with stack }.notified
        ctx.notif.read (traceEvent ctx pciemEventMmioRead (barOffset ctx map faultVa) op.width
          (value.setWidth 64))) := by
    rw [← loaded_eq op rd rs1 imm, ← hvalue]
    unfold emulateLs
    simp [decoded, hread, compose_peek]
  refine ⟨_, _, hls, setReg_epc .., ?_⟩
  rw [machine_setReg _ _ _ _ _ (shadow_notified ..)]
  rw [executeTraced_load, Instruction.execute, haddr]
  have hmem : load (machine ctx map regs s).mem faultVa.toNat op.width = value :=
    load_window hin s.shadow
  rw [hmem]
  rfl

theorem emulateLs_store {op : StoreOp} {rs1 rs2 : BitVec 5} {imm : BitVec 12} {s : Traced}
    (haddr : (Instruction.store op rs1 rs2 imm).address (machine ctx map regs s) = faultVa)
    (hin : Inside ctx map faultVa op.width) :
    ∃ regs' s', emulateLs ctx map faultVa (decoded (.store op rs1 rs2 imm)) regs s =
        some (regs', s') ∧ regs' .epc = regs .epc ∧
      machine ctx map (Function.update regs' .epc (regs .epc + 4)) s' =
        executeTraced ctx (.store op rs1 rs2 imm) (machine ctx map regs s) := by
  have hwidth : op.width ∈ sizes := width_mem_sizes (.store op rs1 rs2 imm)
  let src := bytes (riscvGetReg regs rs2.toNat) op.width
  have hsrc : src.length = op.width := length_bytes ..
  have hwrite := emulateWrite_eq hwidth (hin.not_outOfBar hwidth) hsrc s
  have hls : emulateLs ctx map faultVa (decoded (.store op rs1 rs2 imm)) regs s =
      some (regs, (s.poke ctx (barOffset ctx map faultVa) src).notified ctx.notif.write
        (traceEvent ctx pciemEventMmioWrite (barOffset ctx map faultVa) op.width
          (compose (src.map (BitVec.setWidth 64))))) := by
    unfold emulateLs
    simp only [decoded, if_true]
    rw [hwrite]
    rfl
  refine ⟨_, _, hls, rfl, ?_⟩
  unfold executeTraced
  rw [Instruction.execute, haddr, get_machine]
  unfold machine
  rw [shadow_notified, shadow_poke, registers_epc, Function.update_self]
  split_ifs
  · rfl
  · rw [window_store hin]

theorem emulateLs_execute {i : Instruction} {s : Traced}
    (haddr : i.address (machine ctx map regs s) = faultVa)
    (hin : Inside ctx map faultVa i.width) :
    ∃ regs' s', emulateLs ctx map faultVa (decoded i) regs s = some (regs', s') ∧
      regs' .epc = regs .epc ∧
      machine ctx map (Function.update regs' .epc (regs .epc + 4)) s' =
        executeTraced ctx i (machine ctx map regs s) := by
  cases i with
  | load op rd rs1 imm => exact emulateLs_load haddr hin
  | store op rs1 rs2 imm => exact emulateLs_store haddr hin

theorem not_rvc_encode (i : Instruction) : ¬ i.encode &&& 0x3 ≠ 0x3 := by
  rw [not_not]
  apply BitVec.eq_of_toNat_eq
  rw [toNat_mask i.encode 2 rfl]
  cases i with
  | load op rd rs1 imm =>
    simp (disch := decide) only [Instruction.encode, extractLsb'_append_low]
    rfl
  | store op rs1 rs2 imm =>
    simp (disch := decide) only [Instruction.encode, extractLsb'_append_low]
    rfl

theorem emulate_encode (i : Instruction) (faultVa : BitVec 64) (regs : PtRegs) (s : Traced)
    {fetch : BitVec 64 → Option (BitVec 32)} (hfetch : fetch (regs .epc) = some i.encode) :
    emulateRiscvFault false fetch ctx map faultVa regs s =
      (emulateLs ctx map faultVa (decoded i) regs s).map fun after ↦
        (.ok (), Function.update after.1 .epc (after.1 .epc + 4), after.2) := by
  unfold emulateRiscvFault
  simp only [Bool.false_eq_true, if_false, hfetch, not_rvc_encode, decode_encode]
  rw [Option.map_eq_bind]
  rfl

/-- The words that the decoder takes are those of the loads and stores, and these are carried out
as they should be. -/
theorem emulate_executes : (∀ w, (riscvDecodeLsInsn w).isSome ↔ ∃ i : Instruction, i.encode = w) ∧
    ∀ (i : Instruction) (fetch : BitVec 64 → Option (BitVec 32)) (ctx : SmptraceCtx)
      (map : SmptraceMap) (faultVa : BitVec 64) (regs : PtRegs) (s : Traced),
      fetch (regs .epc) = some i.encode → i.address (machine ctx map regs s) = faultVa →
      Inside ctx map faultVa i.width →
      ∃ regs' s', emulateRiscvFault false fetch ctx map faultVa regs s =
          some (.ok (), regs', s') ∧
        machine ctx map regs' s' = executeTraced ctx i (machine ctx map regs s) := by
  refine ⟨decode_isSome_iff, fun i fetch ctx map faultVa regs s hfetch haddr hin ↦ ?_⟩
  obtain ⟨regs', s', hls, hepc, hmachine⟩ := emulateLs_execute haddr hin
  refine ⟨_, s', ?_, hmachine⟩
  rw [emulate_encode i faultVa regs s hfetch, hls, Option.map_some]
  dsimp only
  rw [hepc]

/-- `lw a0, 4(a1)`, where `a1` has the address of the map. -/
def wordLoad : Instruction := .load .lw 10 11 4

def pageRegs (r : PtReg) : BitVec 64 := if r = .a 1 then 0x5000 else 0

theorem emulate_executes_wordLoad : Inside page pageMap 0x5004 wordLoad.width ∧
    wordLoad.address (machine page pageMap pageRegs (filled 0x80)) = 0x5004 ∧
    ∃ regs' s', emulateRiscvFault false (fun _ ↦ some wordLoad.encode) page pageMap 0x5004 pageRegs
        (filled 0x80) = some (.ok (), regs', s') ∧
      machine page pageMap regs' s' =
        executeTraced page wordLoad (machine page pageMap pageRegs (filled 0x80)) := by
  have hin : Inside page pageMap 0x5004 wordLoad.width := ⟨by decide, by decide, by decide⟩
  have haddr : wordLoad.address (machine page pageMap pageRegs (filled 0x80)) = 0x5004 := rfl
  exact ⟨hin, haddr,
    emulate_executes.2 wordLoad _ page pageMap 0x5004 pageRegs (filled 0x80) rfl haddr hin⟩

end Emulate

end Pciem.Trace.Riscv
