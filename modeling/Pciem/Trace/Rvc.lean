import Pciem.Trace.Riscv

namespace Pciem.Trace.Rvc

open Kernel Library Library.ByteMemory Library.BitField Library.Rv64 Context Riscv

/-- The instruction loads a word. -/
def LoadsWord : Compressed → Prop
  | .lw .. | .lwsp .. => True
  | _ => False

section Decode

theorem toNat_register (r : BitVec 3) : (Compressed.register r).toNat = 8 + r.toNat := by
  revert r
  decide

/-- A compressed instruction is taken for the one that it stands for, but without its sign. -/
theorem decodeRvc_encode (c : Compressed) : riscvDecodeRvcLsInsn c.encode =
    some { decoded c.expand with signExtend := false } := by
  unfold riscvDecodeRvcLsInsn
  dsimp only
  rw [toNat_mask c.encode 2 rfl, toNat_field c.encode 13 3 rfl, toNat_field c.encode 2 3 rfl,
    toNat_field c.encode 7 5 rfl, toNat_field c.encode 2 5 rfl]
  cases c with
  | lw rd _ _ | ld rd _ _ =>
    simp (disch := decide) only [Compressed.encode, extractLsb'_append_low,
      extractLsb'_append_high, Nat.sub_self, BitVec.extractLsb'_eq_self, ← toNat_register]
    rfl
  | sw _ rs2 _ | sd _ rs2 _ =>
    simp (disch := decide) only [Compressed.encode, extractLsb'_append_low,
      extractLsb'_append_high, Nat.sub_self, BitVec.extractLsb'_eq_self, ← toNat_register]
    rfl
  | lwsp rd _ _ | ldsp rd _ _ =>
    simp (disch := decide) only [Compressed.encode, extractLsb'_append_low,
      extractLsb'_append_high, Nat.reduceSub, BitVec.extractLsb'_eq_self]
    rfl
  | swsp rs2 _ | sdsp rs2 _ =>
    simp (disch := decide) only [Compressed.encode, extractLsb'_append_low,
      extractLsb'_append_high, Nat.reduceSub, BitVec.extractLsb'_eq_self]
    rfl

theorem expand_of_loadsWord {c : Compressed} (h : LoadsWord c) :
    ∃ rd rs1 imm, rd ≠ 0 ∧ c.expand = .load .lw rd rs1 imm := by
  cases c with
  | lw rd rs1 offset =>
    refine ⟨_, _, _, ?_, rfl⟩
    clear h
    revert rd
    decide
  | lwsp rd hrd offset => exact ⟨_, _, _, hrd, rfl⟩
  | ld | sw | sd | ldsp | swsp | sdsp => cases h

theorem signExtend_of_not_loadsWord {c : Compressed} (h : ¬ LoadsWord c) :
    (decoded c.expand).signExtend = false := by
  cases c with
  | lw | lwsp => exact absurd trivial h
  | ld | sw | sd | ldsp | swsp | sdsp => rfl

theorem rvc_encode (upper : BitVec 16) (c : Compressed) :
    (upper ++ c.encode : BitVec 32) &&& 0x3 ≠ 0x3 ∧
      (upper ++ c.encode : BitVec 32).setWidth 16 = c.encode := by
  constructor
  · intro heq
    have hfield := congrArg BitVec.toNat heq
    rw [toNat_mask _ 2 rfl] at hfield
    cases c with
    | lw | ld | sw | sd | lwsp | ldsp | swsp | sdsp =>
      simp (disch := decide) only [Compressed.encode, extractLsb'_append_low] at hfield
      exact absurd hfield (by decide)
  · apply BitVec.eq_of_getLsbD_eq
    intro i hi
    rw [BitVec.getLsbD_setWidth, BitVec.getLsbD_append]
    simp [hi]

end Decode

section Agree

variable {ctx : SmptraceCtx} {map : SmptraceMap} {faultVa : BitVec 64} {regs : PtRegs} {s : Traced}

abbrev Outcome := Option (Except Errno Unit × PtRegs × Traced)

/-- The compressed instruction does what the other one does, but is two bytes shorter. -/
def Agrees (short full : Outcome) : Prop :=
  short = full.map fun r ↦ (r.1, Function.update r.2.1 .epc (r.2.1 .epc - 2), r.2.2)

def finish (after : PtRegs × Traced) : Except Errno Unit × PtRegs × Traced :=
  (.ok (), Function.update after.1 .epc (after.1 .epc + 2), after.2)

theorem finish_injective : Function.Injective finish := by
  intro after after' heq
  have hregs : Function.update after.1 .epc (after.1 .epc + 2) =
      Function.update after'.1 .epc (after'.1 .epc + 2) := congrArg (fun r ↦ r.2.1) heq
  have htraced : after.2 = after'.2 := congrArg (fun r ↦ r.2.2) heq
  refine Prod.ext ?_ htraced
  funext r
  have hr := congrFun hregs r
  by_cases hepc : r = .epc
  · subst hepc
    simpa using hr
  · simpa [Function.update_of_ne hepc] using hr

theorem emulate_encodeRvc (upper : BitVec 16) (c : Compressed)
    {fetch : BitVec 64 → Option (BitVec 32)}
    (hfetch : fetch (regs .epc) = some (upper ++ c.encode)) :
    emulateRiscvFault false fetch ctx map faultVa regs s =
      (emulateLs ctx map faultVa { decoded c.expand with signExtend := false } regs s).map
        finish := by
  obtain ⟨hrvc, hlow⟩ := rvc_encode upper c
  unfold emulateRiscvFault
  simp only [Bool.false_eq_true, if_false, hfetch, ne_eq, hrvc, not_false_eq_true, if_true, hlow,
    decodeRvc_encode]
  rw [Option.map_eq_bind]
  rfl

theorem agrees_iff (upper : BitVec 16) (c : Compressed) :
    Agrees (emulateRiscvFault false (fun _ ↦ some (upper ++ c.encode)) ctx map faultVa regs s)
        (emulateRiscvFault false (fun _ ↦ some c.expand.encode) ctx map faultVa regs s) ↔
      emulateLs ctx map faultVa { decoded c.expand with signExtend := false } regs s =
        emulateLs ctx map faultVa (decoded c.expand) regs s := by
  have hfinish (after : PtRegs × Traced) : (Except.ok (), Function.update
      (Function.update after.1 PtReg.epc (after.1 .epc + 4)) .epc
      (Function.update after.1 PtReg.epc (after.1 .epc + 4) .epc - 2), after.2) =
      finish after := by
    rw [Function.update_idem, Function.update_self, finish]
    congr 3
    bv_omega
  unfold Agrees
  rw [emulate_encodeRvc upper c rfl, emulate_encode c.expand faultVa regs s rfl, Option.map_map]
  simp only [Function.comp_def, hfinish]
  exact (Option.map_injective finish_injective).eq_iff

theorem setReg_injective {rd : BitVec 5} (hrd : rd ≠ 0) :
    Function.Injective (riscvSetReg regs rd.toNat) := by
  intro value value' heq
  have hrd' := congrFun heq (abiName rd)
  rwa [setReg_toNat, setReg_toNat, if_neg hrd, if_neg hrd, Function.update_self,
    Function.update_self] at hrd'

theorem signExtend_eq_setWidth_iff (x : BitVec 32) :
    x.setWidth 64 = x.signExtend 64 ↔ x.msb = false := by
  constructor
  · intro heq
    have hmsb := congrArg BitVec.msb heq
    simpa [BitVec.msb_signExtend, BitVec.msb_setWidth] using hmsb.symm
  · intro hmsb
    exact (BitVec.signExtend_eq_setWidth_of_msb_false hmsb).symm

/-- A word that is loaded is the same with and without its sign where its top bit is clear. -/
theorem emulateLs_lw_iff (rd : BitVec 5) (hrd : rd ≠ 0) (rs1 : BitVec 5) (imm : BitVec 12) :
    emulateLs ctx map faultVa { decoded (.load .lw rd rs1 imm) with signExtend := false } regs s =
        emulateLs ctx map faultVa (decoded (.load .lw rd rs1 imm)) regs s ↔
      (¬ OutOfBar ctx (barOffset ctx map faultVa) 4 →
        (load s.shadow (barOffset ctx map faultVa).toNat 4 : BitVec 32).msb = false) := by
  by_cases hout : OutOfBar ctx (barOffset ctx map faultVa) 4
  · simp [emulateLs, decoded, LoadOp.width, smptraceEmulateRead, hout]
  · obtain ⟨stack, hread⟩ := emulateRead_eq (show 4 ∈ sizes by decide) hout s
    let value : BitVec 32 := load s.shadow (barOffset ctx map faultVa).toNat 4
    have hvalue : load s.shadow (barOffset ctx map faultVa).toNat 4 = value.setWidth 64 :=
      (setWidth_load (v := 64) s.shadow _ 4 (by decide)).symm
    have hunsigned : RiscvLsInsn.loaded
        { decoded (.load .lw rd rs1 imm) with signExtend := false } regs (value.setWidth 64) =
        riscvSetReg regs rd.toNat (value.setWidth 64) := loaded_eq .lwu rd rs1 imm regs value
    have hsigned : RiscvLsInsn.loaded (decoded (.load .lw rd rs1 imm)) regs
        (value.setWidth 64) = riscvSetReg regs rd.toNat (value.signExtend 64) :=
      loaded_eq .lw rd rs1 imm regs value
    have hls (ls : RiscvLsInsn) (hstore : ls.isStore = false) (hsize : ls.size = 4) :
        emulateLs ctx map faultVa ls regs s = some (ls.loaded regs (value.setWidth 64),
          { s with stack }.notified ctx.notif.read (traceEvent ctx pciemEventMmioRead
            (barOffset ctx map faultVa) 4 (value.setWidth 64))) := by
      rw [← hvalue]
      unfold emulateLs
      simp [hstore, hsize, hread, compose_peek]
    rw [hls _ rfl rfl, hls _ rfl rfl, hunsigned, hsigned]
    simp only [hout, not_false_eq_true, forall_const, Option.some.injEq, Prod.mk.injEq, and_true]
    rw [(setReg_injective hrd).eq_iff, signExtend_eq_setWidth_iff]

/-- A compressed instruction does what the one does that it stands for, just when it does not load
a word with its top bit set. -/
theorem compressed_agrees_iff (upper : BitVec 16) (c : Compressed) (ctx : SmptraceCtx)
    (map : SmptraceMap) (faultVa : BitVec 64) (regs : PtRegs) (s : Traced) :
    Agrees (emulateRiscvFault false (fun _ ↦ some (upper ++ c.encode)) ctx map faultVa regs s)
        (emulateRiscvFault false (fun _ ↦ some c.expand.encode) ctx map faultVa regs s) ↔
      (LoadsWord c → ¬ OutOfBar ctx (barOffset ctx map faultVa) 4 →
        (load s.shadow (barOffset ctx map faultVa).toNat 4 : BitVec 32).msb = false) := by
  rw [agrees_iff]
  by_cases hword : LoadsWord c
  · obtain ⟨rd, rs1, imm, hrd, hexpand⟩ := expand_of_loadsWord hword
    rw [hexpand, emulateLs_lw_iff rd hrd]
    simp [hword]
  · have hsign := signExtend_of_not_loadsWord hword
    refine iff_of_true ?_ fun h ↦ absurd h hword
    rw [← hsign]

/-- `c.lw a0, 0(a1)` of a word that is negative. -/
theorem negative_word_disagrees : ¬ Agrees
    (emulateRiscvFault false (fun _ ↦ some ((0 : BitVec 16) ++ (Compressed.lw 2 3 0).encode))
      page pageMap 0x5000 pageRegs (filled 0x80))
    (emulateRiscvFault false (fun _ ↦ some (Compressed.lw 2 3 0).expand.encode)
      page pageMap 0x5000 pageRegs (filled 0x80)) := by
  intro hagrees
  have hls := (agrees_iff 0 (.lw 2 3 0)).mp hagrees
  have hmsb := (emulateLs_lw_iff (Compressed.register 2) (by decide) _ _).mp hls (by decide)
  exact absurd hmsb (by decide)

end Agree

end Pciem.Trace.Rvc
