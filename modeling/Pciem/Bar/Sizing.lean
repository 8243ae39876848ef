import Pciem.Bar.Registers

namespace Pciem.Bar.Sizing

open Kernel Config.Capabilities Config.Access Library.MaskedRegister Library.PowerOfTwo Registers

/-- The BAR has a register for the upper half of its address. -/
def TwoDwords (v : PciemRootComplex) (i : ℕ) : Prop :=
  (v.bars i).flags &&& pciBaseAddressMemType64 ≠ 0 ∧ i + 1 < pciStdNumBars

instance (v : PciemRootComplex) (i : ℕ) : Decidable (TwoDwords v i) :=
  inferInstanceAs (Decidable (_ ∧ _))

/-- The address in the registers of a memory BAR, of which the low four bits are its type. -/
def dwordsAddress (lo hi : BitVec 32) : BitVec 64 := hi ++ (lo &&& pciBaseAddressMemMask)

/-- All ones are written to every dword of the BAR. -/
def writeOnes (v : PciemRootComplex) (i : ℕ) : PciemRootComplex :=
  let v' := (confWrite v (barPos i) 4 (.allOnes 32)).2
  if TwoDwords v i then (confWrite v' (barPos (i + 1)) 4 (.allOnes 32)).2 else v'

/-- The upper half of the address of a BAR is 0 when it has one dword. -/
def readHigh (v : PciemRootComplex) (i : ℕ) : BitVec 32 :=
  if TwoDwords v i then (confRead v (barPos (i + 1)) 4).2 else 0

/-- A memory BAR of size `2 ^ s` that PCI can represent. -/
structure Sizable (v : PciemRootComplex) (i s : ℕ) : Prop where
  memory : (v.bars i).flags &&& pciBaseAddressSpaceIo = 0
  size : (v.bars i).size = .twoPow 64 s
  four_le : 4 ≤ s
  width : ((v.bars i).flags &&& pciBaseAddressMemType64 = 0 ∧ i < pciStdNumBars ∧ s < 32) ∨
    ((v.bars i).flags &&& pciBaseAddressMemType64 ≠ 0 ∧ i < 5 ∧ i % 2 = 0 ∧
      (v.bars (i + 1)).size = 0 ∧ s < 64)

section Sizing

variable {v : PciemRootComplex} {i s : ℕ}

theorem getLsbD_dwordsAddress (lo hi : BitVec 32) (k : ℕ) :
    (dwordsAddress lo hi).getLsbD k =
      if k < 32 then lo.getLsbD k && decide (4 ≤ k ∧ k < 32) else hi.getLsbD (k - 32) := by
  rw [dwordsAddress, BitVec.getLsbD_append, BitVec.getLsbD_and, getLsbD_memMask]

theorem Sizable.lt_64 (h : Sizable v i s) : s < 64 := by
  rcases h.width with ⟨-, -, hs⟩ | ⟨-, -, -, -, hs⟩ <;> omega

theorem Sizable.size_ne_zero (h : Sizable v i s) : (v.bars i).size ≠ 0 := by
  rw [h.size]
  exact twoPow_ne_zero h.lt_64

theorem Sizable.lt_bars (h : Sizable v i s) : i < pciStdNumBars := by
  rcases h.width with ⟨-, hi, -⟩ | ⟨-, hi, -⟩
  · exact hi
  · exact Nat.lt_succ_of_lt hi

/-- What is read of the low dword after all ones were written. -/
theorem mask_low (h : Sizable v i s) :
    (lowRegister (v.bars i)).read (lowRegister (v.bars i)).writable &&& ~~~pciBaseAddressMemMask =
        (v.bars i).flags &&& ~~~pciBaseAddressMemMask ∧
      ∀ k, 4 ≤ k → ((lowRegister (v.bars i)).read (lowRegister (v.bars i)).writable).getLsbD k =
        decide (s ≤ k ∧ k < 32) := by
  have hbits := getLsbD_lowRegister h.size h.lt_64 h.memory
  constructor
  · apply BitVec.eq_of_getLsbD_eq
    intro k hk
    simp only [Register.read, BitVec.getLsbD_and, BitVec.getLsbD_or, BitVec.getLsbD_not,
      getLsbD_memMask, hbits, getLsbD_fixed]
    by_cases h4 : 4 ≤ k
    · simp [h4, hk]
    · simp [h4, Nat.not_le.mp h4]
  · intro k hk
    rw [Register.read, BitVec.getLsbD_or, hbits, getLsbD_fixed]
    simp [hk, Nat.not_lt.mpr hk]

theorem lowestSetBit_low {lo : BitVec 32} (h4 : 4 ≤ s) (hs : s < 32)
    (hlo : ∀ k, 4 ≤ k → lo.getLsbD k = decide (s ≤ k ∧ k < 32)) (hi : BitVec 32) :
    LowestSetBit (dwordsAddress lo hi) s := by
  constructor
  · rw [getLsbD_dwordsAddress, if_pos hs, hlo s h4]
    simp [h4, hs]
  · intro k hk
    rw [getLsbD_dwordsAddress, if_pos (by omega)]
    by_cases hk4 : 4 ≤ k
    · rw [hlo k hk4]
      simp [Nat.not_le.mpr hk]
    · simp [hk4]

theorem lowestSetBit_high {lo hi : BitVec 32} (h32 : 32 ≤ s) (hs : s < 64)
    (hlo : ∀ k, 4 ≤ k → lo.getLsbD k = decide (s ≤ k ∧ k < 32))
    (hhi : ∀ k, hi.getLsbD k = decide (s ≤ k + 32 ∧ k < 32)) :
    LowestSetBit (dwordsAddress lo hi) s := by
  constructor
  · rw [getLsbD_dwordsAddress, if_neg (by omega), hhi]
    exact decide_eq_true ⟨by omega, by omega⟩
  · intro k hk
    rw [getLsbD_dwordsAddress]
    split_ifs with hk32
    · by_cases hk4 : 4 ≤ k
      · rw [hlo k hk4, decide_eq_false (by omega), Bool.false_and]
      · simp [hk4]
    · rw [hhi]
      exact decide_eq_false (by omega)

theorem writeOnes_one (hv : Unshadowed v) (h : Sizable v i s) (hone : ¬ TwoDwords v i) :
    writeOnes v i = setBar v i (lowRegister (v.bars i)).writable := by
  rw [writeOnes, if_neg hone, hv.confWrite_bar h.lt_bars (barRegister_of_size h.size_ne_zero),
    Register.write_allOnes]

theorem writeOnes_two (hv : Unshadowed v) (h : Sizable v i s) (htwo : TwoDwords v i)
    (hhigh : barRegister v (i + 1) = some (highRegister (v.bars i))) :
    writeOnes v i = setBar (setBar v i (lowRegister (v.bars i)).writable) (i + 1)
      (highRegister (v.bars i)).writable := by
  rw [writeOnes, if_pos htwo, hv.confWrite_bar h.lt_bars (barRegister_of_size h.size_ne_zero),
    Register.write_allOnes, (hv.setBar i _).confWrite_bar htwo.2
      ((barRegister_setBar v (i + 1) i _).trans hhigh), Register.write_allOnes]

/-- The mask that a memory BAR shows has the type of the BAR in its low four bits, and above
them its lowest bit gives the size. -/
theorem bar_sizing (hd : v.detaching = false) (hcaps : AboveHeader v) (h : Sizable v i s) :
    (confRead (writeOnes v i) (barPos i) 4).2 &&& ~~~pciBaseAddressMemMask =
        (v.bars i).flags &&& ~~~pciBaseAddressMemMask ∧
      LowestSetBit (dwordsAddress (confRead (writeOnes v i) (barPos i) 4).2
        (readHigh (writeOnes v i) i)) s := by
  have hv : Unshadowed v := ⟨hd, hcaps⟩
  have hlow := barRegister_of_size h.size_ne_zero
  obtain ⟨htype, hmask⟩ := mask_low h
  rcases h.width with ⟨h32, -, hs⟩ | ⟨h64, hi, heven, hnext, hs⟩
  · rw [writeOnes_one hv h fun htwo ↦ htwo.1 h32, (hv.setBar i _).confRead_bar h.lt_bars
      ((barRegister_setBar v i i _).trans hlow), setBar_base]
    exact ⟨htype, lowestSetBit_low h.four_le hs hmask _⟩
  · have htwo : TwoDwords v i := ⟨h64, Nat.add_lt_add_right hi 1⟩
    have hhigh := barRegister_next heven h64 hnext
    have hv' := (hv.setBar i (lowRegister (v.bars i)).writable).setBar (i + 1)
      (highRegister (v.bars i)).writable
    rw [writeOnes_two hv h htwo hhigh, readHigh, if_pos (by simpa [TwoDwords] using htwo),
      hv'.confRead_bar h.lt_bars (by rw [barRegister_setBar, barRegister_setBar, hlow]),
      hv'.confRead_bar htwo.2 (by rw [barRegister_setBar, barRegister_setBar, hhigh]),
      setBar_base, setBar_of_ne (Nat.ne_of_lt (Nat.lt_succ_self i)), setBar_base]
    refine ⟨htype, ?_⟩
    rcases Nat.lt_or_ge s 32 with h32 | h32
    · exact lowestSetBit_low h.four_le h32 hmask _
    · refine lowestSetBit_high h32 hs hmask fun k ↦ ?_
      rw [Register.read, BitVec.getLsbD_or, getLsbD_highRegister h.size hs]
      simp [highRegister, h32]

end Sizing

/-- A 64-bit BAR of 8 GiB, and no other. -/
def eightGib : PciemRootComplex :=
  { pciemAllocRootComplex with
    bars i := if i = 0 then ⟨.twoPow 64 33, pciBaseAddressMemType64, 0⟩ else ⟨0, 0, 0⟩ }

theorem bar_sizing_eight_gib :
    (confRead (writeOnes eightGib 0) (barPos 0) 4).2 &&& ~~~pciBaseAddressMemMask = 4 ∧
      LowestSetBit (dwordsAddress (confRead (writeOnes eightGib 0) (barPos 0) 4).2
        (readHigh (writeOnes eightGib 0) 0)) 33 :=
  bar_sizing (v := eightGib) rfl (fun _ h ↦ by cases h)
    ⟨by decide, rfl, by decide, .inr ⟨by decide, by decide, rfl, rfl, by decide⟩⟩

end Pciem.Bar.Sizing
