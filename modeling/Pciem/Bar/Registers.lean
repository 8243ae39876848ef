import Pciem.Config.Access
import Pciem.Library.MaskedRegister
import Pciem.Library.PowerOfTwo

namespace Pciem.Bar.Registers

open Kernel Config.Capabilities Config.Registers Config.Access Library.MaskedRegister
  Library.PowerOfTwo

def lowRegister (bar : PciemBarInfo) : Register 32 where
  writable := (~~~(bar.size - 1)).setWidth 32 &&&
    if bar.flags &&& pciBaseAddressSpaceIo ≠ 0 then pciBaseAddressIoMask
    else pciBaseAddressMemMask
  fixed := bar.flags &&& ~~~pciBaseAddressMemMask

/-- The upper half of a 64-bit BAR. -/
def highRegister (bar : PciemBarInfo) : Register 32 where
  writable :=
    if bar.size < 1#64 <<< 32 then 0 else ((~~~(bar.size - 1)) >>> 32).setWidth 32
  fixed := 0

/-- The register that the two BAR functions make of an index, when they make one. -/
def barRegister (v : PciemRootComplex) (idx : ℕ) : Option (Register 32) :=
  if (v.bars idx).size ≠ 0 then
    some (lowRegister (v.bars idx))
  else
    match prevBar v idx with
    | none => none
    | some prev =>
      if prev.flags &&& pciBaseAddressMemType64 ≠ 0 then some (highRegister prev) else none

/-- The place of a BAR in config space. -/
def barPos (i : ℕ) : ℕ := pciBaseAddress0 + 4 * i

section Law

/-- The test for the probe value changes nothing: both of its branches read the same. -/
theorem probe_eq (f : BitVec 32 → BitVec 32) (base probe : BitVec 32) :
    (if base = probe then f probe else f base) = f base := by
  split_ifs with h
  · rw [h]
  · rfl

theorem pciemReadBarAddress_eq (v : PciemRootComplex) (idx : ℕ) : pciemReadBarAddress v idx =
    match barRegister v idx with
    | some r => r.read (v.bars idx).baseAddrVal
    | none => 0 := by
  rw [pciemReadBarAddress, barRegister]
  dsimp only
  by_cases hsize : (v.bars idx).size ≠ 0
  · rw [if_pos hsize, if_pos hsize]
    exact probe_eq (· ||| ((v.bars idx).flags &&& ~~~pciBaseAddressMemMask)) _ _
  · rw [if_neg hsize, if_neg hsize]
    cases prevBar v idx with
    | none => rfl
    | some prev =>
      dsimp only
      by_cases h64 : prev.flags &&& pciBaseAddressMemType64 ≠ 0
      · rw [if_pos h64, if_pos h64]
        exact (probe_eq id _ _).trans BitVec.or_zero.symm
      · rw [if_neg h64, if_neg h64]

theorem pciemWriteBarAddress_eq (v : PciemRootComplex) (idx : ℕ) (value : BitVec 32) :
    (pciemWriteBarAddress v idx value).2 =
      match barRegister v idx with
      | some r => setBar v idx (r.write value)
      | none => v := by
  rw [pciemWriteBarAddress, barRegister]
  dsimp only
  by_cases hsize : (v.bars idx).size ≠ 0
  · rw [if_pos hsize, if_pos hsize]
    dsimp only
    rw [Register.write, lowRegister]
    split_ifs <;> rfl
  · rw [if_neg hsize, if_neg hsize]
    cases prevBar v idx with
    | none => rfl
    | some prev =>
      dsimp only
      by_cases h64 : prev.flags &&& pciBaseAddressMemType64 ≠ 0
      · rw [if_pos h64, if_pos h64]
        rfl
      · rw [if_neg h64, if_neg h64]

end Law

section Store

variable {v : PciemRootComplex} {i j : ℕ} {base : BitVec 32}

@[simp]
theorem setBar_base (v : PciemRootComplex) (i : ℕ) (base : BitVec 32) :
    ((setBar v i base).bars i).baseAddrVal = base := by
  simp [setBar]

theorem setBar_of_ne (h : j ≠ i) : (setBar v i base).bars j = v.bars j :=
  Function.update_of_ne h _ _

@[simp]
theorem setBar_size (v : PciemRootComplex) (i j : ℕ) (base : BitVec 32) :
    ((setBar v i base).bars j).size = (v.bars j).size := by
  by_cases h : j = i
  · subst h
    simp [setBar]
  · rw [setBar_of_ne h]

@[simp]
theorem setBar_flags (v : PciemRootComplex) (i j : ℕ) (base : BitVec 32) :
    ((setBar v i base).bars j).flags = (v.bars j).flags := by
  by_cases h : j = i
  · subst h
    simp [setBar]
  · rw [setBar_of_ne h]

theorem barRegister_congr {v' : PciemRootComplex}
    (hsize : ∀ k, (v'.bars k).size = (v.bars k).size)
    (hflags : ∀ k, (v'.bars k).flags = (v.bars k).flags) :
    barRegister v' i = barRegister v i := by
  simp only [barRegister, prevBar, lowRegister, hsize, hflags]
  split_ifs <;> simp only [highRegister, *]

@[simp]
theorem barRegister_setBar (v : PciemRootComplex) (i j : ℕ) (base : BitVec 32) :
    barRegister (setBar v j base) i = barRegister v i :=
  barRegister_congr (by simp) (by simp)

theorem barRegister_of_size (h : (v.bars i).size ≠ 0) :
    barRegister v i = some (lowRegister (v.bars i)) := if_pos h

/-- The register after a 64-bit BAR at an even index is its upper half. -/
theorem barRegister_next (heven : i % 2 = 0)
    (h64 : (v.bars i).flags &&& pciBaseAddressMemType64 ≠ 0) (hnext : (v.bars (i + 1)).size = 0) :
    barRegister v (i + 1) = some (highRegister (v.bars i)) := by
  have hprev : prevBar v (i + 1) = some (v.bars i) := if_pos (by omega)
  rw [barRegister, if_neg (not_not.mpr hnext), hprev]
  exact if_pos h64

theorem barRegister_next_of_odd (hodd : i % 2 = 1) (hnext : (v.bars (i + 1)).size = 0) :
    barRegister v (i + 1) = none := by
  have hprev : prevBar v (i + 1) = none := if_neg (by omega)
  rw [barRegister, if_neg (not_not.mpr hnext), hprev]

end Store

section Config

variable {v : PciemRootComplex} {i : ℕ}

theorem isBar_barPos (hi : i < pciStdNumBars) : IsBar (barPos i) 4 := by
  simp only [pciStdNumBars] at hi
  refine ⟨?_, ?_, ?_, rfl⟩
  · simp only [barPos, pciBaseAddress0]
    omega
  · simp only [barPos, pciBaseAddress0, pciStdNumBars]
    omega
  · simp only [barPos, pciBaseAddress0]
    omega

theorem barIndex_barPos (i : ℕ) : barIndex (barPos i) = i := by
  simp only [barIndex, barPos, pciBaseAddress0]
  omega

theorem barPos_inSpace (hi : i < pciStdNumBars) : InSpace (barPos i) 4 := by
  simp only [pciStdNumBars] at hi
  simp only [InSpace, barPos, pciBaseAddress0, pciCfgSpaceSize, pciCfgSpaceExpSize]
  omega

/-- No capability lies in the header of the config space. -/
def AboveHeader (v : PciemRootComplex) : Prop :=
  ∀ mgr, v.capMgr = some mgr → ∀ entry ∈ mgr.caps, 0x40 ≤ entry.base

theorem AboveHeader.covering (h : AboveHeader v) (hi : i < pciStdNumBars)
    (mgr : PciemCapManager) (hm : v.capMgr = some mgr) : covering mgr (barPos i) = none := by
  refine covering_eq_none_iff.mpr fun entry he ↦ .inl (Nat.lt_of_lt_of_le ?_ (h mgr hm entry he))
  simp only [pciStdNumBars] at hi
  simp only [barPos, pciBaseAddress0]
  omega

theorem confRead_bar (hd : v.detaching = false) (hi : i < pciStdNumBars) :
    confRead v (barPos i) 4 = (.successful, match pciemHandleCapRead v (barPos i) 4 with
      | some val => val
      | none => pciemReadBarAddress v i) := by
  have h := confRead_eq hd (barPos_inSpace hi)
  rw [if_pos (isBar_barPos hi), barIndex_barPos] at h
  exact h

theorem confWrite_bar (hd : v.detaching = false) (hi : i < pciStdNumBars) (value : BitVec 32) :
    (confWrite v (barPos i) 4 value).2 = match pciemHandleCapWrite v (barPos i) 4 value with
      | some v' => v'
      | none => (pciemWriteBarAddress v i value).2 := by
  have h : (confWrite v (barPos i) 4 value).2 = _ := confWrite_eq hd (barPos_inSpace hi)
  rw [if_pos (isBar_barPos hi), barIndex_barPos] at h
  exact h

/-- Config accesses at the place of a BAR reach the BAR. -/
structure Unshadowed (v : PciemRootComplex) : Prop where
  detaching : v.detaching = false
  aboveHeader : AboveHeader v

theorem Unshadowed.setBar (h : Unshadowed v) (j : ℕ) (base : BitVec 32) :
    Unshadowed (setBar v j base) := ⟨h.detaching, h.aboveHeader⟩

theorem Unshadowed.confRead_bar (h : Unshadowed v) (hi : i < pciStdNumBars) {r : Register 32}
    (hr : barRegister v i = some r) :
    confRead v (barPos i) 4 = (.successful, r.read (v.bars i).baseAddrVal) := by
  rw [Registers.confRead_bar h.detaching hi, handleCapRead_of_none (h.aboveHeader.covering hi)]
  dsimp only
  rw [pciemReadBarAddress_eq, hr]

theorem Unshadowed.confWrite_bar (h : Unshadowed v) (hi : i < pciStdNumBars) {r : Register 32}
    (hr : barRegister v i = some r) (value : BitVec 32) :
    (confWrite v (barPos i) 4 value).2 = Config.Access.setBar v i (r.write value) := by
  rw [Registers.confWrite_bar h.detaching hi, handleCapWrite_of_none (h.aboveHeader.covering hi)]
  dsimp only
  rw [pciemWriteBarAddress_eq, hr]

end Config

section Bits

variable {bar : PciemBarInfo} {s : ℕ}

theorem getLsbD_memMask (k : ℕ) :
    pciBaseAddressMemMask.getLsbD k = decide (4 ≤ k ∧ k < 32) := by
  have hmask : pciBaseAddressMemMask = ~~~(BitVec.twoPow 32 4 - 1) := by decide
  rw [hmask, getLsbD_not_mask (by decide)]

theorem getLsbD_lowRegister (hsize : bar.size = .twoPow 64 s) (hs : s < 64)
    (hmem : bar.flags &&& pciBaseAddressSpaceIo = 0) (k : ℕ) :
    (lowRegister bar).writable.getLsbD k = decide (s ≤ k ∧ 4 ≤ k ∧ k < 32) := by
  rw [lowRegister, if_neg (not_not.mpr hmem), hsize, BitVec.getLsbD_and, BitVec.getLsbD_setWidth,
    getLsbD_not_mask hs, getLsbD_memMask]
  by_cases hk : k < 32
  · have : k < 64 := by omega
    simp [hk, this]
  · simp [hk]

theorem getLsbD_lowRegister_of_le (hsize : bar.size = .twoPow 64 s) (hs : s < 64) {k : ℕ}
    (hk : s ≤ k) (h4 : 4 ≤ k) (h32 : k < 32) : (lowRegister bar).writable.getLsbD k = true := by
  have hmask : pciBaseAddressIoMask = ~~~(BitVec.twoPow 32 2 - 1) := by decide
  have h2 : 2 ≤ k := Nat.le_trans (by decide) h4
  have h64 : k < 64 := Nat.lt_trans h32 (by decide)
  rw [lowRegister, hsize, BitVec.getLsbD_and, BitVec.getLsbD_setWidth, getLsbD_not_mask hs]
  split_ifs
  · rw [hmask, getLsbD_not_mask (by decide)]
    simp [hk, h2, h32, h64]
  · rw [getLsbD_memMask]
    simp [hk, h4, h32, h64]

theorem getLsbD_fixed (bar : PciemBarInfo) (k : ℕ) :
    (lowRegister bar).fixed.getLsbD k = (bar.flags.getLsbD k && decide (k < 4)) := by
  rw [lowRegister, BitVec.getLsbD_and, BitVec.getLsbD_not, getLsbD_memMask]
  by_cases hk : k < 32
  · by_cases h4 : k < 4
    · simp [hk, h4, Nat.not_le.mpr h4]
    · simp [hk, h4, Nat.not_lt.mp h4]
  · simp [BitVec.getLsbD_of_ge bar.flags k (by omega)]

theorem lt_four_gib (hs : s < 64) : BitVec.twoPow 64 s < 1#64 <<< 32 ↔ s < 32 := by
  have hgib : (1#64 <<< 32).toNat = 2 ^ 32 := rfl
  rw [BitVec.lt_def, BitVec.toNat_twoPow_of_lt hs, hgib]
  exact Nat.pow_lt_pow_iff_right (a := 2) (by decide)

theorem getLsbD_highRegister (hsize : bar.size = .twoPow 64 s) (hs : s < 64) (k : ℕ) :
    (highRegister bar).writable.getLsbD k = decide (32 ≤ s ∧ s ≤ k + 32 ∧ k < 32) := by
  rw [highRegister, hsize]
  dsimp only
  split_ifs with h
  · rw [lt_four_gib hs] at h
    have : ¬ 32 ≤ s := by omega
    simp [this]
  · rw [lt_four_gib hs] at h
    have h32 : 32 ≤ s := by omega
    rw [BitVec.getLsbD_setWidth, BitVec.getLsbD_ushiftRight, getLsbD_not_mask hs, Nat.add_comm 32]
    by_cases hk : k < 32
    · have : k + 32 < 64 := by omega
      simp [h32, hk, this]
    · simp [hk]

end Bits

end Pciem.Bar.Registers
