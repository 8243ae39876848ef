import Pciem.Bar.Probe

namespace Pciem.Bar.Decode

open Kernel Config.Capabilities Config.Registers Config.Access Library.MaskedRegister
  Library.PowerOfTwo Registers Sizing Table Placement Probe

/-- The address that a BAR has in config space: the type in its low dword tells how to read
it. -/
def decodeDwords (lo hi : BitVec 32) : BitVec 64 :=
  if lo &&& pciBaseAddressSpaceIo ≠ 0 then (lo &&& pciBaseAddressIoMask).setWidth 64
  else if lo &&& pciBaseAddressMemType64 ≠ 0 then dwordsAddress lo hi
  else (lo &&& pciBaseAddressMemMask).setWidth 64

def decodeBar (v : PciemRootComplex) (i : ℕ) : BitVec 64 :=
  decodeDwords (confRead v (barPos i) 4).2
    (if i + 1 < pciStdNumBars then (confRead v (barPos (i + 1)) 4).2 else 0)

/-- What a register stores, which the host may have written back after a read of it. -/
def held (normalised : Bool) (r : Register 32) (b : BitVec 32) : BitVec 32 :=
  if normalised then r.write b else b

/-- The low dword of the BAR shows the lower half of the address. -/
def LowAgrees (normalised : Bool) (bar : PciemBarInfo) (phys : BitVec 64) : Prop :=
  if bar.flags &&& pciBaseAddressSpaceIo = 0 then
    held normalised (lowRegister bar) (lowDword phys) &&& pciBaseAddressMemMask = lowDword phys
  else
    (lowRegister bar).read (held normalised (lowRegister bar) (lowDword phys)) &&&
      pciBaseAddressIoMask = lowDword phys

section Decode

variable {a b : BitVec 64} {lo hi : BitVec 32}

theorem eq_iff_dwords : a = b ↔ lowDword a = lowDword b ∧ highDword a = highDword b := by
  constructor
  · rintro rfl
    exact ⟨rfl, rfl⟩
  · rintro ⟨hlow, hhigh⟩
    apply BitVec.eq_of_getLsbD_eq
    intro k hk
    rcases Nat.lt_or_ge k 32 with h32 | h32
    · have h := congrArg (·.getLsbD k) hlow
      simpa [lowDword, BitVec.getLsbD_setWidth, h32] using h
    · have h := congrArg (·.getLsbD (k - 32)) hhigh
      have hlt : k - 32 < 32 := by omega
      have hsum : 32 + (k - 32) = k := by omega
      simpa [highDword, BitVec.getLsbD_setWidth, hlt, hsum] using h

theorem lowDword_dwordsAddress (lo hi : BitVec 32) :
    lowDword (dwordsAddress lo hi) = lo &&& pciBaseAddressMemMask := by
  apply BitVec.eq_of_getLsbD_eq
  intro k hk
  rw [getLsbD_lowDword, getLsbD_dwordsAddress, if_pos hk, BitVec.getLsbD_and, getLsbD_memMask]
  simp [hk]

theorem highDword_dwordsAddress (lo hi : BitVec 32) : highDword (dwordsAddress lo hi) = hi := by
  apply BitVec.eq_of_getLsbD_eq
  intro k hk
  rw [highDword, BitVec.getLsbD_setWidth, BitVec.getLsbD_ushiftRight, getLsbD_dwordsAddress,
    if_neg (by omega)]
  simp [hk]

theorem lowDword_setWidth (lo : BitVec 32) : lowDword (lo.setWidth 64) = lo := by
  rw [lowDword, BitVec.setWidth_setWidth_of_le _ (by decide), BitVec.setWidth_eq]

theorem highDword_setWidth (lo : BitVec 32) : highDword (lo.setWidth 64) = 0 := by
  rw [highDword_eq_zero_iff, BitVec.lt_def, BitVec.toNat_setWidth_of_le (by decide)]
  exact lo.isLt

theorem and_spaceIo_iff (x : BitVec 32) :
    x &&& pciBaseAddressSpaceIo = 0 ↔ x.getLsbD 0 = false :=
  and_twoPow_eq_zero_iff (s := 0) (by decide)

theorem and_type64_iff (x : BitVec 32) :
    x &&& pciBaseAddressMemType64 = 0 ↔ x.getLsbD 2 = false :=
  and_twoPow_eq_zero_iff (s := 2) (by decide)

variable {bar : PciemBarInfo} {phys : BitVec 64} {normalised : Bool}

theorem held_le (r : Register 32) {x : BitVec 32} {k : ℕ} (h : x.getLsbD k = false) :
    (held normalised r x).getLsbD k = false := by
  rw [held]
  split_ifs
  · rw [Register.write, BitVec.getLsbD_and, h, Bool.false_and]
  · exact h

theorem read_and_memMask (x : BitVec 32) :
    (lowRegister bar).read x &&& pciBaseAddressMemMask = x &&& pciBaseAddressMemMask := by
  apply BitVec.eq_of_getLsbD_eq
  intro k hk
  rw [Register.read, BitVec.getLsbD_and, BitVec.getLsbD_or, getLsbD_fixed, BitVec.getLsbD_and,
    getLsbD_memMask]
  by_cases h4 : 4 ≤ k
  · simp [Nat.not_lt.mpr h4]
  · simp [h4]

/-- The type bits of the low dword, where nothing is stored below bit 4. -/
theorem getLsbD_read (x : BitVec 32) {k : ℕ} (hk : k < 4) :
    ((lowRegister bar).read x).getLsbD k = (x.getLsbD k || bar.flags.getLsbD k) := by
  rw [Register.read, BitVec.getLsbD_or, getLsbD_fixed]
  simp [hk]

/-- A low dword without address bits below bit 4 has the type of the BAR. -/
theorem decodeDwords_of_clear {x : BitVec 32} (hio : bar.flags &&& pciBaseAddressSpaceIo = 0)
    (hx : ∀ k < 4, x.getLsbD k = false) (hi : BitVec 32) :
    lowDword (decodeDwords ((lowRegister bar).read x) hi) = x &&& pciBaseAddressMemMask ∧
      highDword (decodeDwords ((lowRegister bar).read x) hi) =
        if Is64 bar.flags then hi else 0 := by
  have hmem : ¬ ((lowRegister bar).read x &&& pciBaseAddressSpaceIo ≠ 0) := by
    rw [not_not, and_spaceIo_iff, getLsbD_read x (by decide), hx 0 (by decide), Bool.false_or,
      ← and_spaceIo_iff, hio]
  have htype : ((lowRegister bar).read x &&& pciBaseAddressMemType64 ≠ 0) ↔ Is64 bar.flags := by
    rw [Is64, and_iff_right hio, ne_eq, ne_eq, and_type64_iff, and_type64_iff,
      getLsbD_read x (by decide), hx 2 (by decide), Bool.false_or]
  rw [decodeDwords, if_neg hmem]
  simp only [htype]
  split_ifs
  · rw [lowDword_dwordsAddress, highDword_dwordsAddress, read_and_memMask]
    exact ⟨rfl, rfl⟩
  · rw [lowDword_setWidth, highDword_setWidth, read_and_memMask]
    exact ⟨rfl, rfl⟩

/-- A memory BAR that decodes to an address holds its lower half above bit 4. -/
theorem lowDword_of_decode {x : BitVec 32} (hio : bar.flags &&& pciBaseAddressSpaceIo = 0)
    (hx : (lowDword phys).getLsbD 0 = false → x.getLsbD 0 = false)
    (h : decodeDwords ((lowRegister bar).read x) hi = phys) :
    x &&& pciBaseAddressMemMask = lowDword phys := by
  rw [decodeDwords] at h
  split_ifs at h with hlo h64
  · -- an I/O address has bit 0 clear, so that nothing can have set the bit in the dword
    have hclear : (lowDword phys).getLsbD 0 = false := by
      have hmask : pciBaseAddressIoMask.getLsbD 0 = false := by decide
      rw [← h, lowDword_setWidth, BitVec.getLsbD_and, hmask, Bool.and_false]
    rw [ne_eq, and_spaceIo_iff, getLsbD_read x (by decide), hx hclear, Bool.false_or,
      ← and_spaceIo_iff] at hlo
    exact absurd hio hlo
  · rw [← h, lowDword_dwordsAddress, read_and_memMask]
  · rw [← h, lowDword_setWidth, read_and_memMask]

/-- When the dwords of a BAR decode to the address that was stored. -/
theorem decode_iff : decodeDwords ((lowRegister bar).read
      (held normalised (lowRegister bar) (lowDword phys))) hi = phys ↔
    LowAgrees normalised bar phys ∧ (if Is64 bar.flags then hi else 0) = highDword phys := by
  by_cases hio : bar.flags &&& pciBaseAddressSpaceIo = 0
  · rw [LowAgrees, if_pos hio]
    by_cases hagree : held normalised (lowRegister bar) (lowDword phys) &&&
        pciBaseAddressMemMask = lowDword phys
    · have hclear (k : ℕ) (hk : k < 4) :
          (held normalised (lowRegister bar) (lowDword phys)).getLsbD k = false := by
        apply held_le
        rw [← hagree, BitVec.getLsbD_and, getLsbD_memMask, decide_eq_false (by omega),
          Bool.and_false]
      obtain ⟨hlow, hhigh⟩ := decodeDwords_of_clear hio hclear hi
      rw [eq_iff_dwords, hlow, hhigh]
    · exact iff_of_false (fun h ↦ hagree (lowDword_of_decode hio (held_le _) h))
        fun h ↦ hagree h.1
  · have hbit : bar.flags.getLsbD 0 = true := by
      rw [and_spaceIo_iff] at hio
      exact Bool.eq_true_of_not_eq_false hio
    have hlo : (lowRegister bar).read (held normalised (lowRegister bar) (lowDword phys)) &&&
        pciBaseAddressSpaceIo ≠ 0 := by
      rw [ne_eq, and_spaceIo_iff, getLsbD_read _ (by decide), hbit, Bool.or_true]
      exact Bool.noConfusion
    rw [decodeDwords, if_pos hlo, eq_iff_dwords, lowDword_setWidth, highDword_setWidth, LowAgrees,
      if_neg hio, if_neg fun h64 : Is64 bar.flags ↦ hio h64.1]

end Decode

end Pciem.Bar.Decode
