import Mathlib.Data.Nat.Bits
import Mathlib.Algebra.Order.Ring.Nat

namespace Library.PowerOfTwo

open BitVec

variable {w s : ℕ} {x : BitVec w}

/-- The test of C code for a power of two. -/
def IsPowerOfTwo (x : BitVec w) : Prop := x ≠ 0 ∧ x &&& (x - 1) = 0

instance (x : BitVec w) : Decidable (IsPowerOfTwo x) := inferInstanceAs (Decidable (_ ∧ _))

theorem twoPow_ne_zero (hs : s < w) : twoPow w s ≠ 0 := by
  intro h
  have hnat := congrArg BitVec.toNat h
  rw [toNat_twoPow_of_lt hs] at hnat
  exact Nat.ne_of_gt (Nat.two_pow_pos s) hnat

theorem toNat_sub_one (hx : x ≠ 0) : (x - 1).toNat = x.toNat - 1 := by
  have hpos : 0 < x.toNat := by
    rw [Nat.pos_iff_ne_zero]
    exact fun h ↦ hx (BitVec.eq_of_toNat_eq (by simpa using h))
  have hw : w ≠ 0 := by
    rintro rfl
    exact hx (Subsingleton.elim _ _)
  have hone : (1 : BitVec w).toNat = 1 := Nat.mod_eq_of_lt (Nat.one_lt_two_pow hw)
  rw [BitVec.toNat_sub_of_le (by rw [BitVec.le_def, hone]; exact hpos), hone]

theorem isPowerOfTwo_iff : IsPowerOfTwo x ↔ ∃ s < w, x = twoPow w s := by
  constructor
  · rintro ⟨hne, hand⟩
    have hnat : x.toNat &&& (x.toNat - 1) = 0 := by
      rw [← toNat_sub_one hne, ← BitVec.toNat_and, hand]
      rfl
    have hne' : x.toNat ≠ 0 := fun h ↦ hne (BitVec.eq_of_toNat_eq (by simpa using h))
    obtain ⟨s, hs⟩ := (Nat.and_sub_one_eq_zero_iff_isPowerOfTwo hne').mp hnat
    have hlt : s < w := by
      have := x.isLt
      rw [hs] at this
      exact (Nat.pow_lt_pow_iff_right (by decide)).mp this
    exact ⟨s, hlt, BitVec.eq_of_toNat_eq (by rw [hs, toNat_twoPow_of_lt hlt])⟩
  · rintro ⟨s, hs, rfl⟩
    have hne := twoPow_ne_zero hs
    refine ⟨hne, BitVec.eq_of_toNat_eq ?_⟩
    rw [BitVec.toNat_and, toNat_sub_one hne, toNat_twoPow_of_lt hs,
      Nat.and_two_pow_sub_one_eq_mod, Nat.mod_self]
    rfl

theorem toNat_mask (hs : s < w) : (twoPow w s - 1).toNat = 2 ^ s - 1 := by
  rw [toNat_sub_one (twoPow_ne_zero hs), toNat_twoPow_of_lt hs]

theorem getLsbD_mask (hs : s < w) (j : ℕ) : (twoPow w s - 1).getLsbD j = decide (j < s) := by
  rw [← BitVec.testBit_toNat, toNat_mask hs, Nat.testBit_two_pow_sub_one]

/-- The bits of an address that select a block of `2 ^ s`. -/
theorem getLsbD_not_mask (hs : s < w) (j : ℕ) :
    (~~~(twoPow w s - 1)).getLsbD j = decide (s ≤ j ∧ j < w) := by
  rw [BitVec.getLsbD_not, getLsbD_mask hs]
  by_cases hj : j < w <;> by_cases hjs : j < s <;> simp [hj, hjs]
  omega

theorem toNat_and_mask (x : BitVec w) (hs : s < w) :
    (x &&& (twoPow w s - 1)).toNat = x.toNat % 2 ^ s := by
  rw [BitVec.toNat_and, toNat_mask hs, Nat.and_two_pow_sub_one_eq_mod]

theorem toNat_and_not_mask (x : BitVec w) (hs : s < w) :
    (x &&& ~~~(twoPow w s - 1)).toNat = x.toNat / 2 ^ s * 2 ^ s := by
  apply Nat.eq_of_testBit_eq
  intro j
  rw [BitVec.testBit_toNat, BitVec.getLsbD_and, getLsbD_not_mask hs, Nat.testBit_mul_two_pow,
    Nat.testBit_div_two_pow]
  rcases Nat.lt_or_ge j w with hj | hj
  · by_cases hsj : s ≤ j
    · rw [Nat.sub_add_cancel hsj, BitVec.testBit_toNat]
      simp [hj, hsj]
    · simp [hsj]
  · have hx : x.getLsbD j = false := BitVec.getLsbD_of_ge x j hj
    by_cases hsj : s ≤ j
    · rw [Nat.sub_add_cancel hsj, BitVec.testBit_toNat]
      simp [hj]
    · simp [hsj, hx]

theorem and_twoPow_eq_zero_iff (hs : s < w) : x &&& twoPow w s = 0 ↔ x.getLsbD s = false := by
  rw [BitVec.and_twoPow]
  cases x.getLsbD s with
  | true => exact iff_of_false (twoPow_ne_zero hs) Bool.noConfusion
  | false => exact iff_of_true rfl rfl

/-- Bit `k` is the lowest one that is set. -/
def LowestSetBit (x : BitVec w) (k : ℕ) : Prop :=
  x.getLsbD k = true ∧ ∀ j < k, x.getLsbD j = false

end Library.PowerOfTwo
