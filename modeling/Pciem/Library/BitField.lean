import Mathlib.Algebra.Order.Ring.Nat
import Mathlib.Tactic.SplitIfs
import Pciem.Library.ByteMemory

namespace Library.BitField

open ByteMemory

variable {v k m n a b : ℕ}

theorem toNat_field (w : BitVec v) (k n : ℕ) {mask : BitVec v} (hmask : mask.toNat = 2 ^ n - 1) :
    ((w >>> k) &&& mask).toNat = (w.extractLsb' k n).toNat := by
  rw [BitVec.toNat_and, hmask, Nat.and_two_pow_sub_one_eq_mod, BitVec.toNat_ushiftRight,
    BitVec.extractLsb'_toNat]

theorem toNat_mask (w : BitVec v) (n : ℕ) {mask : BitVec v} (hmask : mask.toNat = 2 ^ n - 1) :
    (w &&& mask).toNat = (w.extractLsb' 0 n).toNat := by
  have h := toNat_field w 0 n hmask
  rwa [BitVec.ushiftRight_zero] at h

theorem toNat_masked (w : BitVec v) (k n : ℕ) {mask low : BitVec v} (hmask : mask >>> k = low)
    (hlow : low.toNat = 2 ^ n - 1) :
    ((w &&& mask) >>> k).toNat = (w.extractLsb' k n).toNat := by
  rw [BitVec.ushiftRight_and_distrib, hmask, toNat_field w k n hlow]

theorem test_bit (w : BitVec v) (k : ℕ) {mask : BitVec v} (hmask : mask = BitVec.twoPow v k)
    (hk : k < v) {b : Bool} (h : w.extractLsb' k 1 = BitVec.ofBool b) :
    decide (w &&& mask ≠ 0) = b := by
  have hbit : w.getLsbD k = b := by
    have h0 := congrArg (fun x : BitVec 1 ↦ x.getLsbD 0) h
    simpa [BitVec.getLsbD_extractLsb'] using h0
  rw [hmask, BitVec.and_twoPow, hbit]
  cases b with
  | false => simp
  | true =>
    have hpos := Nat.two_pow_pos k
    have hlt := Nat.pow_lt_pow_right (by decide : 1 < 2) hk
    simp [BitVec.toNat_eq, Nat.mod_eq_of_lt hlt]

theorem test_msb (w : BitVec (n + 1)) {mask : BitVec (n + 1)}
    (hmask : mask = BitVec.twoPow (n + 1) n) : w &&& mask ≠ 0 ↔ w.msb = true := by
  have hbit : w.extractLsb' n 1 = BitVec.ofBool w.msb := by
    apply BitVec.eq_of_getLsbD_eq
    intro i hi
    obtain rfl : i = 0 := by omega
    simp [BitVec.msb_eq_getLsbD_last]
  have htest := test_bit w n hmask (Nat.lt_succ_self n) hbit
  rw [← htest, decide_eq_true_iff]

theorem toNat_append (x : BitVec m) (y : BitVec n) :
    (x ++ y).toNat = 2 ^ n * x.toNat + y.toNat := by
  rw [BitVec.toNat_append, ← Nat.shiftLeft_add_eq_or_of_lt y.isLt, Nat.shiftLeft_eq, Nat.mul_comm]

theorem and_bit (w : BitVec v) {mask : BitVec v} (hk : k < v) (hmask : mask = BitVec.twoPow v k) :
    w &&& mask = 0 ↔ w.getLsbD k = false := by
  have hne : BitVec.twoPow v k ≠ 0#v := fun h ↦ by
    have hpow := congrArg BitVec.toNat h
    rw [BitVec.toNat_twoPow_of_lt hk] at hpow
    exact absurd hpow (Nat.pow_pos (by decide)).ne'
  rw [hmask, BitVec.and_twoPow]
  cases hbit : w.getLsbD k with
  | false => exact iff_of_true rfl rfl
  | true => exact iff_of_false hne Bool.noConfusion

theorem extractLsb'_append_low (x : BitVec a) (y : BitVec b) (h : k + n ≤ b) :
    (x ++ y).extractLsb' k n = y.extractLsb' k n := by
  apply BitVec.eq_of_getLsbD_eq
  intro i hi
  simp only [BitVec.getLsbD_extractLsb', BitVec.getLsbD_append, show k + i < b by omega, if_true]

theorem extractLsb'_append_high (x : BitVec a) (y : BitVec b) (h : b ≤ k) :
    (x ++ y).extractLsb' k n = x.extractLsb' (k - b) n := by
  apply BitVec.eq_of_getLsbD_eq
  intro i hi
  simp only [BitVec.getLsbD_extractLsb', BitVec.getLsbD_append, show ¬ k + i < b by omega,
    if_false, show k + i - b = k - b + i by omega]

theorem extractLsb'_extractLsb' (w : BitVec v) (a : ℕ) (h : k + m ≤ n) :
    (w.extractLsb' a n).extractLsb' k m = w.extractLsb' (a + k) m := by
  apply BitVec.eq_of_getLsbD_eq
  intro i hi
  simp only [BitVec.getLsbD_extractLsb', hi, show k + i < n by omega, Nat.add_assoc]
  simp

theorem extractLsb'_append_extractLsb' (w : BitVec v) (k m n : ℕ) :
    w.extractLsb' (k + n) m ++ w.extractLsb' k n = w.extractLsb' k (m + n) := by
  apply BitVec.eq_of_getLsbD_eq
  intro i hi
  simp only [BitVec.getLsbD_append, BitVec.getLsbD_extractLsb', hi]
  split_ifs with hn
  · simp [hn]
  · simp [show i - n < m by omega, show k + n + (i - n) = k + i by omega]

theorem sshiftRight_shiftLeft (x : BitVec n) (hn : 0 < n) (h : n ≤ v) :
    (x.setWidth v <<< (v - n)).sshiftRight (v - n) = x.signExtend v := by
  have hmsb : (x.setWidth v <<< (v - n)).msb = x.msb := by
    rw [BitVec.msb_eq_getLsbD_last, BitVec.msb_eq_getLsbD_last, BitVec.getLsbD_shiftLeft,
      BitVec.getLsbD_setWidth, show v - 1 - (v - n) = n - 1 by omega]
    simp [show v - 1 < v by omega, show ¬ v - 1 < v - n by omega, show n - 1 < v by omega]
  apply BitVec.eq_of_getLsbD_eq
  intro i hi
  rw [BitVec.getLsbD_sshiftRight, BitVec.getLsbD_signExtend, hmsb, BitVec.getLsbD_shiftLeft,
    BitVec.getLsbD_setWidth, show v - n + i - (v - n) = i by omega]
  by_cases hin : i < n
  · simp [hi, hin, show ¬ v ≤ i by omega, show ¬ v - n + i < v - n by omega,
      show v - n + i < v by omega]
  · simp [hi, hin, show ¬ v - n + i < v by omega]

theorem signExtend_signExtend (x : BitVec n) (h : n ≤ m) (h' : m ≤ v) :
    (x.signExtend m).signExtend v = x.signExtend v := by
  apply BitVec.eq_of_toInt_eq
  rw [BitVec.toInt_signExtend_of_le h', BitVec.toInt_signExtend_of_le h,
    BitVec.toInt_signExtend_of_le (h.trans h')]

theorem setWidth_signExtend (x : BitVec n) (h : m ≤ v) :
    (x.signExtend v).setWidth m = x.signExtend m := by
  apply BitVec.eq_of_getLsbD_eq
  intro i hi
  simp only [BitVec.getLsbD_setWidth, BitVec.getLsbD_signExtend, hi, show i < v by omega]
  simp

/-- What is loaded does not depend on the width, where this has room for it. -/
theorem setWidth_load (mem : Memory) (p n : ℕ) (h : 8 * n ≤ v) :
    (load mem p n : BitVec (8 * n)).setWidth v = load mem p n := by
  symm
  rw [load_eq_iff (load mem p n : BitVec (8 * n)) rfl h]
  intro k hk
  rw [load_eq_compose, byte_compose _ (by simpa using hk) (by simp)]
  simp

end Library.BitField
