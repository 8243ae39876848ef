import Mathlib.Data.Nat.Notation

namespace Library.Circular

/-- How many steps around a ring of `n` slots lead from slot `a` to slot `b`. -/
def distance (n a b : ℕ) : ℕ := if a ≤ b then b - a else b + n - a

variable {n a b : ℕ}

theorem distance_self (n a : ℕ) : distance n a a = 0 := by
  unfold distance
  rw [if_pos (Nat.le_refl a), Nat.sub_self]

theorem eq_of_distance_eq_zero (ha : a < n) (h : distance n a b = 0) : a = b := by
  unfold distance at h
  split at h
  · omega
  · omega

theorem succ_mod (ha : a < n) : (a + 1) % n = if a + 1 = n then 0 else a + 1 := by
  split
  · rename_i h
    rw [h, Nat.mod_self]
  · exact Nat.mod_eq_of_lt (by omega)

theorem distance_succ_mod (ha : a < n) (hb : b < n) (hne : a ≠ b) :
    distance n ((a + 1) % n) b + 1 = distance n a b := by
  rw [succ_mod ha]
  unfold distance
  split
  · rename_i hlast
    rw [if_pos (Nat.zero_le b), if_neg (by omega)]
    omega
  · rename_i hlast
    rcases Nat.lt_or_ge a b with hlt | hge
    · rw [if_pos (Nat.succ_le_of_lt hlt), if_pos (Nat.le_of_lt hlt)]
      omega
    · rw [if_neg (by omega), if_neg (by omega)]
      omega

end Library.Circular
