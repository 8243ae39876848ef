import Pciem.Library.BoundedChannel

namespace Library.TaggedRing

open Library.BoundedChannel

/-- The tag of entry `j` in a ring of `n` slots: it changes from one pass to the next. -/
def tag (n j : ℕ) : Bool := j / n % 2 == 0

/-- Where the next entry is written or looked for, and the tag of the present pass. -/
structure Cursor where
  slot : ℕ
  tag : Bool

def cursorAt (n j : ℕ) : Cursor := ⟨j % n, tag n j⟩

def Cursor.next (n : ℕ) (c : Cursor) : Cursor :=
  if c.slot + 1 = n then ⟨0, !c.tag⟩ else ⟨c.slot + 1, c.tag⟩

section Tags

variable {n j : ℕ}

theorem tag_of_lt (h : j < n) : tag n j = true := by
  rw [tag, Nat.div_eq_of_lt h]
  rfl

theorem succ_even (q : ℕ) : ((q + 1) % 2 == 0) = !(q % 2 == 0) := by
  rw [Bool.eq_iff_iff, Bool.not_eq_true', beq_iff_eq, beq_eq_false_iff_ne]
  omega

/-- An entry and the one that takes its slot in the next pass. -/
theorem tag_add_self (hn : 0 < n) (j : ℕ) : tag n (j + n) = !tag n j := by
  unfold tag
  rw [Nat.add_div_right j hn]
  exact succ_even (j / n)

theorem succ_mod_of_eq (h : j % n + 1 = n) : (j + 1) % n = 0 ∧ (j + 1) / n = j / n + 1 := by
  have hdiv := Nat.div_add_mod j n
  have hsucc : j + 1 = n * (j / n + 1) := by
    rw [Nat.mul_succ]
    omega
  have hpos : 0 < n := by omega
  rw [hsucc]
  exact ⟨Nat.mul_mod_right n _, Nat.mul_div_cancel_left _ hpos⟩

theorem succ_mod_of_ne (hn : 0 < n) (h : j % n + 1 ≠ n) :
    (j + 1) % n = j % n + 1 ∧ (j + 1) / n = j / n := by
  have hdiv := Nat.div_add_mod j n
  have hlt := Nat.mod_lt j hn
  have hsucc : j + 1 = j % n + 1 + n * (j / n) := by omega
  constructor
  · conv_lhs => rw [hsucc]
    rw [Nat.add_mul_mod_self_left, Nat.mod_eq_of_lt (by omega)]
  · conv_lhs => rw [hsucc]
    rw [Nat.add_mul_div_left _ _ hn, Nat.div_eq_of_lt (by omega), Nat.zero_add]

theorem next_cursorAt (hn : 0 < n) (j : ℕ) : (cursorAt n j).next n = cursorAt n (j + 1) := by
  unfold cursorAt Cursor.next
  by_cases h : j % n + 1 = n
  · obtain ⟨hmod, hdiv⟩ := succ_mod_of_eq h
    rw [if_pos h, hmod]
    unfold tag
    rw [hdiv, succ_even]
  · obtain ⟨hmod, hdiv⟩ := succ_mod_of_ne hn h
    rw [if_neg h, hmod]
    unfold tag
    rw [hdiv]

end Tags

variable {α : Type*} {n : ℕ} {slot slot' : ℕ → α} {tagOf : α → Bool} {log : List α} {a : α}

/-- The slots have the last `n` entries of the log, and show by their tags that the entries
after these are not there. -/
structure Shows (n : ℕ) (slot : ℕ → α) (tagOf : α → Bool) (log : List α) : Prop where
  held : ∀ j, ∀ h : j < log.length, log.length ≤ j + n → slot (j % n) = log[j]
  tagged : ∀ j, ∀ h : j < log.length, tagOf log[j] = tag n j
  absent : ∀ j, log.length ≤ j → j < log.length + n → tagOf (slot (j % n)) = !tag n j

theorem shows_nil (h : ∀ i < n, tagOf (slot i) = false) : Shows n slot tagOf [] where
  held _ hj := absurd hj (Nat.not_lt_zero _)
  tagged _ hj := absurd hj (Nat.not_lt_zero _)
  absent j _ hj := by
    have hlt : j < n := by simpa using hj
    rw [Nat.mod_eq_of_lt hlt, h j hlt, tag_of_lt hlt]
    rfl

theorem Shows.congr (h : Shows n slot tagOf log) (hslot : ∀ i < n, slot' i = slot i) :
    Shows n slot' tagOf log where
  held j hj hlo := by
    rw [hslot _ (Nat.mod_lt j (by omega))]
    exact h.held j hj hlo
  tagged := h.tagged
  absent j hlo hj := by
    rw [hslot _ (Nat.mod_lt j (by omega))]
    exact h.absent j hlo hj

theorem Shows.post (hn : 0 < n) (h : Shows n slot tagOf log) (ha : slot' (log.length % n) = a)
    (htag : tagOf a = tag n log.length)
    (hother : ∀ i < n, i ≠ log.length % n → slot' i = slot i) :
    Shows n slot' tagOf (log ++ [a]) where
  held j hj hlo := by
    rw [List.length_append, List.length_singleton] at hj hlo
    rcases Nat.lt_or_ge j log.length with hlt | hge
    · have hne : j % n ≠ log.length % n := mod_ne_of_lt hlt (by omega)
      rw [List.getElem_append_left hlt, hother _ (Nat.mod_lt j hn) hne]
      exact h.held j hlt (by omega)
    · have hj : j = log.length := by omega
      subst hj
      rw [ha, List.getElem_append_right (le_refl _)]
      simp
  tagged j hj := by
    rw [List.length_append, List.length_singleton] at hj
    rcases Nat.lt_or_ge j log.length with hlt | hge
    · rw [List.getElem_append_left hlt]
      exact h.tagged j hlt
    · have hj : j = log.length := by omega
      subst hj
      simpa using htag
  absent j hlo hj := by
    rw [List.length_append, List.length_singleton] at hlo hj
    rcases Nat.lt_or_ge j (log.length + n) with hlt | hge
    · have hne : log.length % n ≠ j % n := mod_ne_of_lt (by omega) hlt
      rw [hother _ (Nat.mod_lt j hn) hne.symm]
      exact h.absent j (by omega) hlt
    · have hj : j = log.length + n := by omega
      subst hj
      rw [Nat.add_mod_right, ha, htag, tag_add_self hn, Bool.not_not]

/-- A reader at most `n` entries behind tells by the tag whether its next entry is there. -/
theorem Shows.tag_eq_iff (h : Shows n slot tagOf log) {j : ℕ} (hlo : j ≤ log.length)
    (hhi : log.length ≤ j + n) (hn : 0 < n) :
    tagOf (slot (j % n)) = tag n j ↔ j < log.length := by
  rcases Nat.lt_or_ge j log.length with hlt | hge
  · rw [h.held j hlt hhi, h.tagged j hlt]
    exact iff_of_true rfl hlt
  · rw [h.absent j hge (by omega)]
    refine iff_of_false ?_ (by omega)
    cases tag n j with
    | true => exact Bool.false_ne_true
    | false => exact Bool.false_ne_true.symm

end Library.TaggedRing
