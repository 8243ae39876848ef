import Mathlib.Data.List.Basic
import Mathlib.Tactic.TypeStar

namespace Library.KeyedList

variable {α κ : Type*} [DecidableEq κ] (key : α → κ)

/-- The list without the first entry that has the key. -/
def remove (k : κ) (l : List α) : List α := l.eraseP fun a ↦ key a = k

/-- No two entries have the same key. -/
def Unique (l : List α) : Prop := l.Pairwise fun a b ↦ key a ≠ key b

variable {key} {l : List α}

theorem remove_eq_filter (h : Unique key l) (k : κ) :
    remove key k l = l.filter fun a ↦ key a ≠ k := by
  induction l with
  | nil => rfl
  | cons a l ih =>
    rw [Unique, List.pairwise_cons] at h
    have hrest := ih h.2
    by_cases ha : key a = k
    · have hnone : ∀ b ∈ l, key b ≠ k := fun b hb heq ↦ h.1 b hb (ha.trans heq.symm)
      have hall : l.filter (fun b ↦ key b ≠ k) = l := by simpa using hnone
      rw [remove, List.eraseP_cons_of_pos (by simpa using ha), List.filter_cons_of_neg (by simpa),
        hall]
    · simpa [remove, ha] using hrest

omit [DecidableEq κ] in
theorem Unique.filter (h : Unique key l) (p : α → Bool) : Unique key (l.filter p) :=
  List.Pairwise.filter p h

/-- With unique keys it does not matter whether the entry is taken out of a list or of what a
filter leaves of it. -/
theorem remove_filter (h : Unique key l) (p : α → Bool) (k : κ) :
    remove key k (l.filter p) = (remove key k l).filter p := by
  rw [remove_eq_filter (h.filter p), remove_eq_filter h]
  simp only [List.filter_filter]
  congr 1
  funext a
  exact Bool.and_comm _ _

theorem mem_remove (h : Unique key l) {k : κ} {a : α} :
    a ∈ remove key k l ↔ a ∈ l ∧ key a ≠ k := by
  rw [remove_eq_filter h, List.mem_filter]
  simp

theorem remove_map {β : Type*} (f : β → α) (k : κ) (bs : List β) :
    remove key k (bs.map f) = (KeyedList.remove (key ∘ f) k bs).map f := by
  simp only [KeyedList.remove, List.eraseP_map]
  rfl

/-- Of entries that exclude each other at most one is found. -/
theorem find?_of_exclusive {p : α → Prop} [DecidablePred p]
    (h : l.Pairwise fun a b ↦ p a → ¬ p b) {a : α} (ha : a ∈ l) (hp : p a) :
    l.find? (fun b ↦ p b) = some a ∧ l.countP (fun b ↦ p b) = 1 := by
  induction l with
  | nil => cases ha
  | cons b l ih =>
    rw [List.pairwise_cons] at h
    rcases List.mem_cons.mp ha with rfl | ha'
    · have hnone : ∀ b ∈ l, ¬ p b := fun b hb ↦ h.1 b hb hp
      simpa [hp, List.countP_eq_zero] using hnone
    · have hb : ¬ p b := fun hb ↦ h.1 a ha' hb hp
      simpa [hb] using ih h.2 ha'

end Library.KeyedList
