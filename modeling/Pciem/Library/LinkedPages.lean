import Mathlib.Data.Nat.Notation
import Mathlib.Tactic.TypeStar

namespace Library.LinkedPages

variable {A : Type*} (slots : A → ℕ) (slot : A → ℕ → A)

/-- The `n` entries of a list from slot `i` of the page at `c` on, and the pages it goes on in:
the last slot of a page is an entry where only one is wanted, and else the place of the next
page. -/
inductive Listed : A → ℕ → ℕ → List A → List A → Prop
  | done (c : A) (i : ℕ) : Listed c i 0 [] []
  | link {c : A} {i n : ℕ} {entries pages : List A} : i + 1 = slots c →
      Listed (slot c i) 0 (n + 2) entries pages →
      Listed c i (n + 2) entries (slot c i :: pages)
  | entry {c : A} {i n : ℕ} {entries pages : List A} : i + 1 < slots c ∨ i + 1 = slots c ∧ n = 0 →
      Listed c (i + 1) n entries pages → Listed c i (n + 1) (slot c i :: entries) pages

variable {slots slot}

theorem Listed.length {c : A} {i n : ℕ} {entries pages : List A}
    (h : Listed slots slot c i n entries pages) : entries.length = n := by
  induction h with
  | done => rfl
  | link _ _ ih => exact ih
  | entry _ _ ih => rw [List.length_cons, ih]

end Library.LinkedPages
