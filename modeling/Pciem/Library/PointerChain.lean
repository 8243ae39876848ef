import Mathlib.Data.Nat.Notation

namespace Library.PointerChain

/-- Following `next` from `p` visits exactly the given places and stops at 0. -/
inductive Chain (next : ℕ → ℕ) : ℕ → List ℕ → Prop
  | stop : Chain next 0 []
  | visit {p : ℕ} {ps : List ℕ} : p ≠ 0 → Chain next (next p) ps → Chain next p (p :: ps)

variable {next next' : ℕ → ℕ} {p : ℕ} {ps qs : List ℕ}

theorem Chain.start_eq (h : Chain next p ps) : p = ps.headD 0 := by
  cases h with
  | stop => rfl
  | visit => rfl

theorem Chain.unique (hp : Chain next p ps) (hq : Chain next p qs) : ps = qs := by
  induction hp generalizing qs with
  | stop =>
    cases hq with
    | stop => rfl
    | visit h _ => exact absurd rfl h
  | visit hne _ ih =>
    cases hq with
    | stop => exact absurd rfl hne
    | visit _ hq => rw [ih hq]

theorem Chain.zero_notMem (h : Chain next p ps) : 0 ∉ ps := by
  induction h with
  | stop => exact List.not_mem_nil
  | visit hne _ ih =>
    intro hmem
    rcases List.mem_cons.mp hmem with he | ht
    · exact hne he.symm
    · exact ih ht

/-- The walk depends on the pointers of the places it visits only. -/
theorem Chain.congr (h : Chain next p ps) (hn : ∀ q ∈ ps, next' q = next q) :
    Chain next' p ps := by
  induction h with
  | stop => exact .stop
  | @visit p ps hne _ ih =>
    refine .visit hne ?_
    rw [hn p List.mem_cons_self]
    exact ih fun q hq ↦ hn q (List.mem_cons_of_mem p hq)

end Library.PointerChain
