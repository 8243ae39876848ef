import Mathlib.Data.Nat.Notation
import Mathlib.Tactic.TypeStar

namespace Library.Loop

variable {σ ρ : Type*} (step : σ → σ ⊕ ρ)

/-- The result of a loop, if it has one after at most `n` iterations. -/
def run : ℕ → σ → Option ρ
  | 0, _ => none
  | n + 1, s =>
    match step s with
    | .inl t => run n t
    | .inr r => some r

def Terminates (s : σ) : Prop := ∃ n r, run step n s = some r

/-- The states in which an iteration begins. -/
inductive Visits (s : σ) : σ → Prop
  | start : Visits s s
  | next {t u : σ} : Visits s t → step t = .inl u → Visits s u

variable {step} {s t u : σ} {r : ρ}

theorem run_of_inl (h : step s = .inl t) (n : ℕ) : run step (n + 1) s = run step n t := by
  rw [run, h]

theorem run_of_inr (h : step s = .inr r) (n : ℕ) : run step (n + 1) s = some r := by
  rw [run, h]

/-- How many iterations are allowed does not matter for the result. -/
theorem run_unique {m n : ℕ} {r r' : ρ} (h : run step m s = some r)
    (h' : run step n s = some r') : r = r' := by
  induction m generalizing s n with
  | zero => cases h
  | succ m ih =>
    cases n with
    | zero => cases h'
    | succ n =>
      cases hstep : step s with
      | inl t =>
        rw [run_of_inl hstep] at h h'
        exact ih h h'
      | inr q =>
        rw [run_of_inr hstep, Option.some_inj] at h h'
        exact h.symm.trans h'

theorem terminates_of_inr (h : step s = .inr r) : Terminates step s := ⟨1, r, run_of_inr h 0⟩

theorem terminates_iff_of_inl (h : step s = .inl t) :
    Terminates step s ↔ Terminates step t := by
  constructor
  · rintro ⟨n, r, hrun⟩
    cases n with
    | zero => cases hrun
    | succ n => exact ⟨n, r, run_of_inl h n ▸ hrun⟩
  · rintro ⟨n, r, hrun⟩
    exact ⟨n + 1, r, (run_of_inl h n).trans hrun⟩

theorem Visits.invariant {I : σ → Prop} (hs : I s)
    (hstep : ∀ t u, Visits step s t → I t → step t = .inl u → I u) (h : Visits step s t) :
    I t := by
  induction h with
  | start => exact hs
  | next hv hn ih => exact hstep _ _ hv ih hn

theorem Visits.head (h : step s = .inl t) (hv : Visits step t u) : Visits step s u := by
  induction hv with
  | start => exact .next .start h
  | next _ hn ih => exact ih.next hn

theorem Terminates.of_visits (hs : Terminates step s) (h : Visits step s t) :
    Terminates step t := by
  induction h with
  | start => exact hs
  | next _ hn ih => exact (terminates_iff_of_inl hn).mp ih

/-- A loop that never leaves a set of states whose iterations all go on does not end. -/
theorem not_terminates_of_forever {I : σ → Prop} (hs : I s)
    (hstep : ∀ t, I t → ∃ u, step t = .inl u ∧ I u) : ¬ Terminates step s := by
  rintro ⟨n, r, hrun⟩
  induction n generalizing s with
  | zero => cases hrun
  | succ n ih =>
    obtain ⟨t, ht, hI⟩ := hstep s hs
    exact ih hI ((run_of_inl ht n).symm.trans hrun)

end Library.Loop
