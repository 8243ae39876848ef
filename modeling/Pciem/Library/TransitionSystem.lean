import Mathlib.Logic.Relation

namespace Library.TransitionSystem

variable {σ τ α : Type*}

/-- A system is given by its initial states and by the steps that any of its
parties may take next; a run interleaves these steps in any order. -/
structure System (σ : Type*) where
  init : σ → Prop
  next : σ → σ → Prop

inductive System.Reachable (S : System σ) : σ → Prop
  | init {s : σ} : S.init s → S.Reachable s
  | step {s t : σ} : S.Reachable s → S.next s t → S.Reachable t

theorem System.Reachable.invariant {S : System σ} {I : σ → Prop}
    (hinit : ∀ s, S.init s → I s) (hnext : ∀ s t, I s → S.next s t → I t)
    {s : σ} (h : S.Reachable s) : I s := by
  induction h with
  | init h => exact hinit _ h
  | step _ hs ih => exact hnext _ _ ih hs

theorem System.Reachable.of_reflTransGen {S : System σ} {s t : σ} (h : S.Reachable s)
    (hr : Relation.ReflTransGen S.next s t) : S.Reachable t := by
  induction hr with
  | refl => exact h
  | tail _ hs ih => exact ih.step hs

/-- Every concrete step is matched by an abstract step or leaves the abstract
state alone. The proof of a step may use that the concrete state is reachable. -/
structure Refinement (C : System σ) (A : System τ) (f : σ → τ) : Prop where
  init : ∀ s, C.init s → A.init (f s)
  step : ∀ s t, C.Reachable s → C.next s t → A.next (f s) (f t) ∨ f t = f s

theorem Refinement.reachable {C : System σ} {A : System τ} {f : σ → τ}
    (h : Refinement C A f) {s : σ} (hs : C.Reachable s) : A.Reachable (f s) := by
  induction hs with
  | init hi => exact .init (h.init _ hi)
  | @step s t hr hn ih =>
    rcases h.step s t hr hn with ha | he
    · exact ih.step ha
    · exact he ▸ ih

end Library.TransitionSystem
