import Mathlib.Tactic.TypeStar

namespace Library.Replay

variable {σ α : Type*} (step : σ → α → σ)

/-- The machine is in a state of `P` before, during and after the replay of the list. -/
def Always (P : σ → Prop) : σ → List α → Prop
  | s, [] => P s
  | s, a :: as => P s ∧ Always P (step s a) as

/-- Each action of the list meets `C` in the state it is taken in. -/
def Each (C : σ → α → Prop) : σ → List α → Prop
  | _, [] => True
  | s, a :: as => C s a ∧ Each C (step s a) as

variable {step}

instance {C : σ → α → Prop} [∀ s a, Decidable (C s a)] :
    (s : σ) → (as : List α) → Decidable (Each step C s as)
  | _, [] => inferInstanceAs (Decidable True)
  | s, a :: as =>
    have : Decidable (Each step C (step s a) as) := instDecidableEach (step s a) as
    inferInstanceAs (Decidable (C s a ∧ Each step C (step s a) as))

theorem Always.head {P : σ → Prop} {s : σ} {as : List α} (h : Always step P s as) : P s := by
  cases as with
  | nil => exact h
  | cons a as => exact h.1

theorem Each.always {C : σ → α → Prop} {I : σ → Prop}
    (hstep : ∀ s a, I s → C s a → I (step s a)) {s : σ} {as : List α} (hs : I s)
    (h : Each step C s as) : Always step I s as := by
  induction as generalizing s with
  | nil => exact hs
  | cons a as ih => exact ⟨hs, ih (hstep s a hs h.1) h.2⟩

theorem Each.of_append {C : σ → α → Prop} {s : σ} {as bs : List α}
    (h : Each step C s (as ++ bs)) : Each step C (as.foldl step s) bs := by
  induction as generalizing s with
  | nil => exact h
  | cons a as ih => exact ih h.2

theorem Each.of_prefix {C : σ → α → Prop} {s : σ} {as bs : List α}
    (h : Each step C s (as ++ bs)) : Each step C s as := by
  induction as generalizing s with
  | nil => trivial
  | cons a as ih => exact ⟨h.1, ih h.2⟩

theorem Always.last {P : σ → Prop} {s : σ} {as : List α} (h : Always step P s as) :
    P (as.foldl step s) := by
  induction as generalizing s with
  | nil => exact h
  | cons a as ih => exact ih h.2

theorem Always.each {C : σ → α → Prop} {P : σ → Prop} (hPC : ∀ s a, P s → C s a) {s : σ}
    {as : List α} (h : Always step P s as) : Each step C s as := by
  induction as generalizing s with
  | nil => trivial
  | cons a as ih => exact ⟨hPC s a h.1, ih h.2⟩

theorem always_of_kept {I : σ → Prop} (hstep : ∀ s a, I s → I (step s a)) {s : σ} (hs : I s)
    (as : List α) : Always step I s as := by
  induction as generalizing s with
  | nil => exact hs
  | cons a as ih => exact ⟨hs, ih (hstep s a hs)⟩

theorem Each.and_forall {C : σ → α → Prop} {Q : α → Prop} {s : σ} {as : List α}
    (hQ : ∀ a ∈ as, Q a) (h : Each step C s as) : Each step (fun s a ↦ Q a ∧ C s a) s as := by
  induction as generalizing s with
  | nil => trivial
  | cons a as ih =>
    exact ⟨⟨hQ a List.mem_cons_self, h.1⟩, ih (fun b hb ↦ hQ b (List.mem_cons_of_mem a hb)) h.2⟩

/-- Conditions that say the same within an invariant say the same of a replay. -/
theorem each_congr {C D : σ → α → Prop} {I : σ → Prop} (hI : ∀ s a, I s → I (step s a))
    (hCD : ∀ s a, I s → (C s a ↔ D s a)) {s : σ} {as : List α} (hs : I s) :
    Each step C s as ↔ Each step D s as := by
  induction as generalizing s with
  | nil => exact Iff.rfl
  | cons a as ih => exact and_congr (hCD s a hs) (ih (hI s a hs))

theorem Always.mono {P Q : σ → Prop} (hPQ : ∀ s, P s → Q s) {s : σ} {as : List α}
    (h : Always step P s as) : Always step Q s as := by
  induction as generalizing s with
  | nil => exact hPQ s h
  | cons a as ih => exact ⟨hPQ s h.1, ih h.2⟩

/-- If, within the invariant, an admissible action keeps `P` exactly when it meets `C`,
then `P` holds throughout exactly when every action meets `C`. -/
theorem always_iff_each {C : σ → α → Prop} {P I : σ → Prop} {Q : α → Prop}
    (hI : ∀ s a, Q a → I s → I (step s a))
    (hC : ∀ s a, Q a → I s → P s → (P (step s a) ↔ C s a)) {s : σ} {as : List α}
    (hQ : ∀ a ∈ as, Q a) (hs : I s) (hP : P s) : Always step P s as ↔ Each step C s as := by
  induction as generalizing s with
  | nil => exact iff_of_true hP trivial
  | cons a as ih =>
    have ha := hQ a List.mem_cons_self
    have has : ∀ b ∈ as, Q b := fun b hb ↦ hQ b (List.mem_cons_of_mem a hb)
    constructor
    · intro h
      have hP' := h.2.head
      exact ⟨(hC s a ha hs hP).mp hP', (ih has (hI s a ha hs) hP').mp h.2⟩
    · intro h
      have hP' := (hC s a ha hs hP).mpr h.1
      exact ⟨hP, (ih has (hI s a ha hs) hP').mpr h.2⟩

/-- The same, where `P` is lost at once by an action that does not meet `C`. -/
theorem always_iff_each_of_lost {C : σ → α → Prop} {P I : σ → Prop} (hP : ∀ s, I s → P s)
    (hkept : ∀ s a, I s → C s a → I (step s a)) (hlost : ∀ s a, I s → ¬ C s a → ¬ P (step s a))
    {s : σ} {as : List α} (hs : I s) : Always step P s as ↔ Each step C s as := by
  induction as generalizing s with
  | nil => exact iff_of_true (hP s hs) trivial
  | cons a as ih =>
    constructor
    · intro h
      have ha : C s a := Classical.byContradiction fun hno ↦ hlost s a hs hno h.2.head
      exact ⟨ha, (ih (hkept s a hs ha)).mp h.2⟩
    · intro h
      exact ⟨hP s hs, (ih (hkept s a hs h.1)).mpr h.2⟩

end Library.Replay
