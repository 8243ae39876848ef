import Mathlib.Data.Set.Basic
import Mathlib.Logic.Function.Basic

namespace Library.Ownership

variable {κ ω : Type*}

/-- What is in use is what the owners have, and no two of them have the same. -/
structure Balanced (used : Set κ) (owns : ω → Set κ) : Prop where
  covered : ∀ x, x ∈ used ↔ ∃ o, x ∈ owns o
  once : ∀ x o p, x ∈ owns o → x ∈ owns p → o = p

variable {used run : Set κ} {owns : ω → Set κ} {o : ω} {x : κ}

theorem Balanced.empty (howns : ∀ o, owns o = ∅) : Balanced (∅ : Set κ) owns := by
  constructor
  · simp [howns]
  · simp [howns]

theorem Balanced.eq_empty (h : Balanced used owns) (howns : ∀ o, owns o = ∅) : used = ∅ := by
  ext x
  simp [h.covered, howns]

variable [DecidableEq ω]

theorem Balanced.claim (h : Balanced used owns) (hnone : owns o = ∅)
    (hfree : ∀ x ∈ run, x ∉ used) :
    Balanced (used ∪ run) (Function.update owns o run) := by
  constructor
  · intro x
    rw [Set.mem_union, h.covered]
    constructor
    · rintro (⟨p, hp⟩ | hx)
      · refine ⟨p, ?_⟩
        rw [Function.update_of_ne]
        · exact hp
        · rintro rfl
          simp [hnone] at hp
      · exact ⟨o, by simpa using hx⟩
    · rintro ⟨p, hp⟩
      by_cases hpo : p = o
      · subst hpo
        rw [Function.update_self] at hp
        exact .inr hp
      · rw [Function.update_of_ne hpo] at hp
        exact .inl ⟨p, hp⟩
  · have hown (x : κ) (p : ω) (hp : x ∈ Function.update owns o run p) (hx : x ∈ run) : p = o := by
      by_contra hpo
      rw [Function.update_of_ne hpo] at hp
      exact hfree x hx ((h.covered x).mpr ⟨p, hp⟩)
    intro x p q hp hq
    by_cases hx : x ∈ run
    · rw [hown x p hp hx, hown x q hq hx]
    · have hne (r : ω) (hr : x ∈ Function.update owns o run r) : x ∈ owns r := by
        by_cases hro : r = o
        · subst hro
          rw [Function.update_self] at hr
          exact absurd hr hx
        · rwa [Function.update_of_ne hro] at hr
      exact h.once x p q (hne p hp) (hne q hq)

theorem Balanced.release (h : Balanced used owns) :
    Balanced (used \ owns o) (Function.update owns o ∅) := by
  have hother (x : κ) (p : ω) : x ∈ Function.update owns o ∅ p ↔ p ≠ o ∧ x ∈ owns p := by
    by_cases hpo : p = o
    · subst hpo
      simp
    · simp [hpo]
  constructor
  · intro x
    rw [Set.mem_sdiff, h.covered]
    constructor
    · rintro ⟨⟨p, hp⟩, hno⟩
      refine ⟨p, (hother x p).mpr ⟨?_, hp⟩⟩
      rintro rfl
      exact hno hp
    · rintro ⟨p, hp⟩
      obtain ⟨hpo, hp⟩ := (hother x p).mp hp
      exact ⟨⟨p, hp⟩, fun ho ↦ hpo (h.once x p o hp ho)⟩
  · intro x p q hp hq
    exact h.once x p q ((hother x p).mp hp).2 ((hother x q).mp hq).2

/-- An owner that takes more without giving back what it has loses that. -/
theorem Balanced.not_overwrite (h : Balanced used owns) (hx : x ∈ owns o) (hrun : x ∉ run) :
    ¬ Balanced (used ∪ run) (Function.update owns o run) := by
  intro hno
  have hused : x ∈ used ∪ run := .inl ((h.covered x).mpr ⟨o, hx⟩)
  obtain ⟨p, hp⟩ := (hno.covered x).mp hused
  by_cases hpo : p = o
  · subst hpo
    rw [Function.update_self] at hp
    exact hrun hp
  · rw [Function.update_of_ne hpo] at hp
    exact hpo (h.once x p o hp hx)

end Library.Ownership
