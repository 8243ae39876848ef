import Mathlib.Algebra.Notation.Defs
import Mathlib.Logic.Function.Basic
import Mathlib.Tactic.TypeStar

namespace Library.PageWalk

/-- What a walk makes of the value of an entry. -/
inductive Kind
  | absent
  | block
  | table
deriving DecidableEq

/-- One step of a walk: what the value of an entry means, the level of a block, and the entry of
the next table that is for an address. -/
structure Stage (E V A L : Type*) where
  kind : V → Kind
  level : L
  offset : E → V → A → E

variable {E V A L : Type*}

/-- The entry that a walk ends at; the entries after the last step are not read. -/
def walk (last : L) (t : E → V) (a : A) : List (Stage E V A L) → E → Option (E × L)
  | [], e => some (e, last)
  | s :: stages, e =>
    match s.kind (t e) with
    | .absent => none
    | .block => some (e, s.level)
    | .table => walk last t a stages (s.offset e (t e) a)

/-- The entries that a walk reads. -/
def path (t : E → V) (a : A) : List (Stage E V A L) → E → List E
  | [], _ => []
  | s :: stages, e =>
    match s.kind (t e) with
    | .absent => [e]
    | .block => [e]
    | .table => e :: path t a stages (s.offset e (t e) a)

section Cases

variable {last : L} {t : E → V} {a : A} {s : Stage E V A L} {stages : List (Stage E V A L)} {e : E}

theorem walk_absent (h : s.kind (t e) = .absent) : walk last t a (s :: stages) e = none := by
  rw [walk, h]

theorem walk_block (h : s.kind (t e) = .block) :
    walk last t a (s :: stages) e = some (e, s.level) := by
  rw [walk, h]

theorem walk_table (h : s.kind (t e) = .table) :
    walk last t a (s :: stages) e = walk last t a stages (s.offset e (t e) a) := by
  rw [walk, h]

end Cases

theorem walk_congr {last : L} {t t' : E → V} {a : A} {stages : List (Stage E V A L)} {e : E}
    (h : ∀ e' ∈ path t a stages e, t' e' = t e') :
    walk last t' a stages e = walk last t a stages e := by
  induction stages generalizing e with
  | nil => rfl
  | cons s stages ih =>
    rw [path] at h
    cases hkind : s.kind (t e) with
    | absent | block =>
      rw [hkind] at h
      have he : t' e = t e := h e (List.mem_singleton_self e)
      rw [walk, walk, he, hkind]
    | table =>
      rw [hkind] at h
      have he : t' e = t e := h e List.mem_cons_self
      rw [walk, walk, he, hkind]
      exact ih fun e' he' ↦ h e' (List.mem_cons_of_mem e he')

theorem mem_path_of_walk {last : L} {t : E → V} {a : A} {stages : List (Stage E V A L)}
    {e e' : E} {l : L} (h : walk last t a stages e = some (e', l)) :
    l = last ∨ e' ∈ path t a stages e := by
  induction stages generalizing e with
  | nil =>
    cases h
    exact .inl rfl
  | cons s stages ih =>
    rw [walk] at h
    rw [path]
    cases hkind : s.kind (t e) with
    | absent =>
      rw [hkind] at h
      cases h
    | block =>
      rw [hkind] at h
      cases h
      exact .inr (List.mem_singleton_self _)
    | table =>
      rw [hkind] at h
      exact (ih h).imp_right (List.mem_cons_of_mem e)

/-- The steps of a walk that ends at a level do not tell two addresses apart. -/
def Agree (last level : L) (a a' : A) : List (Stage E V A L) → Prop
  | [] => True
  | s :: stages => ((level = last ∨ ∃ s' ∈ stages, s'.level = level) →
      ∀ e v, s.offset e v a = s.offset e v a') ∧ Agree last level a a' stages

theorem level_of_walk {last : L} {t : E → V} {a : A} {stages : List (Stage E V A L)} {e e' : E}
    {l : L} (h : walk last t a stages e = some (e', l)) :
    l = last ∨ ∃ s ∈ stages, s.level = l := by
  induction stages generalizing e with
  | nil =>
    cases h
    exact .inl rfl
  | cons s stages ih =>
    rw [walk] at h
    cases hkind : s.kind (t e) with
    | absent =>
      rw [hkind] at h
      cases h
    | block =>
      rw [hkind] at h
      cases h
      exact .inr ⟨s, List.mem_cons_self, rfl⟩
    | table =>
      rw [hkind] at h
      exact (ih h).imp_right fun ⟨s', hs', hl⟩ ↦ ⟨s', List.mem_cons_of_mem s hs', hl⟩

theorem walk_agree {last : L} {t : E → V} {a a' : A} {stages : List (Stage E V A L)} {e e' : E}
    {l : L} (hagree : Agree last l a a' stages) (h : walk last t a stages e = some (e', l)) :
    walk last t a' stages e = some (e', l) := by
  induction stages generalizing e with
  | nil => exact h
  | cons s stages ih =>
    rw [walk] at h ⊢
    cases hkind : s.kind (t e) with
    | absent | block =>
      rw [hkind] at h
      exact h
    | table =>
      rw [hkind] at h
      simp only [← hagree.1 (level_of_walk h)]
      exact ih hagree.2 h

section Zero

variable [Zero V]

/-- A walk that comes to an entry that is clear ends there, maybe after steps that are folded into
the next one. -/
def EndsAtZero : List (Stage E V A L) → Prop
  | [] => False
  | s :: stages => s.kind 0 = .absent ∨
      (∀ v, s.kind v = .table) ∧ (∀ e v a, s.offset e v a = e) ∧ EndsAtZero stages

/-- Each step of a walk ends it where the entry is clear. -/
def Sound : List (Stage E V A L) → Prop
  | [] => True
  | s :: stages => EndsAtZero (s :: stages) ∧ Sound stages

theorem walk_eq_none {last : L} {t : E → V} {a : A} {stages : List (Stage E V A L)} {e : E}
    (h : EndsAtZero stages) (he : t e = 0) : walk last t a stages e = none := by
  induction stages with
  | nil => cases h
  | cons s stages ih =>
    rcases h with habsent | ⟨htable, hfold, hends⟩
    · rw [walk, he, habsent]
    · rw [walk, htable, hfold]
      exact ih hends

/-- A table in which some entries have been cleared. -/
def Cleared (t t' : E → V) : Prop := ∀ e, t' e = t e ∨ t' e = 0

theorem Cleared.refl (t : E → V) : Cleared t t := fun _ ↦ .inl rfl

theorem Cleared.update [DecidableEq E] {t t' : E → V} (h : Cleared t t') {e : E} {v : V}
    (hv : v = t e ∨ v = 0) : Cleared t (Function.update t' e v) := by
  intro e'
  by_cases he : e' = e
  · subst he
    rwa [Function.update_self]
  · rw [Function.update_of_ne he]
    exact h e'

/-- A walk that still comes to an end has not met a cleared entry. -/
theorem walk_cleared {last : L} {t t' : E → V} {a : A} {stages : List (Stage E V A L)} {e : E}
    {r : E × L} (hsound : Sound stages) (hcleared : Cleared t t')
    (h : walk last t' a stages e = some r) :
    ∀ e' ∈ path t a stages e, t' e' = t e' ∧ t e' ≠ 0 := by
  induction stages generalizing e with
  | nil => simp [path]
  | cons s stages ih =>
    have hne : t' e ≠ 0 := by
      intro he
      rw [walk_eq_none hsound.1 he] at h
      cases h
    have he : t' e = t e := (hcleared e).resolve_right hne
    rw [he] at hne
    rw [walk, he] at h
    rw [path]
    cases hkind : s.kind (t e) with
    | absent =>
      rw [hkind] at h
      cases h
    | block =>
      intro e' he'
      rw [List.mem_singleton.mp he']
      exact ⟨he, hne⟩
    | table =>
      rw [hkind] at h
      intro e' he'
      rcases List.mem_cons.mp he' with rfl | hmem
      · exact ⟨he, hne⟩
      · exact ih hsound.2 h e' hmem

end Zero

end Library.PageWalk
