import Mathlib.Data.List.Pairwise
import Mathlib.Logic.Function.Basic
import Mathlib.Algebra.Order.Group.Nat

namespace Library.BumpAllocator

variable {κ α : Type*} [DecidableEq κ] (arena : α → κ) (size : α → ℕ)

/-- The room that the items of arena `k` take together. -/
def total (k : κ) : List α → ℕ
  | [] => 0
  | a :: as => (if arena a = k then size a else 0) + total k as

/-- Every item with its start, when each arena is filled upwards from its base. -/
def place (base : κ → ℕ) : List α → List (ℕ × α)
  | [] => []
  | a :: as =>
    (base (arena a), a) ::
      place (Function.update base (arena a) (base (arena a) + size a)) as

variable {arena size}

theorem total_append (k : κ) (as bs : List α) :
    total arena size k (as ++ bs) = total arena size k as + total arena size k bs := by
  induction as with
  | nil => simp [total]
  | cons a as ih =>
    rw [List.cons_append, total, ih, total, Nat.add_assoc]

theorem update_add_total (base : κ → ℕ) (a : α) (as : List α) (k : κ) :
    Function.update base (arena a) (base (arena a) + size a) k + total arena size k as =
      base k + total arena size k (a :: as) := by
  rw [total]
  rcases eq_or_ne k (arena a) with rfl | hk
  · rw [Function.update_self, if_pos rfl, Nat.add_assoc]
  · rw [Function.update_of_ne hk, if_neg hk.symm, Nat.zero_add]

theorem place_append (base : κ → ℕ) (as bs : List α) :
    place arena size base (as ++ bs) = place arena size base as ++
      place arena size (fun k ↦ base k + total arena size k as) bs := by
  induction as generalizing base with
  | nil => simp [place, total]
  | cons a as ih =>
    rw [List.cons_append, place, ih, place, List.cons_append]
    simp only [update_add_total]

variable (arena size) in
@[simp]
theorem map_snd_place (base : κ → ℕ) (as : List α) :
    (place arena size base as).map Prod.snd = as := by
  induction as generalizing base with
  | nil => rfl
  | cons a as ih => rw [place, List.map_cons, ih]

theorem exists_mem_place (base : κ → ℕ) {as : List α} {a : α} (ha : a ∈ as) :
    ∃ p, (p, a) ∈ place arena size base as := by
  rw [← map_snd_place arena size base as] at ha
  obtain ⟨⟨p, b⟩, hb, rfl⟩ := List.mem_map.mp ha
  exact ⟨p, hb⟩

theorem mem_of_mem_place {base : κ → ℕ} {as : List α} {p : ℕ} {a : α}
    (h : (p, a) ∈ place arena size base as) : a ∈ as := by
  rw [← map_snd_place arena size base as]
  exact List.mem_map_of_mem h

theorem mem_place_bounds {base : κ → ℕ} {as : List α} {p : ℕ} {a : α}
    (h : (p, a) ∈ place arena size base as) :
    base (arena a) ≤ p ∧ p + size a ≤ base (arena a) + total arena size (arena a) as := by
  induction as generalizing base with
  | nil => cases h
  | cons b as ih =>
    rw [← update_add_total]
    rcases List.mem_cons.mp h with he | ht
    · cases he
      rw [Function.update_self]
      omega
    · obtain ⟨hlo, hhi⟩ := ih ht
      refine ⟨le_trans ?_ hlo, hhi⟩
      rcases eq_or_ne (arena a) (arena b) with he | hne
      · rw [he, Function.update_self]
        exact Nat.le_add_right _ _
      · rw [Function.update_of_ne hne]

/-- In an arena, an item ends before the next ones start. -/
theorem pairwise_place (base : κ → ℕ) (as : List α) :
    (place arena size base as).Pairwise fun x y ↦
      arena x.2 = arena y.2 → x.1 + size x.2 ≤ y.1 := by
  induction as generalizing base with
  | nil => exact .nil
  | cons a as ih =>
    refine .cons (fun y hy he ↦ ?_) (ih _)
    have hlo := (mem_place_bounds hy).1
    rwa [← he, Function.update_self] at hlo

theorem mem_place_of_find (base : κ → ℕ) {as : List α} {k : κ} {a : α}
    (h : as.find? (fun a ↦ arena a = k) = some a) : (base k, a) ∈ place arena size base as := by
  induction as generalizing base with
  | nil => cases h
  | cons b as ih =>
    by_cases hb : arena b = k
    · rw [List.find?_cons_of_pos (by simpa using hb)] at h
      cases h
      subst hb
      exact List.mem_cons_self
    · rw [List.find?_cons_of_neg (by simpa using hb)] at h
      have := ih (Function.update base (arena b) (base (arena b) + size b)) h
      rw [Function.update_of_ne (Ne.symm hb)] at this
      exact List.mem_cons_of_mem _ this

theorem dvd_of_mem_place {d : ℕ} {base : κ → ℕ} {as : List α} (hbase : ∀ k, d ∣ base k)
    (hsize : ∀ a ∈ as, d ∣ size a) {p : ℕ} {a : α} (h : (p, a) ∈ place arena size base as) :
    d ∣ p := by
  induction as generalizing base with
  | nil => cases h
  | cons b as ih =>
    rcases List.mem_cons.mp h with he | ht
    · cases he
      exact hbase _
    · refine ih (fun k ↦ ?_) (fun a ha ↦ hsize a (List.mem_cons_of_mem b ha)) ht
      rcases eq_or_ne k (arena b) with rfl | hk
      · rw [Function.update_self]
        exact Nat.dvd_add (hbase _) (hsize b List.mem_cons_self)
      · rw [Function.update_of_ne hk]
        exact hbase k

theorem exists_crossing {base : κ → ℕ} {as : List α} {k : κ} (limit : ℕ) (hb : base k ≤ limit)
    (ht : limit < base k + total arena size k as) :
    ∃ p a, (p, a) ∈ place arena size base as ∧ arena a = k ∧ p ≤ limit ∧
      limit < p + size a := by
  induction as generalizing base with
  | nil => simp [total] at ht; omega
  | cons b as ih =>
    rw [← update_add_total] at ht
    by_cases hc : arena b = k ∧ limit < base k + size b
    · obtain ⟨rfl, hlt⟩ := hc
      exact ⟨base (arena b), b, List.mem_cons_self, rfl, hb, hlt⟩
    · have hb' : Function.update base (arena b) (base (arena b) + size b) k ≤ limit := by
        rcases eq_or_ne k (arena b) with rfl | hk
        · rw [Function.update_self]
          simp only [true_and, not_lt] at hc
          exact hc
        · rwa [Function.update_of_ne hk]
      obtain ⟨p, a, hmem, hrest⟩ := ih hb' ht
      exact ⟨p, a, List.mem_cons_of_mem _ hmem, hrest⟩

end Library.BumpAllocator
