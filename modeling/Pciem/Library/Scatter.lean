import Mathlib.Data.List.Nodup
import Mathlib.Logic.Function.Basic

namespace Library.Scatter

variable {A B : Type} [DecidableEq A] {mem : A → B} {writes : List (A × B)} {a : A} {b : B}

/-- The memory after the writes, one after the other. -/
def scatter (mem : A → B) (writes : List (A × B)) : A → B :=
  writes.foldl (fun mem w ↦ Function.update mem w.1 w.2) mem

theorem scatter_cons (mem : A → B) (w : A × B) (writes : List (A × B)) :
    scatter mem (w :: writes) = scatter (Function.update mem w.1 w.2) writes := rfl

theorem scatter_append (mem : A → B) (writes writes' : List (A × B)) :
    scatter mem (writes ++ writes') = scatter (scatter mem writes) writes' :=
  List.foldl_append

theorem scatter_of_not_mem (h : ∀ b, (a, b) ∉ writes) : scatter mem writes a = mem a := by
  induction writes generalizing mem with
  | nil => rfl
  | cons w writes ih =>
    have hne : a ≠ w.1 := by
      rintro rfl
      exact h w.2 List.mem_cons_self
    rw [scatter_cons, ih fun b hb ↦ h b (List.mem_cons_of_mem w hb),
      Function.update_of_ne hne]

/-- The same writes leave the same at a place where there was the same. -/
theorem scatter_congr {mem' : A → B} (h : mem' a = mem a) (writes : List (A × B)) :
    scatter mem' writes a = scatter mem writes a := by
  induction writes generalizing mem mem' with
  | nil => exact h
  | cons w writes ih =>
    rw [scatter_cons, scatter_cons]
    refine ih ?_
    rw [Function.update_apply, Function.update_apply, h]

/-- A write stays when no later one goes to the same place. -/
theorem scatter_of_mem (hn : (writes.map Prod.fst).Nodup) (h : (a, b) ∈ writes) :
    scatter mem writes a = b := by
  induction writes generalizing mem with
  | nil => cases h
  | cons w writes ih =>
    rw [List.map_cons, List.nodup_cons] at hn
    rw [scatter_cons]
    rcases List.mem_cons.mp h with rfl | h
    · rw [scatter_of_not_mem, Function.update_self]
      intro b' hb'
      exact hn.1 (List.mem_map.mpr ⟨_, hb', rfl⟩)
    · exact ih hn.2 h

theorem scatter_zip_last {places : List A} {values : List B} {k : ℕ}
    (hplaces : places.length = k + 1) (hvalues : values.length = k + 1) :
    scatter mem (places.zip values) places[k] = values[k] := by
  rcases List.eq_nil_or_concat' places with rfl | ⟨init, a, rfl⟩
  · cases hplaces
  rcases List.eq_nil_or_concat' values with rfl | ⟨init', b, rfl⟩
  · cases hvalues
  simp only [List.length_append, List.length_singleton, Nat.add_right_cancel_iff] at hplaces hvalues
  subst hplaces
  rw [List.zip_append hvalues.symm, scatter_append]
  simp only [List.getElem_concat_length, ← hvalues]
  exact Function.update_self ..

/-- The writes of a whole range, each place computed from its index. -/
theorem scatter_range_of_injOn {n : ℕ} {place : ℕ → A} {value : ℕ → B}
    (hinj : ∀ i < n, ∀ j < n, place i = place j → i = j) {k : ℕ} (hk : k < n) :
    scatter mem ((List.range n).map fun i ↦ (place i, value i)) (place k) = value k := by
  apply scatter_of_mem
  · rw [List.map_map]
    refine List.Nodup.map_on ?_ List.nodup_range
    intro i hi j hj hij
    exact hinj i (List.mem_range.mp hi) j (List.mem_range.mp hj) hij
  · exact List.mem_map_of_mem (List.mem_range.mpr hk)

theorem scatter_range_of_ne {n : ℕ} {place : ℕ → A} {value : ℕ → B}
    (h : ∀ k < n, place k ≠ a) :
    scatter mem ((List.range n).map fun i ↦ (place i, value i)) a = mem a := by
  apply scatter_of_not_mem
  intro b hb
  obtain ⟨k, hk, heq⟩ := List.mem_map.mp hb
  exact h k (List.mem_range.mp hk) (congrArg Prod.fst heq)

end Library.Scatter
