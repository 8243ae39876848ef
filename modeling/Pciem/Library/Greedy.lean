import Mathlib.Data.List.Basic
import Mathlib.Data.Nat.Notation

namespace Library.Greedy

variable {τ α : Type*} (offer : τ → Option α) (clash : α → α → Prop)

/-- What an item offers, if it clashes with nothing of a list. -/
def accept [DecidableRel clash] (kept : List α) (t : τ) : Option α :=
  (offer t).bind fun a ↦ if ∃ b ∈ kept, clash b a then none else some a

/-- One item after the other is accepted or left. -/
def select [DecidableRel clash] : List τ → List α → List α
  | [], kept => kept
  | t :: ts, kept => select ts (kept ++ (accept offer clash kept t).toList)

/-- What the item with a number offers. -/
def offered (ts : List τ) (n : ℕ) : Option α := ts[n]?.bind offer

/-- An item is chosen just if what it offers clashes with nothing of a list, and with nothing that
is chosen before it. -/
def Chooses (kept : List α) (ts : List τ) (chosen : ℕ → Bool) : Prop :=
  ∀ n, chosen n = true ↔ ∃ a, offered offer ts n = some a ∧ (∀ b ∈ kept, ¬ clash b a) ∧
    ∀ m < n, chosen m = true → ∀ b, offered offer ts m = some b → ¬ clash b a

def picked (ts : List τ) (chosen : ℕ → Bool) : List α :=
  (List.range ts.length).filterMap fun n ↦ if chosen n then offered offer ts n else none

/-- The first item is chosen or not, and then the others as before. -/
def choose (first : Bool) (chosen : ℕ → Bool) : ℕ → Bool
  | 0 => first
  | n + 1 => chosen n

variable {offer clash} {t : τ} {ts : List τ} {kept : List α} {chosen : ℕ → Bool}

theorem picked_cons : picked offer (t :: ts) chosen =
    (if chosen 0 then offer t else none).toList ++ picked offer ts fun n ↦ chosen (n + 1) := by
  have hzero : offered offer (t :: ts) 0 = offer t := rfl
  rw [picked, List.length_cons, List.range_succ_eq_map, List.filterMap_cons, List.filterMap_map,
    hzero]
  cases if chosen 0 then offer t else none with
  | none => rfl
  | some a => rfl

/-- What is chosen of the others depends on what the first item adds to the list. -/
theorem chooses_cons : Chooses offer clash kept (t :: ts) chosen ↔
    (chosen 0 = true ↔ ∃ a, offer t = some a ∧ ∀ b ∈ kept, ¬ clash b a) ∧
    Chooses offer clash (kept ++ (if chosen 0 then offer t else none).toList) ts
      fun n ↦ chosen (n + 1) := by
  have hfirst : (∃ a, offered offer (t :: ts) 0 = some a ∧ (∀ b ∈ kept, ¬ clash b a) ∧
      ∀ m < 0, chosen m = true → ∀ b, offered offer (t :: ts) m = some b → ¬ clash b a) ↔
      ∃ a, offer t = some a ∧ ∀ b ∈ kept, ¬ clash b a :=
    exists_congr fun a ↦ and_congr Iff.rfl (and_iff_left fun m hm ↦ absurd hm (Nat.not_lt_zero m))
  have hnext (n : ℕ) (a : α) : ((∀ b ∈ kept, ¬ clash b a) ∧ ∀ m < n + 1, chosen m = true →
      ∀ b, offered offer (t :: ts) m = some b → ¬ clash b a) ↔
      (∀ b ∈ kept ++ (if chosen 0 then offer t else none).toList, ¬ clash b a) ∧
      ∀ m < n, chosen (m + 1) = true → ∀ b, offered offer ts m = some b → ¬ clash b a := by
    constructor
    · rintro ⟨hkept, hbefore⟩
      refine ⟨fun b hb ↦ ?_, fun m hm ↦ hbefore (m + 1) (Nat.succ_lt_succ hm)⟩
      rcases List.mem_append.mp hb with hb | hb
      · exact hkept b hb
      · split at hb
        · rename_i hchosen
          exact hbefore 0 (Nat.succ_pos n) hchosen b (Option.mem_toList.mp hb)
        · exact absurd hb List.not_mem_nil
    · rintro ⟨hkept, hbefore⟩
      refine ⟨fun b hb ↦ hkept b (List.mem_append_left _ hb), fun m hm hchosen b hb ↦ ?_⟩
      cases m with
      | zero =>
        refine hkept b (List.mem_append_right _ ?_)
        rw [if_pos hchosen]
        exact Option.mem_toList.mpr hb
      | succ m => exact hbefore m (Nat.lt_of_succ_lt_succ hm) hchosen b hb
  constructor
  · intro h
    exact ⟨(h 0).trans hfirst, fun n ↦ (h (n + 1)).trans
      (exists_congr fun a ↦ and_congr Iff.rfl (hnext n a))⟩
  · rintro ⟨hzero, h⟩ n
    cases n with
    | zero => exact hzero.trans hfirst.symm
    | succ n =>
      exact (h n).trans (exists_congr fun a ↦ and_congr Iff.rfl (hnext n a).symm)

theorem Chooses.pairwise (h : Chooses offer clash kept ts chosen) :
    (picked offer ts chosen).Pairwise fun a b ↦ ¬ clash a b := by
  refine List.pairwise_filterMap.mpr (List.pairwise_lt_range.imp fun {m n} hlt a ha b hb ↦ ?_)
  split at ha
  · rename_i hm
    split at hb
    · rename_i hn
      obtain ⟨b', hb', -, hbefore⟩ := (h n).mp hn
      cases hb.symm.trans hb'
      exact hbefore m hlt hm a ha
    · cases hb
  · cases ha

variable [DecidableRel clash]

theorem accept_eq_some {a : α} : accept offer clash kept t = some a ↔
    offer t = some a ∧ ∀ b ∈ kept, ¬ clash b a := by
  rw [accept, Option.bind_eq_some_iff]
  constructor
  · rintro ⟨a', ha', h⟩
    split at h
    · cases h
    · rename_i hno
      cases h
      exact ⟨ha', fun b hb hclash ↦ hno ⟨b, hb, hclash⟩⟩
  · rintro ⟨ha, hno⟩
    exact ⟨a, ha, if_neg fun ⟨b, hb, hclash⟩ ↦ hno b hb hclash⟩

theorem Chooses.accept_eq (h : Chooses offer clash kept (t :: ts) chosen) :
    accept offer clash kept t = if chosen 0 then offer t else none := by
  have hzero := (chooses_cons.mp h).1
  split
  · rename_i hchosen
    obtain ⟨a, ha, hfree⟩ := hzero.mp hchosen
    rw [ha]
    exact accept_eq_some.mpr ⟨ha, hfree⟩
  · rename_i hchosen
    rw [Option.eq_none_iff_forall_ne_some]
    intro a ha
    exact hchosen (hzero.mpr ⟨a, accept_eq_some.mp ha⟩)

theorem exists_chooses (ts : List τ) (kept : List α) :
    ∃ chosen, Chooses offer clash kept ts chosen := by
  induction ts generalizing kept with
  | nil =>
    refine ⟨fun _ ↦ false, fun n ↦ iff_of_false Bool.false_ne_true ?_⟩
    rintro ⟨a, ha, -⟩
    cases ha
  | cons t ts ih =>
    obtain ⟨chosen, h⟩ := ih (kept ++ (accept offer clash kept t).toList)
    refine ⟨choose (accept offer clash kept t).isSome chosen, chooses_cons.mpr ⟨?_, ?_⟩⟩
    · rw [choose, Option.isSome_iff_exists]
      exact exists_congr fun a ↦ accept_eq_some
    · have haccept : (if (accept offer clash kept t).isSome then offer t else none) =
          accept offer clash kept t := by
        cases ha : accept offer clash kept t with
        | none => rfl
        | some a => exact (accept_eq_some.mp ha).1
      change Chooses offer clash (kept ++ (if (accept offer clash kept t).isSome then offer t
        else none).toList) ts chosen
      rwa [haccept]

theorem Chooses.select_eq (h : Chooses offer clash kept ts chosen) :
    select offer clash ts kept = kept ++ picked offer ts chosen := by
  induction ts generalizing kept chosen with
  | nil => exact (List.append_nil kept).symm
  | cons t ts ih =>
    have hrest := ih (chooses_cons.mp h).2
    rw [select, picked_cons, h.accept_eq, hrest, List.append_assoc]

/-- An item that is not chosen changes nothing for the others. -/
theorem Chooses.select_eraseIdx (h : Chooses offer clash kept ts chosen) {n : ℕ}
    (hn : chosen n = false) : select offer clash (ts.eraseIdx n) kept =
      select offer clash ts kept := by
  induction ts generalizing kept chosen n with
  | nil => rfl
  | cons t ts ih =>
    cases n with
    | zero =>
      rw [List.eraseIdx_cons_zero, select, h.accept_eq, hn, if_neg Bool.false_ne_true,
        Option.toList_none, List.append_nil]
    | succ n =>
      rw [List.eraseIdx_cons_succ, select, select, h.accept_eq]
      exact ih (chooses_cons.mp h).2 hn

end Library.Greedy
