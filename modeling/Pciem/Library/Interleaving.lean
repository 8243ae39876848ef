import Mathlib.Logic.Function.Iterate

namespace Library.Interleaving

/-- A call works on a shared state, and stands at some point between two of its steps. -/
structure Program (σ κ π : Type*) where
  enter : κ → σ → π × σ
  next : κ → π → σ → π × σ

/-- The calls that have begun, by their names, with the points that they are at. -/
structure Config (σ κ π ι : Type*) where
  shared : σ
  calls : ι → Option (κ × π)

inductive Turn (ι κ : Type*)
  | enter (i : ι) (c : κ)
  | next (i : ι)

variable {σ κ π ι : Type*}

def Program.run (p : Program σ κ π) (c : κ) : Option π → σ → π × σ
  | none => p.enter c
  | some q => p.next c q

/-- No call has begun. -/
def Config.initial (x : σ) : Config σ κ π ι := ⟨x, fun _ ↦ none⟩

/-- Call `i` is at a point of `P`. -/
def Config.At (P : κ → π → Prop) (s : Config σ κ π ι) (i : ι) : Prop :=
  ∃ c q, s.calls i = some (c, q) ∧ P c q

/-- Every call finds at its point what it relies on. -/
def Asserts (A : κ → π → σ → Prop) (s : Config σ κ π ι) : Prop :=
  ∀ i c q, s.calls i = some (c, q) → A c q s.shared

/-- The shared state tells whether there is a call with the token, and there is at most one. -/
structure Exclusive (taken : σ → Prop) (holds : κ → π → Prop) (s : Config σ κ π ι) : Prop where
  one : ∀ i j, s.At holds i → s.At holds j → i = j
  taken : taken s.shared ↔ ∃ i, s.At holds i

/-- Of the calls with the same key, at most one is at a point of `P`. -/
def Sole {α : Type*} (key : κ → α) (P : κ → π → Prop) (s : Config σ κ π ι) : Prop :=
  ∀ i j a, s.At (fun c q ↦ key c = a ∧ P c q) i → s.At (fun c q ↦ key c = a ∧ P c q) j → i = j

/-- The call is at a point of `P`, if it has begun. -/
def Held (P : κ → π → Prop) (c : κ) : Option π → Prop
  | none => False
  | some q => P c q

/-- A move takes the token only where it is free, and gives it back to the shared state. -/
inductive Respects (taken : σ → Prop) (holds : κ → π → Prop) (c : κ) (before : Option π) (x : σ)
    (m : π × σ) : Prop
  | apart : ¬ Held holds c before → ¬ holds c m.1 → (taken m.2 ↔ taken x) →
      Respects taken holds c before x m
  | acquire : ¬ Held holds c before → holds c m.1 → ¬ taken x → taken m.2 →
      Respects taken holds c before x m
  | keep : Held holds c before → holds c m.1 → (taken x → taken m.2) →
      Respects taken holds c before x m
  | release : Held holds c before → ¬ holds c m.1 → ¬ taken m.2 →
      Respects taken holds c before x m

section Initial

theorem asserts_initial {A : κ → π → σ → Prop} (x : σ) :
    Asserts A (Config.initial x : Config σ κ π ι) := nofun

theorem exclusive_initial {taken : σ → Prop} {holds : κ → π → Prop} {x : σ} (h : ¬ taken x) :
    Exclusive taken holds (Config.initial x : Config σ κ π ι) :=
  ⟨nofun, iff_of_false h nofun⟩

theorem sole_initial {α : Type*} {key : κ → α} {P : κ → π → Prop} (x : σ) :
    Sole key P (Config.initial x : Config σ κ π ι) := by
  intro i j a hi
  obtain ⟨c, q, hq, -⟩ := hi
  cases hq

theorem at_iff {s : Config σ κ π ι} {i : ι} {c : κ} {q : π} {P : κ → π → Prop}
    (h : s.calls i = some (c, q)) : s.At P i ↔ P c q := by
  constructor
  · rintro ⟨c', q', hq, hP⟩
    obtain ⟨rfl, rfl⟩ := Prod.mk.inj (Option.some.inj (h.symm.trans hq))
    exact hP
  · exact fun hP ↦ ⟨c, q, h, hP⟩

theorem not_at_of_none {s : Config σ κ π ι} {i : ι} {P : κ → π → Prop} (h : s.calls i = none) :
    ¬ s.At P i := fun ⟨_, _, hq, _⟩ ↦ nomatch h.symm.trans hq

theorem at_iff_held {s : Config σ κ π ι} {i : ι} {c : κ} {P : κ → π → Prop}
    {before : Option π} (h : s.calls i = before.map (Prod.mk c)) : s.At P i ↔ Held P c before := by
  cases before with
  | none => exact iff_of_false (not_at_of_none h) id
  | some q => exact at_iff h

end Initial

variable [DecidableEq ι]

/-- Call `i` goes to another point. -/
def Config.move (s : Config σ κ π ι) (i : ι) (c : κ) (m : π × σ) : Config σ κ π ι :=
  ⟨m.2, Function.update s.calls i (some (c, m.1))⟩

/-- The turn of a call that has not begun, or of one that has, changes nothing. -/
def Program.step (p : Program σ κ π) (s : Config σ κ π ι) : Turn ι κ → Config σ κ π ι
  | .enter i c =>
    match s.calls i with
    | none => s.move i c (p.enter c s.shared)
    | some _ => s
  | .next i =>
    match s.calls i with
    | none => s
    | some (c, q) => s.move i c (p.next c q s.shared)

/-- The turn that moves a call on from a point, or begins it. -/
def Turn.of (i : ι) (c : κ) : Option π → Turn ι κ
  | none => .enter i c
  | some _ => .next i

section Step

variable {p : Program σ κ π} {s : Config σ κ π ι} {i j : ι} {c : κ} {q : π} {m : π × σ}

/-- A step leaves everything alone, or moves one call from where it was. -/
theorem step_cases (p : Program σ κ π) (s : Config σ κ π ι) (a : Turn ι κ) : p.step s a = s ∨
    ∃ i c before, a = .of i c before ∧ s.calls i = before.map (Prod.mk c) ∧
      p.step s a = s.move i c (p.run c before s.shared) := by
  cases a with
  | enter i c =>
    rw [Program.step]
    cases hi : s.calls i with
    | none => exact .inr ⟨i, c, none, rfl, hi, rfl⟩
    | some call => exact .inl rfl
  | next i =>
    rw [Program.step]
    cases hi : s.calls i with
    | none => exact .inl rfl
    | some call => exact .inr ⟨i, call.1, some call.2, rfl, hi, rfl⟩

theorem step_enter (h : s.calls i = none) :
    p.step s (.enter i c) = s.move i c (p.enter c s.shared) := by
  rw [Program.step, h]

theorem step_next (h : s.calls i = some (c, q)) :
    p.step s (.next i) = s.move i c (p.next c q s.shared) := by
  rw [Program.step, h]

theorem calls_move_self : (s.move i c m).calls i = some (c, m.1) := Function.update_self ..

theorem calls_move_of_ne (h : j ≠ i) : (s.move i c m).calls j = s.calls j :=
  Function.update_of_ne h ..

theorem at_move_self {P : κ → π → Prop} : (s.move i c m).At P i ↔ P c m.1 :=
  at_iff calls_move_self

theorem at_move_of_ne {P : κ → π → Prop} (h : j ≠ i) : (s.move i c m).At P j ↔ s.At P j := by
  rw [Config.At, Config.At, calls_move_of_ne h]

end Step

section Alone

/-- A step of a call that no other call interrupts. -/
def Program.advance (p : Program σ κ π) (c : κ) (m : π × σ) : π × σ := p.next c m.1 m.2

/-- The call gets from one point to the other when no other call interrupts it. -/
def Program.Leads (p : Program σ κ π) (c : κ) (m m' : π × σ) : Prop :=
  ∃ n, (p.advance c)^[n] m = m'

variable {p : Program σ κ π} {s : Config σ κ π ι} {i : ι} {c : κ} {m m' m'' : π × σ}

omit [DecidableEq ι] in
theorem leads_refl (m : π × σ) : p.Leads c m m := ⟨0, rfl⟩

omit [DecidableEq ι] in
theorem leads_next (h : p.advance c m = m') (h' : p.Leads c m' m'') : p.Leads c m m'' := by
  obtain ⟨n, hn⟩ := h'
  exact ⟨n + 1, by rw [Function.iterate_succ_apply, h, hn]⟩

theorem move_move : (s.move i c m).move i c m' = s.move i c m' := by
  rw [Config.move, Config.move, Config.move, Function.update_idem]

theorem foldl_advance (n : ℕ) : (List.replicate n (Turn.next i)).foldl p.step (s.move i c m) =
    s.move i c ((p.advance c)^[n] m) := by
  induction n generalizing m with
  | zero => rfl
  | succ n ih =>
    rw [List.replicate_succ, List.foldl_cons, step_next calls_move_self, move_move]
    exact ih

/-- A call runs from its beginning on with no other call in between. -/
theorem foldl_alone (hi : s.calls i = none) (h : p.Leads c (p.enter c s.shared) m) :
    ∃ n, (Turn.enter i c :: List.replicate n (.next i)).foldl p.step s = s.move i c m := by
  obtain ⟨n, rfl⟩ := h
  refine ⟨n, ?_⟩
  rw [List.foldl_cons, step_enter hi]
  exact foldl_advance n

end Alone

section Invariant

/-- The call that moves establishes its own assertion and does not interfere with the others. -/
theorem Asserts.move {A : κ → π → σ → Prop} {s : Config σ κ π ι} {i : ι} {c : κ} {m : π × σ}
    (h : Asserts A s) (hown : A c m.1 m.2)
    (hothers : ∀ j c' q, j ≠ i → s.calls j = some (c', q) → A c' q s.shared → A c' q m.2) :
    Asserts A (s.move i c m) := by
  intro j c' q hq
  by_cases hj : j = i
  · subst hj
    obtain ⟨rfl, rfl⟩ := Prod.mk.inj (Option.some.inj (calls_move_self.symm.trans hq))
    exact hown
  · rw [calls_move_of_ne hj] at hq
    exact hothers j c' q hj hq (h j c' q hq)

variable {taken : σ → Prop} {holds : κ → π → Prop}

theorem Exclusive.move {s : Config σ κ π ι} {i : ι} {c : κ} {before : Option π} {m : π × σ}
    (h : Exclusive taken holds s) (hi : s.calls i = before.map (Prod.mk c))
    (hm : Respects taken holds c before s.shared m) : Exclusive taken holds (s.move i c m) := by
  have hat : s.At holds i ↔ Held holds c before := at_iff_held hi
  have hafter : (s.move i c m).At holds i ↔ holds c m.1 := at_move_self
  cases hm with
  | apart hbefore hno htaken =>
    have hsame (j : ι) : (s.move i c m).At holds j ↔ s.At holds j := by
      by_cases hj : j = i
      · subst hj
        exact iff_of_false (hafter.not.mpr hno) (hat.not.mpr hbefore)
      · exact at_move_of_ne hj
    exact ⟨fun j k hj hk ↦ h.one j k ((hsame j).mp hj) ((hsame k).mp hk),
      htaken.trans (h.taken.trans (exists_congr fun j ↦ (hsame j).symm))⟩
  | acquire hbefore hholds hfree htaken =>
    have honly (j : ι) (hj : (s.move i c m).At holds j) : j = i := by
      by_contra hne
      exact hfree (h.taken.mpr ⟨j, (at_move_of_ne hne).mp hj⟩)
    exact ⟨fun j k hj hk ↦ (honly j hj).trans (honly k hk).symm,
      iff_of_true htaken ⟨i, hafter.mpr hholds⟩⟩
  | keep hbefore hholds htaken =>
    have honly (j : ι) (hj : (s.move i c m).At holds j) : j = i := by
      by_contra hne
      exact hne (h.one j i ((at_move_of_ne hne).mp hj) (hat.mpr hbefore))
    exact ⟨fun j k hj hk ↦ (honly j hj).trans (honly k hk).symm,
      iff_of_true (htaken (h.taken.mpr ⟨i, hat.mpr hbefore⟩)) ⟨i, hafter.mpr hholds⟩⟩
  | release hbefore hno hfree =>
    have hnone (j : ι) : ¬ (s.move i c m).At holds j := by
      intro hj
      by_cases hji : j = i
      · subst hji
        exact hno (hafter.mp hj)
      · exact hji (h.one j i ((at_move_of_ne hji).mp hj) (hat.mpr hbefore))
    exact ⟨fun j _ hj ↦ (hnone j hj).elim, iff_of_false hfree fun ⟨j, hj⟩ ↦ hnone j hj⟩

variable {α : Type*} {key : κ → α} {P : κ → π → Prop}

/-- A call that does not come to `P` anew leaves at most one there. -/
theorem Sole.move_of_held {s : Config σ κ π ι} {i : ι} {c : κ} {before : Option π} {m : π × σ}
    (h : Sole key P s) (hi : s.calls i = before.map (Prod.mk c))
    (hm : P c m.1 → Held P c before) : Sole key P (s.move i c m) := by
  have hback (a : α) (j : ι) (hj : (s.move i c m).At (fun c q ↦ key c = a ∧ P c q) j) :
      s.At (fun c q ↦ key c = a ∧ P c q) j := by
    by_cases hji : j = i
    · subst hji
      obtain ⟨ha, hP⟩ := at_move_self.mp hj
      have hheld := hm hP
      cases before with
      | none => exact hheld.elim
      | some q => exact ⟨c, q, hi, ha, hheld⟩
    · exact (at_move_of_ne hji).mp hj
  intro j k a hj hk
  exact h j k a (hback a j hj) (hback a k hk)

/-- A call comes to `P` where no other one with its key is there. -/
theorem Sole.move_of_free {s : Config σ κ π ι} {i : ι} {c : κ} {m : π × σ} (h : Sole key P s)
    (hfree : ∀ j, j ≠ i → ¬ s.At (fun c' q ↦ key c' = key c ∧ P c' q) j) :
    Sole key P (s.move i c m) := by
  have hkey (a : α) (j k : ι) (hk : k ≠ i) (hj : (s.move i c m).At (fun c q ↦ key c = a ∧ P c q) j)
      (hat : (s.move i c m).At (fun c q ↦ key c = a ∧ P c q) k) : j ≠ i := by
    rintro rfl
    obtain ⟨rfl, -⟩ := at_move_self.mp hj
    exact hfree k hk ((at_move_of_ne hk).mp hat)
  intro j k a hj hk
  by_cases hki : k = i
  · by_contra hne
    exact hkey a k j (fun hji ↦ hne (hji.trans hki.symm)) hk hj hki
  · have hji := hkey a j k hki hj hk
    exact h j k a ((at_move_of_ne hji).mp hj) ((at_move_of_ne hki).mp hk)

end Invariant

end Library.Interleaving
