import Mathlib.Tactic.TypeStar

namespace Library.Unwinding

variable {ε σ α : Type*}

/-- A call returns or fails; the changes that it has made to the state stay in either case. -/
abbrev Call (ε σ : Type*) := σ → Except ε Unit × σ

def update (f : σ → σ) : Call ε σ := fun s ↦ (.ok (), f s)

def ofExcept (r : Except ε Unit) : Call ε σ := fun s ↦ (r, s)

/-- A test of what the call is given. -/
def require (p : Prop) [Decidable p] (e : ε) : Call ε σ :=
  ofExcept (if p then .ok () else .error e)

/-- A test of the state. -/
def test (p : σ → Prop) [DecidablePred p] (e : ε) : Call ε σ := fun s ↦
  if p s then (.ok (), s) else (.error e, s)

def andThen (x y : Call ε σ) : Call ε σ := fun s ↦
  match x s with
  | (.ok (), s) => y s
  | (.error e, s) => (.error e, s)

/-- The error label `undo` is behind the call. -/
def onError (x : Call ε σ) (undo : σ → σ) : Call ε σ := fun s ↦
  match x s with
  | (.ok (), s) => (.ok (), s)
  | (.error e, s) => (.error e, undo s)

/-- A loop that is left at the first failure. -/
def forEach (x : α → Call ε σ) : List α → Call ε σ
  | [] => update id
  | a :: as => andThen (x a) (forEach x as)

/-- From `P`, the call ends in `Q` when it returns and in `E` when it fails. -/
structure Triple (P : σ → Prop) (x : Call ε σ) (Q E : σ → Prop) : Prop where
  ok : ∀ s, P s → (x s).1 = .ok () → Q (x s).2
  error : ∀ s e, P s → (x s).1 = .error e → E (x s).2

/-- The call leaves the state as it is when it fails. -/
def FailsUnchanged (x : Call ε σ) (s : σ) : Prop := ∀ e, (x s).1 = .error e → (x s).2 = s

variable {x y : Call ε σ} {s : σ} {P P' Q Q' R E E' : σ → Prop}

theorem andThen_of_ok (h : (x s).1 = .ok ()) : andThen x y s = y (x s).2 := by
  rw [andThen]
  split
  · rename_i hx
    rw [hx]
  · rename_i hx
    rw [hx] at h
    cases h

theorem andThen_of_error {e : ε} (h : (x s).1 = .error e) :
    andThen x y s = (.error e, (x s).2) := by
  rw [andThen]
  split
  · rename_i hx
    rw [hx] at h
    cases h
  · rename_i hx
    rw [hx] at h ⊢
    cases h
    rfl

theorem onError_of_ok {undo : σ → σ} (h : (x s).1 = .ok ()) : onError x undo s = x s := by
  rw [onError]
  split
  · rename_i hx
    exact hx.symm
  · rename_i hx
    rw [hx] at h
    cases h

theorem onError_of_error {undo : σ → σ} {e : ε} (h : (x s).1 = .error e) :
    onError x undo s = (.error e, undo (x s).2) := by
  rw [onError]
  split
  · rename_i hx
    rw [hx] at h
    cases h
  · rename_i hx
    rw [hx] at h ⊢
    cases h
    rfl

theorem andThen_assoc {z : Call ε σ} : andThen (andThen x y) z = andThen x (andThen y z) := by
  funext s
  cases h : (x s).1 with
  | ok _ =>
    rw [andThen_of_ok h, andThen, andThen_of_ok h]
    rfl
  | error e =>
    rw [andThen_of_error h, andThen, andThen_of_error h]

theorem andThen_ok_iff : (andThen x y s).1 = .ok () ↔
    (x s).1 = .ok () ∧ (y (x s).2).1 = .ok () := by
  cases h : (x s).1 with
  | ok _ =>
    rw [andThen_of_ok h]
    exact (and_iff_right rfl).symm
  | error e =>
    rw [andThen_of_error h]
    exact iff_of_false nofun fun hand ↦ nomatch hand.1

theorem onError_fst {undo : σ → σ} : (onError x undo s).1 = (x s).1 := by
  cases h : (x s).1 with
  | ok _ => rw [onError_of_ok h, h]
  | error e => rw [onError_of_error h]

theorem forEach_congr {x y : α → Call ε σ} {as : List α} (h : ∀ a ∈ as, x a = y a) :
    forEach x as = forEach y as := by
  induction as with
  | nil => rfl
  | cons a as ih =>
    rw [forEach, forEach, h a List.mem_cons_self, ih fun b hb ↦ h b (List.mem_cons_of_mem a hb)]

theorem forEach_of_unchanged {x : α → Call ε σ} {as : List α}
    (h : ∀ a ∈ as, x a s = (.ok (), s)) : forEach x as s = (.ok (), s) := by
  induction as with
  | nil => rfl
  | cons a as ih =>
    have ha := h a List.mem_cons_self
    rw [forEach, andThen_of_ok (by rw [ha]), ha]
    exact ih fun b hb ↦ h b (List.mem_cons_of_mem a hb)

/-- A loop whose first turn that does anything fails ends with it. -/
theorem forEach_of_first {x : α → Call ε σ} {as bs : List α} {a : α} {e : ε}
    (has : ∀ b ∈ as, x b s = (.ok (), s)) (ha : (x a s).1 = .error e) :
    forEach x (as ++ a :: bs) s = x a s := by
  induction as with
  | nil => exact (andThen_of_error ha).trans (Prod.ext ha.symm rfl)
  | cons b as ih =>
    have hb := has b List.mem_cons_self
    rw [List.cons_append, forEach, andThen_of_ok (by rw [hb]), hb]
    exact ih fun c hc ↦ has c (List.mem_cons_of_mem b hc)

/-- A loop that gets to its end does to what is seen of the state what a fold does. -/
theorem foldlM_of_forEach {β : Type*} {x : α → Call ε σ} {f : β → α → Except ε β} {g : σ → β}
    {as : List α} (hstep : ∀ a ∈ as, ∀ s, P s → (x a s).1 = .ok () →
      P (x a s).2 ∧ f (g s) a = .ok (g (x a s).2))
    (hs : P s) (h : (forEach x as s).1 = .ok ()) :
    as.foldlM f (g s) = .ok (g (forEach x as s).2) ∧ P (forEach x as s).2 := by
  induction as generalizing s with
  | nil => exact ⟨rfl, hs⟩
  | cons a as ih =>
    obtain ⟨ha, has⟩ := andThen_ok_iff.mp h
    obtain ⟨hs', hf⟩ := hstep a List.mem_cons_self s hs ha
    rw [List.foldlM_cons, hf, forEach, andThen_of_ok ha]
    exact ih (fun b hb ↦ hstep b (List.mem_cons_of_mem a hb)) hs' has

section Test

variable {p : σ → Prop} [DecidablePred p] {e : ε}

theorem andThen_test_of_pos (h : p s) : andThen (test p e) y s = y s := by
  simp [andThen, test, h]

theorem andThen_test_of_neg (h : ¬ p s) : andThen (test p e) y s = (.error e, s) := by
  simp [andThen, test, h]

theorem andThen_require_of_pos {p : Prop} [Decidable p] (h : p) :
    andThen (require p e) y = y := by
  funext s
  simp [andThen, require, ofExcept, h]

theorem andThen_require_of_neg {p : Prop} [Decidable p] (h : ¬ p) :
    andThen (require p e) y s = (.error e, s) := by
  simp [andThen, require, ofExcept, h]

end Test

namespace FailsUnchanged

theorem of_ok (h : (x s).1 = .ok ()) : FailsUnchanged x s := by
  intro e he
  cases h.symm.trans he

/-- Nothing is changed before the last thing that may fail. -/
theorem andThen (hx : (x s).2 = s) (hy : FailsUnchanged y s) :
    FailsUnchanged (Unwinding.andThen x y) s := by
  intro e h
  cases hxs : (x s).1 with
  | ok _ =>
    rw [andThen_of_ok hxs, hx] at h ⊢
    exact hy e h
  | error e' => rw [andThen_of_error hxs, hx]

theorem andThen_test {p : σ → Prop} [DecidablePred p] {e : ε} (hy : p s → FailsUnchanged y s) :
    FailsUnchanged (Unwinding.andThen (test p e) y) s := by
  by_cases h : p s
  · intro e' he
    rw [andThen_test_of_pos h] at he ⊢
    exact hy h e' he
  · intro _ _
    rw [andThen_test_of_neg h]

theorem andThen_require {p : Prop} [Decidable p] {e : ε} (hy : p → FailsUnchanged y s) :
    FailsUnchanged (Unwinding.andThen (require p e) y) s := by
  by_cases h : p
  · rw [andThen_require_of_pos h]
    exact hy h
  · intro _ _
    rw [andThen_require_of_neg h]

end FailsUnchanged

namespace Triple

theorem update {f : σ → σ} (h : ∀ s, P s → Q (f s)) :
    Triple P (Unwinding.update f : Call ε σ) Q E :=
  ⟨fun s hs _ ↦ h s hs, nofun⟩

theorem andThen (hx : Triple P x R E) (hy : Triple R y Q E) :
    Triple P (Unwinding.andThen x y) Q E := by
  constructor
  · intro s hs hok
    obtain ⟨hxok, hyok⟩ := andThen_ok_iff.mp hok
    rw [andThen_of_ok hxok]
    exact hy.ok _ (hx.ok s hs hxok) hyok
  · intro s e hs herr
    cases hxs : (x s).1 with
    | ok _ =>
      rw [andThen_of_ok hxs] at herr ⊢
      exact hy.error _ e (hx.ok s hs hxs) herr
    | error e' =>
      rw [andThen_of_error hxs]
      exact hx.error s e' hs hxs

theorem onError {undo : σ → σ} (hx : Triple P x Q E) (hundo : ∀ s, E s → E' (undo s)) :
    Triple P (Unwinding.onError x undo) Q E' := by
  constructor
  · intro s hs hok
    rw [onError_fst] at hok
    rw [onError_of_ok hok]
    exact hx.ok s hs hok
  · intro s e hs herr
    rw [onError_fst] at herr
    rw [onError_of_error herr]
    exact hundo _ (hx.error s e hs herr)

/-- The rule for a loop with an invariant. -/
theorem forEach {x : α → Call ε σ} {as : List α} (h : ∀ a ∈ as, Triple P (x a) P E) :
    Triple P (Unwinding.forEach x as) P E := by
  induction as with
  | nil => exact update fun _ hs ↦ hs
  | cons a as ih =>
    exact (h a List.mem_cons_self).andThen (ih fun b hb ↦ h b (List.mem_cons_of_mem a hb))

end Triple

end Library.Unwinding
