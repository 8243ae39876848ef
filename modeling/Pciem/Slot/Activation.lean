import Pciem.Attach.Hijack
import Pciem.Bar.Register
import Pciem.Library.Replay

namespace Pciem.Slot.Activation

open Kernel Library.Replay
open Bar.Register (PciemBusMode)

/-- What activation uses of a root complex; a sibling may have no `pciem_pdev`. -/
structure PciemRootComplex (β δ : Type) where
  busMode : PciemBusMode
  rootBus : Option β
  siblingFuncs : ℕ → Option (Option δ)
  activated : Bool

/-- What is handed to the subsystem. -/
inductive Added (β δ : Type)
  | devices (bus : β)
  | device (pdev : δ)

/-- A START that is past `pciem_check_registered`. -/
structure Start where
  /-- It was issued after the body had begun. -/
  late : Bool
  /-- What it has returned. -/
  result : Option (Except Errno Unit)

/-- The root complex, its work item, and the STARTs by their names. -/
structure Threads (β δ ι : Type) where
  v : PciemRootComplex β δ
  pending : Bool
  running : Bool
  /-- How many times the body has begun. -/
  began : ℕ
  added : List (Added β δ)
  starts : ι → Option Start

inductive Turn (ι : Type)
  | test (i : ι)
  | scheduleWork (i : ι)
  | workBegin
  | workEnd

variable {β δ ι : Type}

/-- What `pciem_activation_work_func` adds. -/
def activationWork (v : PciemRootComplex β δ) : List (Added β δ) :=
  match v.busMode with
  | .virtualRoot => v.rootBus.toList.map .devices
  | .attachToHost =>
    (List.range pciemMaxFunctions).filterMap fun f ↦ (v.siblingFuncs f).join.map .device

def initial (v : PciemRootComplex β δ) : Threads β δ ι :=
  ⟨{ v with activated := false }, false, false, 0, [], fun _ ↦ none⟩

variable [DecidableEq ι]

def Threads.setStart (s : Threads β δ ι) (i : ι) (x : Start) : Threads β δ ι :=
  { s with starts := Function.update s.starts i (some x) }

/-- A turn that cannot be taken changes nothing. -/
def step (s : Threads β δ ι) : Turn ι → Threads β δ ι
  | .test i =>
    match s.starts i with
    | none => s.setStart i
        ⟨0 < s.began, if s.v.activated then some (.error .ealready) else none⟩
    | some _ => s
  | .scheduleWork i =>
    match s.starts i with
    | some ⟨late, none⟩ => { s.setStart i ⟨late, some (.ok ())⟩ with pending := true }
    | _ => s
  | .workBegin =>
    if s.pending = true ∧ s.running = false then
      { s with
        pending := false
        running := true
        began := s.began + 1
        added := s.added ++ activationWork s.v }
    else s
  | .workEnd =>
    if s.running = true then
      { s with running := false, v := { s.v with activated := true } }
    else s

/-- The body has run at most once, and no START that came after its beginning gets past the test. -/
def AtMostOnce (s : Threads β δ ι) : Prop :=
  s.began ≤ 1 ∧
    ∀ i x, s.starts i = some x → x.late = true → x.result = some (.error .ealready)

/-- No START tests `activated` while the body runs, and none that is past its test queues the work
once the body has begun. -/
def Careful (s : Threads β δ ι) : Turn ι → Prop
  | .test i => s.starts i = none → s.running = false
  | .scheduleWork i => ∀ late, s.starts i = some ⟨late, none⟩ → s.began = 0
  | .workBegin | .workEnd => True

/-- The work is not queued, and every START has returned. -/
def Quiet (s : Threads β δ ι) : Prop :=
  s.pending = false ∧ ∀ i x, s.starts i = some x → x.result.isSome = true

/-- How the flag and the work item go with the number of times that the body has begun. -/
structure Consistent (s : Threads β δ ι) : Prop where
  running : s.running = true → 0 < s.began
  activated : s.v.activated = true → 0 < s.began
  begun : 0 < s.began → s.running = true ∨ s.v.activated = true
  added : s.added = (List.replicate s.began (activationWork s.v)).flatten

section Steps

variable {s : Threads β δ ι} {i : ι}

theorem step_cases (s : Threads β δ ι) (a : Turn ι) : step s a = s ∨
    (∃ i, a = .test i ∧ s.starts i = none ∧ step s a = s.setStart i
      ⟨0 < s.began, if s.v.activated then some (.error .ealready) else none⟩) ∨
    (∃ i late, a = .scheduleWork i ∧ s.starts i = some ⟨late, none⟩ ∧
      step s a = { s.setStart i ⟨late, some (.ok ())⟩ with pending := true }) ∨
    (a = .workBegin ∧ s.pending = true ∧ s.running = false ∧ step s a =
      { s with
        pending := false
        running := true
        began := s.began + 1
        added := s.added ++ activationWork s.v }) ∨
    (a = .workEnd ∧ s.running = true ∧
      step s a = { s with running := false, v := { s.v with activated := true } }) := by
  cases a with
  | test i =>
    cases hi : s.starts i with
    | none => exact .inr (.inl ⟨i, rfl, hi, by rw [step, hi]⟩)
    | some x => exact .inl (by rw [step, hi])
  | scheduleWork i =>
    cases hi : s.starts i with
    | none => exact .inl (by rw [step, hi])
    | some x =>
      obtain ⟨late, result⟩ := x
      cases result with
      | none => exact .inr (.inr (.inl ⟨i, late, rfl, hi, by rw [step, hi]⟩))
      | some r => exact .inl (by rw [step, hi])
  | workBegin =>
    by_cases h : s.pending = true ∧ s.running = false
    · exact .inr (.inr (.inr (.inl ⟨rfl, h.1, h.2, if_pos h⟩)))
    · exact .inl (if_neg h)
  | workEnd =>
    by_cases h : s.running = true
    · exact .inr (.inr (.inr (.inr ⟨rfl, h, if_pos h⟩)))
    · exact .inl (if_neg h)

theorem Consistent.step (h : Consistent s) (a : Turn ι) : Consistent (step s a) := by
  rcases step_cases s a with hs | ⟨i, rfl, hi, hs⟩ | ⟨i, late, rfl, hi, hs⟩ |
    ⟨rfl, hpending, hrunning, hs⟩ | ⟨rfl, hrunning, hs⟩
  · rwa [hs]
  · rw [hs]
    exact ⟨h.running, h.activated, h.begun, h.added⟩
  · rw [hs]
    exact ⟨h.running, h.activated, h.begun, h.added⟩
  · rw [hs]
    refine ⟨fun _ ↦ Nat.succ_pos _, fun _ ↦ Nat.succ_pos _, fun _ ↦ .inl rfl, ?_⟩
    change s.added ++ activationWork s.v = _
    rw [h.added, List.replicate_succ', List.flatten_append, List.flatten_singleton]
  · rw [hs]
    exact ⟨Bool.noConfusion, fun _ ↦ h.running hrunning, fun _ ↦ .inr rfl, h.added⟩

/-- What `Careful` turns keep: once the body has begun, the work is not queued again. -/
structure Single (s : Threads β δ ι) : Prop extends Consistent s where
  atMostOnce : AtMostOnce s
  queued : s.pending = true → s.began = 0
  unset : s.running = true → s.v.activated = false

/-- What is lost is not made good: the body is going to begin again, or has, or a START that came
late is past the test. -/
def Lost (s : Threads β δ ι) : Prop :=
  s.pending = true ∧ 0 < s.began ∨ 2 ≤ s.began ∨
    ∃ i x, s.starts i = some x ∧ x.late = true ∧ x.result ≠ some (.error .ealready)

theorem setStart_of_ne {i j : ι} {x : Start} (h : j ≠ i) :
    (s.setStart i x).starts j = s.starts j := Function.update_of_ne h ..

theorem setStart_self {x : Start} : (s.setStart i x).starts i = some x := Function.update_self ..

theorem setStart_cases {x y : Start} {j : ι} (h : (s.setStart i x).starts j = some y) :
    (j = i ∧ y = x) ∨ (j ≠ i ∧ s.starts j = some y) := by
  by_cases hj : j = i
  · subst hj
    exact .inl ⟨rfl, Option.some.inj (h.symm.trans setStart_self)⟩
  · exact .inr ⟨hj, (setStart_of_ne hj).symm.trans h⟩

theorem Single.step (h : Single s) {a : Turn ι} (hcareful : Careful s a) :
    Single (step s a) := by
  refine ⟨h.toConsistent.step a, ?_, ?_, ?_⟩
  · rcases step_cases s a with hs | ⟨i, rfl, hi, hs⟩ | ⟨i, late, rfl, hi, hs⟩ |
      ⟨rfl, hpending, hrunning, hs⟩ | ⟨rfl, hrunning, hs⟩
    · rw [hs]
      exact h.atMostOnce
    · rw [hs]
      refine ⟨h.atMostOnce.1, fun j x hx hlate ↦ ?_⟩
      rcases setStart_cases hx with ⟨rfl, rfl⟩ | ⟨-, hx⟩
      · have hbegun : 0 < s.began := of_decide_eq_true hlate
        have hactivated : s.v.activated = true := (h.begun hbegun).resolve_left fun hrun ↦
          Bool.noConfusion ((hcareful hi).symm.trans hrun)
        exact if_pos hactivated
      · exact h.atMostOnce.2 j x hx hlate
    · rw [hs]
      refine ⟨h.atMostOnce.1, fun j x hx hlate ↦ ?_⟩
      rcases setStart_cases hx with ⟨rfl, rfl⟩ | ⟨-, hx⟩
      · have hresult := h.atMostOnce.2 j _ hi hlate
        exact absurd hresult.symm (Option.some_ne_none _)
      · exact h.atMostOnce.2 j x hx hlate
    · rw [hs]
      have hzero := h.queued hpending
      exact ⟨by change s.began + 1 ≤ 1; omega, h.atMostOnce.2⟩
    · rw [hs]
      exact h.atMostOnce
  · rcases step_cases s a with hs | ⟨i, rfl, hi, hs⟩ | ⟨i, late, rfl, hi, hs⟩ |
      ⟨rfl, hpending, hrunning, hs⟩ | ⟨rfl, hrunning, hs⟩
    · rw [hs]
      exact h.queued
    · rw [hs]
      exact h.queued
    · rw [hs]
      exact fun _ ↦ hcareful late hi
    · rw [hs]
      exact Bool.noConfusion
    · rw [hs]
      exact h.queued
  · rcases step_cases s a with hs | ⟨i, rfl, hi, hs⟩ | ⟨i, late, rfl, hi, hs⟩ |
      ⟨rfl, hpending, hrunning, hs⟩ | ⟨rfl, hrunning, hs⟩
    · rw [hs]
      exact h.unset
    · rw [hs]
      exact h.unset
    · rw [hs]
      exact h.unset
    · rw [hs]
      refine fun _ ↦ Bool.eq_false_iff.mpr fun hactivated ↦ ?_
      exact absurd (h.queued hpending) (h.activated hactivated).ne'
    · rw [hs]
      exact Bool.noConfusion

theorem Lost.step (h : Lost s) (a : Turn ι) : Lost (step s a) := by
  rcases step_cases s a with hs | ⟨i, rfl, hi, hs⟩ | ⟨i, late, rfl, hi, hs⟩ |
    ⟨rfl, hpending, hrunning, hs⟩ | ⟨rfl, hrunning, hs⟩
  · rwa [hs]
  · rw [hs]
    refine h.imp_right (Or.imp_right fun ⟨j, x, hx, hlost⟩ ↦ ⟨j, x, ?_, hlost⟩)
    have hj : j ≠ i := by
      rintro rfl
      exact Option.some_ne_none _ (hx.symm.trans hi)
    exact (setStart_of_ne hj).trans hx
  · rw [hs]
    rcases h with ⟨-, hbegan⟩ | htwo | ⟨j, x, hx, hlate, hresult⟩
    · exact .inl ⟨rfl, hbegan⟩
    · exact .inr (.inl htwo)
    · by_cases hj : j = i
      · subst hj
        obtain rfl := Option.some.inj (hx.symm.trans hi)
        have hok : some (.ok ()) ≠ some (.error Errno.ealready : Except Errno Unit) := by
          intro h
          cases h
        exact .inr (.inr ⟨j, _, setStart_self, hlate, hok⟩)
      · exact .inr (.inr ⟨j, x, (setStart_of_ne hj).trans hx, hlate, hresult⟩)
  · rw [hs]
    refine .inr ?_
    rcases h with ⟨-, hbegan⟩ | htwo | hlost
    · exact .inl (Nat.succ_le_succ hbegan)
    · exact .inl (Nat.le_succ_of_le htwo)
    · exact .inr hlost
  · rw [hs]
    exact h

/-- A START that tests the flag while the body runs gets past it, and a body that has begun begins
again once the work is queued. -/
theorem Single.lost (h : Single s) {a : Turn ι} (hcareful : ¬ Careful s a) :
    Lost (Activation.step s a) := by
  cases a with
  | test i =>
    obtain ⟨hi, hrunning⟩ := Classical.not_imp.mp hcareful
    rw [Bool.not_eq_false] at hrunning
    have hlate : decide (0 < s.began) = true := decide_eq_true (h.running hrunning)
    have hpast : (if s.v.activated = true then some (.error .ealready) else none) ≠
        some (.error Errno.ealready : Except Errno Unit) := by
      rw [h.unset hrunning, if_neg Bool.false_ne_true]
      exact (Option.some_ne_none _).symm
    rw [Activation.step, hi]
    exact .inr (.inr ⟨i, _, setStart_self, hlate, hpast⟩)
  | scheduleWork i =>
    obtain ⟨late, hlate⟩ := not_forall.mp hcareful
    obtain ⟨hi, hbegan⟩ := Classical.not_imp.mp hlate
    rw [Activation.step, hi]
    exact .inl ⟨rfl, Nat.pos_of_ne_zero hbegan⟩
  | workBegin | workEnd => exact absurd trivial hcareful

omit [DecidableEq ι] in
theorem Lost.not_atMostOnce (h : Lost s) (hquiet : Quiet s) : ¬ AtMostOnce s := by
  intro hone
  rcases h with ⟨hpending, -⟩ | htwo | ⟨i, x, hx, hlate, hresult⟩
  · exact Bool.noConfusion (hquiet.1.symm.trans hpending)
  · exact absurd hone.1 (by omega)
  · exact hresult (hone.2 i x hx hlate)

omit [DecidableEq ι] in
theorem single_initial (v : PciemRootComplex β δ) : Single (initial v : Threads β δ ι) where
  running := Bool.noConfusion
  activated := Bool.noConfusion
  begun h := absurd h (Nat.lt_irrefl 0)
  added := rfl
  atMostOnce := ⟨Nat.zero_le 1, fun _ _ h ↦ absurd h.symm (Option.some_ne_none _)⟩
  queued := Bool.noConfusion
  unset := Bool.noConfusion

end Steps

theorem each_single {s : Threads β δ ι} {as : List (Turn ι)} (hs : Single s)
    (h : Each step Careful s as) : Always step Single s as :=
  h.always (fun _ _ hs hcareful ↦ hs.step hcareful) hs

theorem lost_of_lost {s : Threads β δ ι} (as : List (Turn ι)) (h : Lost s) :
    Lost (as.foldl step s) :=
  (always_of_kept (fun _ a hs ↦ hs.step a) h as).last

theorem lost_of_careless {s : Threads β δ ι} {as : List (Turn ι)} (hs : Single s)
    (h : ¬ Each step Careful s as) : Lost (as.foldl step s) := by
  induction as generalizing s with
  | nil => exact absurd trivial h
  | cons a as ih =>
    by_cases ha : Careful s a
    · exact ih (hs.step ha) fun has ↦ h ⟨ha, has⟩
    · exact lost_of_lost as (hs.lost ha)

/-- The device is activated at most once in every state that a careful run comes to, and a run that
ends quietly has been careful where it is. -/
theorem activated_once_iff (v : PciemRootComplex β δ) (as : List (Turn ι)) :
    (Each step Careful (initial v) as → Always step AtMostOnce (initial v) as) ∧
    (Quiet (as.foldl step (initial v)) →
      (AtMostOnce (as.foldl step (initial v)) ↔ Each step Careful (initial v) as)) := by
  have hcareful (h : Each step Careful (initial v) as) : Always step AtMostOnce (initial v) as :=
    (each_single (single_initial v) h).mono fun s hs ↦ hs.atMostOnce
  refine ⟨hcareful, fun hquiet ↦ ⟨fun hone ↦ ?_, fun h ↦ (hcareful h).last⟩⟩
  by_contra hno
  exact (lost_of_careless (single_initial v) hno).not_atMostOnce hquiet hone

def virtualRoot : PciemRootComplex Unit Unit := ⟨.virtualRoot, some (), fun _ ↦ none, false⟩

def startTwice : List (Turn ℕ) :=
  [.test 0, .scheduleWork 0, .workBegin, .workEnd, .test 1]

theorem activated_once_startTwice : AtMostOnce (startTwice.foldl step (initial virtualRoot)) := by
  have hcareful : Each step Careful (initial virtualRoot) startTwice :=
    ⟨fun _ ↦ rfl, fun _ _ ↦ rfl, trivial, trivial, fun _ ↦ rfl, trivial⟩
  exact ((activated_once_iff virtualRoot startTwice).1 hcareful).last

/-- The second START comes between the beginning of the body and the end of it. -/
theorem activated_twice : ¬ ∀ (v : PciemRootComplex Unit Unit) (as : List (Turn ℕ)),
    Always step AtMostOnce (initial v) as := by
  intro h
  have hone := (h virtualRoot
    [.test 0, .scheduleWork 0, .workBegin, .test 1, .scheduleWork 1, .workEnd, .workBegin]).last.1
  exact absurd hone (by decide)

end Pciem.Slot.Activation
