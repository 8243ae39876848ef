import Pciem.Events.Eventfd
import Pciem.Library.Interleaving
import Pciem.Library.Replay

namespace Pciem.Events.Signalling

open Library.Interleaving Library.Replay

/-- `eventfd` and `event_pending` of the state that an fd has; `γ` has the eventfd contexts. -/
structure EventfdState (γ : Type) where
  eventfd : Option γ
  eventPending : Bool

/-- A negative fd makes the new context null. -/
inductive Call (γ : Type)
  | setEventfd (eventfd : Option γ)
  | queueEvent

/-- Where a call stands between two of its steps, with its local variables. -/
inductive Point (γ : Type)
  /-- SET_EVENTFD has a reference on the new context, before its critical section. -/
  | fetched (eventfd : Option γ)
  /-- There was no context before, and `atomic_xchg` comes next. -/
  | exchanging
  /-- At the beginning of `pciem_eventfd_signal`. -/
  | delivering
  /-- `us->eventfd` has been read, and `eventfd_signal` comes next. -/
  | signalling (eventfd : Option γ)
  /-- `eventfd_ctx_put` of the old context comes next. -/
  | replaced (oldEventfd : γ)
  /-- `pciem_userspace_queue_event` has pushed its event, before its critical section. -/
  | pushed
  | returned

variable {γ ι : Type}

def enter : Call γ → EventfdState γ → Point γ × EventfdState γ
  | .setEventfd eventfd, us => (.fetched eventfd, us)
  | .queueEvent, us => (.pushed, us)

/-- The critical section of `pciem_ioctl_set_eventfd`. -/
def replace (eventfd : Option γ) (us : EventfdState γ) : Point γ × EventfdState γ :=
  match us.eventfd with
  | none => (.exchanging, { us with eventfd })
  | some oldEventfd => (.replaced oldEventfd, { us with eventfd })

/-- The critical section of `pciem_userspace_queue_event`. -/
def notify (us : EventfdState γ) : EventfdState γ :=
  match us.eventfd with
  | none => { us with eventPending := true }
  | some _ => us

def next : Point γ → EventfdState γ → Point γ × EventfdState γ
  | .fetched eventfd, us => replace eventfd us
  | .exchanging, us =>
    (if us.eventPending then .delivering else .returned, { us with eventPending := false })
  | .delivering, us => (.signalling us.eventfd, us)
  | .signalling _, us => (.returned, us)
  | .replaced _, us => (.returned, us)
  | .pushed, us => (.returned, notify us)
  | .returned, us => (.returned, us)

def ioctl : Program (EventfdState γ) (Call γ) (Point γ) := ⟨enter, fun _ ↦ next⟩

section Eventfd

/-- What a run with one eventfd has in `us->eventfd` and `us->event_pending`. -/
def fdState (s : Eventfd.EventState ι) : EventfdState Unit where
  eventfd := if s.eventfd then some () else none
  eventPending := s.eventPending

theorem fdState_notify (s : Eventfd.EventState ι) : fdState s.notify = notify (fdState s) := by
  unfold Eventfd.EventState.notify fdState notify
  cases s.eventfd with
  | true | false => rfl

/-- A step of the run does to them what one step of a call does, or nothing. -/
theorem fdState_step [DecidableEq ι] {s t : Eventfd.EventState ι} (h : Eventfd.EventStep s t) :
    fdState t = fdState s ∨ ∃ q : Point Unit,
      (q = .pushed ∨ q = .fetched (some ()) ∨ q = .exchanging) ∧
        (next q (fdState s)).2 = fdState t := by
  cases h with
  | push | wake | reset | drain | drained => exact .inl rfl
  | notify => exact .inr ⟨.pushed, .inl rfl, (fdState_notify s).symm⟩
  | install =>
    refine .inr ⟨.fetched (some ()), .inr (.inl rfl), ?_⟩
    rw [next, replace, fdState]
    cases s.eventfd with
    | true | false => rfl
  | @exchange old =>
    cases old with
    | true => exact .inl rfl
    | false => exact .inr ⟨.exchanging, .inr (.inr rfl), rfl⟩

end Eventfd

abbrev Threads (γ ι : Type) := Config (EventfdState γ) (Call γ) (Point γ) ι

/-- The call has a reference on the context. -/
def Owns (ctx : γ) (q : Point γ) : Prop := q = .fetched (some ctx) ∨ q = .replaced ctx

/-- The state has a reference on the context, by `us->eventfd` or by a call. -/
def Holds (s : Threads γ ι) (ctx : γ) : Prop :=
  s.shared.eventfd = some ctx ∨ ∃ i, s.At (fun _ ↦ Owns ctx) i

/-- What the call is to signal: in its critical section, where there is a context, or in
`pciem_eventfd_signal`. -/
def signalled (us : EventfdState γ) : Point γ → Option (Option γ)
  | .pushed => us.eventfd.map some
  | .delivering => some us.eventfd
  | .signalling eventfd => some eventfd
  | _ => none

/-- Whatever is to be signalled is a context that the state has a reference on. -/
def Safe (s : Threads γ ι) : Prop :=
  ∀ i eventfd, s.At (fun _ q ↦ signalled s.shared q = some eventfd) i →
    ∃ ctx, eventfd = some ctx ∧ Holds s ctx

/-- The context is cleared while no call is about to read it, a pending event is found while there
is one, and a reference is given back while no call is about to signal its context, or while
there is another one. -/
structure Careful (s : Threads γ ι) (i : ι) : Prop where
  clear : s.At (fun _ q ↦ q = .fetched none) i → ∀ j, ¬ s.At (fun _ q ↦ q = .delivering) j
  exchange : s.At (fun _ q ↦ q = .exchanging) i → s.shared.eventPending = true →
    s.shared.eventfd ≠ none
  put : ∀ ctx, s.At (fun _ q ↦ q = .replaced ctx) i →
    ∀ j, s.At (fun _ q ↦ q = .signalling (some ctx)) j →
      s.shared.eventfd = some ctx ∨ ∃ k, k ≠ i ∧ s.At (fun _ ↦ Owns ctx) k

def CarefulTurn (s : Threads γ ι) (a : Turn ι (Call γ)) : Prop := ∀ i, a = .next i → Careful s i

section Kept

variable {s : Threads γ ι} {us : EventfdState γ} {i : ι} {c : Call γ} {q : Point γ} {ctx : γ}

theorem enter_snd (c : Call γ) (us : EventfdState γ) : (enter c us).2 = us := by
  cases c with
  | setEventfd | queueEvent => rfl

theorem eventfd_replace (eventfd : Option γ) (us : EventfdState γ) :
    (replace eventfd us).2.eventfd = eventfd := by
  rw [replace]
  split
  · rfl
  · rfl

/-- Only SET_EVENTFD changes the context, in its critical section. -/
theorem eventfd_next (q : Point γ) (us : EventfdState γ) : (next q us).2.eventfd = us.eventfd ∨
    ∃ eventfd, q = .fetched eventfd ∧ (next q us).2.eventfd = eventfd := by
  cases q with
  | fetched eventfd => exact .inr ⟨eventfd, rfl, eventfd_replace eventfd us⟩
  | pushed =>
    rw [next, notify]
    split
    · exact .inl rfl
    · exact .inl rfl
  | exchanging | delivering | signalling | replaced | returned => exact .inl rfl

/-- What the critical section takes out of the state is what the call has from then on. -/
theorem owns_replace (h : us.eventfd = some ctx) (eventfd : Option γ) :
    Owns ctx (replace eventfd us).1 := by
  rw [replace, h]
  exact .inr rfl

theorem signalled_next (h : Safe s) (hi : s.calls i = some (c, q)) (hcareful : Careful s i)
    {eventfd : Option γ} (hq : signalled (next q s.shared).2 (next q s.shared).1 = some eventfd) :
    ∃ ctx, eventfd = some ctx ∧ (next q s.shared).2.eventfd = some ctx := by
  cases q with
  | fetched eventfd' =>
    rw [next, replace] at hq
    split at hq
    · cases hq
    · cases hq
  | exchanging =>
    cases hpending : s.shared.eventPending with
    | false => simp [next, hpending, signalled] at hq
    | true =>
      have hsome := hcareful.exchange ((at_iff hi).mpr rfl) hpending
      obtain ⟨ctx, hctx⟩ := Option.ne_none_iff_exists'.mp hsome
      simp only [next, hpending, if_true, signalled, Option.some.injEq] at hq
      exact ⟨ctx, hq.symm.trans hctx, hctx⟩
  | delivering =>
    obtain ⟨ctx, hctx, -⟩ := h i s.shared.eventfd ((at_iff hi).mpr rfl)
    simp only [next, signalled, Option.some.injEq] at hq
    exact ⟨ctx, hq.symm.trans hctx, hctx⟩
  | signalling | replaced | pushed | returned => cases hq

variable [DecidableEq ι]

theorem holds_enter (h : Holds s ctx) (hi : s.calls i = none) :
    Holds (s.move i c (enter c s.shared)) ctx := by
  rcases h with heventfd | ⟨j, hj⟩
  · exact .inl ((congrArg EventfdState.eventfd (enter_snd c s.shared)).trans heventfd)
  · refine .inr ⟨j, ?_⟩
    rw [at_move_of_ne]
    · exact hj
    · rintro rfl
      exact not_at_of_none hi hj

theorem holds_next (h : Holds s ctx) (hi : s.calls i = some (c, q))
    (hput : q = .replaced ctx →
      s.shared.eventfd = some ctx ∨ ∃ k, k ≠ i ∧ s.At (fun _ ↦ Owns ctx) k) :
    Holds (s.move i c (next q s.shared)) ctx := by
  have hshared (heventfd : s.shared.eventfd = some ctx) :
      Holds (s.move i c (next q s.shared)) ctx := by
    rcases eventfd_next q s.shared with hsame | ⟨eventfd, rfl, -⟩
    · exact .inl (hsame.trans heventfd)
    · exact .inr ⟨i, at_move_self.mpr (owns_replace heventfd eventfd)⟩
  have hother (k : ι) (hk : k ≠ i) (hat : s.At (fun _ ↦ Owns ctx) k) :
      Holds (s.move i c (next q s.shared)) ctx := .inr ⟨k, (at_move_of_ne hk).mpr hat⟩
  rcases h with heventfd | ⟨k, hk⟩
  · exact hshared heventfd
  · by_cases hki : k = i
    · subst hki
      rcases (at_iff hi).mp hk with rfl | rfl
      · exact .inl (eventfd_replace (some ctx) s.shared)
      · rcases hput rfl with heventfd | ⟨k', hk', hat⟩
        · exact hshared heventfd
        · exact hother k' hk' hat
    · exact hother k hki hk

theorem safe_enter (h : Safe s) (hi : s.calls i = none) :
    Safe (s.move i c (enter c s.shared)) := by
  have hkept (ctx : γ) (hctx : Holds s ctx) := holds_enter (c := c) hctx hi
  intro j eventfd hj
  by_cases hji : j = i
  · subst hji
    have hq := at_move_self.mp hj
    cases c with
    | setEventfd eventfd' => cases hq
    | queueEvent =>
      obtain ⟨ctx, heventfd, rfl⟩ := Option.map_eq_some_iff.mp hq
      exact ⟨ctx, rfl, .inl heventfd⟩
  · have hat := (at_move_of_ne hji).mp hj
    rw [show (s.move i c (enter c s.shared)).shared = s.shared from enter_snd c s.shared] at hat
    obtain ⟨ctx, rfl, hctx⟩ := h j eventfd hat
    exact ⟨ctx, rfl, hkept ctx hctx⟩

theorem safe_next (h : Safe s) (hi : s.calls i = some (c, q)) (hcareful : Careful s i) :
    Safe (s.move i c (next q s.shared)) := by
  intro j eventfd hj
  by_cases hji : j = i
  · subst hji
    obtain ⟨ctx, heventfd, hctx⟩ := signalled_next h hi hcareful (at_move_self.mp hj)
    exact ⟨ctx, heventfd, .inl hctx⟩
  · obtain ⟨c', q', hj', hq'⟩ := (at_move_of_ne hji).mp hj
    have hcontext (hsome : (next q s.shared).2.eventfd ≠ none) :
        ∃ ctx, (next q s.shared).2.eventfd = some ctx ∧
          Holds (s.move i c (next q s.shared)) ctx := by
      obtain ⟨ctx, hctx⟩ := Option.ne_none_iff_exists'.mp hsome
      exact ⟨ctx, hctx, .inl hctx⟩
    cases q' with
    | delivering =>
      have hsome : (next q s.shared).2.eventfd ≠ none := by
        rcases eventfd_next q s.shared with hsame | ⟨eventfd', rfl, hnew⟩
        · obtain ⟨ctx, hctx, -⟩ := h j s.shared.eventfd ((at_iff hj').mpr rfl)
          rw [hsame, hctx]
          simp
        · rw [hnew]
          rintro rfl
          exact hcareful.clear ((at_iff hi).mpr rfl) j ((at_iff hj').mpr rfl)
      cases hq'
      exact hcontext hsome
    | signalling eventfd' =>
      cases hq'
      obtain ⟨ctx, rfl, hctx⟩ := h j eventfd ((at_iff hj').mpr rfl)
      refine ⟨ctx, rfl, holds_next hctx hi fun hq ↦ ?_⟩
      exact hcareful.put ctx ((at_iff hi).mpr hq) j ((at_iff hj').mpr rfl)
    | pushed =>
      obtain ⟨ctx, hctx, rfl⟩ := Option.map_eq_some_iff.mp hq'
      exact ⟨ctx, rfl, .inl hctx⟩
    | fetched | exchanging | replaced | returned => cases hq'

theorem safe_step (h : Safe s) {a : Turn ι (Call γ)} (hcareful : CarefulTurn s a) :
    Safe (ioctl.step s a) := by
  rcases step_cases ioctl s a with heq | ⟨i, c, before, rfl, hi, heq⟩
  · rwa [heq]
  · rw [heq]
    cases before with
    | none => exact safe_enter h hi
    | some q => exact safe_next h hi (hcareful i rfl)

end Kept

section Lost

variable [DecidableEq ι] {s : Threads γ ι} {i : ι} {a : Turn ι (Call γ)}

/-- A turn that is not careful leaves a call with something else to signal. -/
theorem not_safe_step (hno : ¬ CarefulTurn s a) : ¬ Safe (ioctl.step s a) := by
  intro hsafe
  refine hno fun i ha ↦ ?_
  subst ha
  refine ⟨fun hat j hj ↦ ?_, fun hat hpending hnone ↦ ?_, fun ctx hat j hj ↦ ?_⟩
  · obtain ⟨c, q, hi, rfl⟩ := hat
    have hne : j ≠ i := by
      rintro rfl
      cases (at_iff hi).mp hj
    rw [step_next hi] at hsafe
    have hcleared : (s.move i c (next (.fetched none) s.shared)).shared.eventfd = none :=
      eventfd_replace none s.shared
    obtain ⟨c', q', hj', rfl⟩ := hj
    have hat : (s.move i c (next (.fetched none) s.shared)).calls j = some (c', .delivering) :=
      (calls_move_of_ne hne).trans hj'
    obtain ⟨ctx, hctx, -⟩ := hsafe j none ⟨_, _, hat, congrArg some hcleared⟩
    cases hctx
  · obtain ⟨c, q, hi, rfl⟩ := hat
    rw [step_next hi] at hsafe
    have hat : (s.move i c (next .exchanging s.shared)).calls i = some (c, .delivering) := by
      rw [calls_move_self]
      simp [next, hpending]
    obtain ⟨ctx, hctx, -⟩ := hsafe i none ⟨_, _, hat, congrArg some hnone⟩
    cases hctx
  · obtain ⟨c, q, hi, rfl⟩ := hat
    have hne : j ≠ i := by
      rintro rfl
      cases (at_iff hi).mp hj
    rw [step_next hi] at hsafe
    obtain ⟨c', q', hj', rfl⟩ := hj
    have hat := (calls_move_of_ne (c := c) (m := next (.replaced ctx) s.shared) hne).trans hj'
    obtain ⟨ctx', hctx', hholds⟩ := hsafe j (some ctx) ⟨_, _, hat, rfl⟩
    cases hctx'
    rcases hholds with heventfd | ⟨k, hk⟩
    · exact .inl heventfd
    · refine .inr ⟨k, ?_⟩
      have hki : k ≠ i := by
        rintro rfl
        rcases at_move_self.mp hk with hq | hq
        · cases hq
        · cases hq
      exact ⟨hki, (at_move_of_ne hki).mp hk⟩

end Lost

section Runs

theorem safe_initial : Safe (Config.initial ⟨none, false⟩ : Threads γ ι) := by
  intro i eventfd hat
  exact (not_at_of_none rfl hat).elim

/-- In a run from the new state on, what is signalled is safe throughout just when every turn is
careful. -/
theorem eventfd_safe_iff_careful [DecidableEq ι] (turns : List (Turn ι (Call γ))) :
    Always ioctl.step Safe (Config.initial ⟨none, false⟩) turns ↔
      Each ioctl.step CarefulTurn (Config.initial ⟨none, false⟩) turns :=
  always_iff_each_of_lost (I := Safe) (fun _ h ↦ h) (fun _ _ h hcareful ↦ safe_step h hcareful)
    (fun _ _ _ hno ↦ not_safe_step hno) safe_initial

/-- An event is queued, and then the eventfd is cleared, which has not been set. -/
def clearedWhilePending : List (Turn ℕ (Call ℕ)) :=
  [.enter 0 .queueEvent, .next 0, .enter 1 (.setEventfd none), .next 1, .next 1]

theorem null_signalled : ¬ Always ioctl.step Safe (Config.initial ⟨none, false⟩)
    clearedWhilePending := by
  intro halways
  have hsafe := halways.2.2.2.2.2
  obtain ⟨ctx, hctx, -⟩ := hsafe 1 none ⟨_, _, rfl, rfl⟩
  cases hctx

end Runs

end Pciem.Events.Signalling
