import Pciem.Library.TransitionSystem
import Pciem.Ring.SharedRing

namespace Pciem.Events.Eventfd

open Library.TransitionSystem Ring.SharedRing

/-- Between its two steps a `pciem_userspace_queue_event` has pushed its event, or
found the ring full, and still has to notify. -/
inductive QueuePc
  | idle
  | notify

/-- The one SET_EVENTFD: not begun, past its critical section with the old value of
`us->eventfd` in hand, or returned. -/
inductive SetEventfdPc
  | start
  | installed (oldEventfd : Bool)
  | finished

/-- The consumer blocks in `poll`, reads the eventfd, then drains the ring. -/
inductive EventLoopPc
  | poll
  | read
  | drain (c : ConsumerPc)

/-- `eventfd` tells whether `us->eventfd` is set, `count` is the counter of the
eventfd the consumer polls. -/
structure EventState (ι : Type*) where
  ring : PciemSharedRing
  eventfd : Bool
  eventPending : Bool
  count : ℕ
  queue : ι → QueuePc
  setEventfd : SetEventfdPc
  eventLoop : EventLoopPc

/-- `eventfd_signal` adds one and saturates at the top of the 64-bit counter. -/
def eventfdSignal (count : ℕ) : ℕ := min (count + 1) (2 ^ 64 - 1)

theorem eventfdSignal_pos (count : ℕ) : 0 < eventfdSignal count := by
  simp [eventfdSignal]

variable {ι : Type*}

/-- The critical section of `pciem_userspace_queue_event` under `eventfd_lock`. -/
def EventState.notify (s : EventState ι) : EventState ι :=
  if s.eventfd then
    { s with count := eventfdSignal s.count }
  else
    { s with eventPending := true }

/-- What `pciem_ioctl_set_eventfd` does after its critical section. -/
def EventState.exchangePending (s : EventState ι) (oldEventfd : Bool) : EventState ι :=
  if oldEventfd then
    s
  else
    { s with
      eventPending := false
      count := if s.eventPending then eventfdSignal s.count else s.count }

inductive EventStep [DecidableEq ι] : EventState ι → EventState ι → Prop
  | push {s : EventState ι} (p : ι) (event : PciemEvent) : s.queue p = .idle →
      EventStep s { s with
        ring := (pciemSharedRingPush s.ring event).2
        queue := Function.update s.queue p .notify }
  | notify {s : EventState ι} (p : ι) : s.queue p = .notify →
      EventStep s { s.notify with queue := Function.update s.queue p .idle }
  | install {s : EventState ι} : s.setEventfd = .start →
      EventStep s { s with eventfd := true, setEventfd := .installed s.eventfd }
  | exchange {s : EventState ι} {old : Bool} : s.setEventfd = .installed old →
      EventStep s { s.exchangePending old with setEventfd := .finished }
  | wake {s : EventState ι} : s.eventLoop = .poll → 0 < s.count →
      EventStep s { s with eventLoop := .read }
  | reset {s : EventState ι} : s.eventLoop = .read →
      EventStep s { s with count := 0, eventLoop := .drain .loadHead }
  | drain {s : EventState ι} {c c' : ConsumerPc} {a : ConsumeAction} {r : PciemSharedRing} :
      s.eventLoop = .drain c → ConsumeStep c s.ring a c' r → a ≠ .stop →
      EventStep s { s with ring := r, eventLoop := .drain c' }
  | drained {s : EventState ι} {c c' : ConsumerPc} {r : PciemSharedRing} :
      s.eventLoop = .drain c → ConsumeStep c s.ring .stop c' r →
      EventStep s { s with ring := r, eventLoop := .poll }

/-- No eventfd is installed yet; the consumer's eventfd was made with any count. -/
def initial (ι : Type*) (count : ℕ) : EventState ι :=
  ⟨pciemSharedRingAlloc, false, false, count, fun _ ↦ .idle, .start, .poll⟩

def eventSystem (ι : Type*) [DecidableEq ι] : System (EventState ι) where
  init s := ∃ count, s = initial ι count
  next := EventStep

/-- The consumer has yet to compare the words of the ring, or has compared them and
found an event: either way it reads on before it blocks again. -/
def Looking : EventLoopPc → Prop
  | .poll => False
  | .drain (.test head tail) => head ≠ tail
  | .read | .drain _ => True

/-- Only the consumer stores `head`, so its snapshot of it stays right. -/
def HeadOk (current : Int32) : EventLoopPc → Prop
  | .drain (.loadTail head) | .drain (.test head _) => head = current
  | _ => True

/-- Somebody will still look at the ring: the consumer is awake or about to be, or a
notification is on its way. -/
def Attended (s : EventState ι) : Prop :=
  0 < s.count ∨ Looking s.eventLoop ∨ (∃ p, s.queue p = .notify) ∨
    (s.eventPending = true ∧ s.setEventfd ≠ .finished)

structure Inv (s : EventState ι) : Prop where
  eventfd : s.eventfd = true ↔ s.setEventfd ≠ .start
  first : ∀ old, s.setEventfd = .installed old → old = false
  head : HeadOk s.ring.head s.eventLoop
  attended : s.ring.head ≠ s.ring.tail → Attended s

theorem inv_initial (count : ℕ) : Inv (initial ι count) where
  eventfd := by simp [initial]
  first := by simp [initial]
  head := trivial
  attended h := absurd rfl h

theorem push_head (r : PciemSharedRing) (event : PciemEvent) :
    (pciemSharedRingPush r event).2.head = r.head := by
  unfold pciemSharedRingPush
  dsimp only
  split <;> rfl

/-- The critical section leaves a notification behind: a count if the eventfd is there,
else the pending flag, which SET_EVENTFD has then still to look at. -/
theorem Inv.notify {s : EventState ι} (h : Inv s) (queue : ι → QueuePc) :
    Inv { s.notify with queue := queue } := by
  cases he : s.eventfd with
  | true =>
    rw [EventState.notify, if_pos he]
    exact { h with attended := fun _ ↦ .inl (eventfdSignal_pos _) }
  | false =>
    have hstart : s.setEventfd = .start := by
      by_contra hne
      exact absurd (h.eventfd.mpr hne) (by simp [he])
    rw [EventState.notify, if_neg (by simp [he])]
    exact { h with attended := fun _ ↦ .inr (.inr (.inr ⟨rfl, by simp [hstart]⟩)) }

theorem Inv.exchange {s : EventState ι} (h : Inv s) {old : Bool}
    (hold : s.setEventfd = .installed old) :
    Inv { s.exchangePending old with setEventfd := .finished } := by
  rw [h.first old hold, EventState.exchangePending, if_neg Bool.false_ne_true]
  refine { h with eventfd := ?_, first := by simp, attended := fun hne ↦ ?_ }
  · have := h.eventfd.mpr (by simp [hold])
    simp [this]
  · rcases h.attended hne with hc | hl | hq | ⟨hp, -⟩
    · refine .inl ?_
      dsimp only
      split
      · exact eventfdSignal_pos _
      · exact hc
    · exact .inr (.inl hl)
    · exact .inr (.inr (.inl hq))
    · exact .inl (by simp [hp, eventfdSignal_pos])

variable [DecidableEq ι]

theorem inv_step {s t : EventState ι} (h : Inv s) (hs : EventStep s t) : Inv t := by
  cases hs with
  | push p event hp =>
    exact { h with
      head := (push_head s.ring event).symm ▸ h.head
      attended := fun _ ↦ .inr (.inr (.inl ⟨p, Function.update_self ..⟩)) }
  | notify p hp => exact h.notify _
  | install hp =>
    have he : s.eventfd = false := by
      by_contra hne
      exact h.eventfd.mp (by simpa using hne) hp
    refine { h with eventfd := by simp, first := by simp [he], attended := fun hne ↦ ?_ }
    rcases h.attended hne with hc | hl | hq | ⟨hpend, -⟩
    · exact .inl hc
    · exact .inr (.inl hl)
    · exact .inr (.inr (.inl hq))
    · exact .inr (.inr (.inr ⟨hpend, by simp⟩))
  | exchange hp => exact h.exchange hp
  | wake hp hc => exact { h with head := trivial, attended := fun _ ↦ .inr (.inl trivial) }
  | reset hp => exact { h with head := trivial, attended := fun _ ↦ .inr (.inl trivial) }
  | drain hp hc ha =>
    have hhead := h.head
    rw [hp] at hhead
    cases hc with
    | loadHead => exact { h with head := rfl, attended := fun _ ↦ .inr (.inl trivial) }
    | loadTail =>
      exact { h with
        head := hhead
        attended := fun hne ↦ .inr (.inl fun he ↦ hne (hhead.symm.trans he)) }
    | more | read | store =>
      exact { h with head := trivial, attended := fun _ ↦ .inr (.inl trivial) }
    | stop => exact absurd rfl ha
  | drained hp hc =>
    cases hc with
    | stop he =>
      refine { h with head := trivial, attended := fun hne ↦ ?_ }
      rcases h.attended hne with hc | hl | hq
      · exact .inl hc
      · rw [hp] at hl
        exact absurd he hl
      · exact .inr (.inr hq)

theorem reachable_inv {s : EventState ι} (h : (eventSystem ι).Reachable s) : Inv s := by
  refine h.invariant ?_ fun s t ↦ inv_step
  rintro s ⟨count, rfl⟩
  exact inv_initial count

/-- While the consumer is blocked on a zero count, SET_EVENTFD has returned and no
`pciem_userspace_queue_event` is between its two steps, no event waits in the ring. -/
theorem no_stranded_event {s : EventState ι} (h : (eventSystem ι).Reachable s)
    (hpoll : s.eventLoop = .poll) (hcount : s.count = 0) (hset : s.setEventfd = .finished)
    (hqueue : ∀ p, s.queue p = .idle) : s.ring.head = s.ring.tail := by
  by_contra hne
  rcases (reachable_inv h).attended hne with hc | hl | ⟨p, hp⟩ | ⟨-, hf⟩
  · omega
  · rw [hpoll] at hl
    exact hl
  · exact absurd (hp.symm.trans (hqueue p)) (by simp)
  · exact hf hset

theorem no_stranded_event_early_event : ∃ s : EventState Unit, s.ring.head = s.ring.tail ∧
    s.ring.head = 1 := by
  have h := (System.Reachable.init (S := eventSystem Unit) ⟨0, rfl⟩).step (.push () default rfl)
  have h := h.step (.notify () rfl)
  have h := h.step (.install rfl)
  have h := h.step (.exchange rfl)
  have h := h.step (.wake rfl (by decide))
  have h := h.step (.reset rfl)
  have h := h.step (.drain rfl .loadHead (by simp))
  have h := h.step (.drain rfl .loadTail (by simp))
  have h := h.step (.drain rfl (.more (by decide)) (by simp))
  have h := h.step (.drain rfl .read (by simp))
  have h := h.step (.drain rfl .store (by simp))
  have h := h.step (.drain rfl .loadHead (by simp))
  have h := h.step (.drain rfl .loadTail (by simp))
  have h := h.step (.drained rfl (.stop rfl))
  exact ⟨_, no_stranded_event h rfl rfl rfl fun _ ↦ rfl, rfl⟩

end Pciem.Events.Eventfd
