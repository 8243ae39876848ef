import Pciem.Ring.Refinement
import Pciem.Trace.Context

namespace Pciem.Events.Numbering

open Library.TransitionSystem Ring.SharedRing Ring.Refinement Trace.Context

variable {ι : Type*}

/-- The event that `pciem_userspace_queue_event` hands to the push. -/
def stamped (event : PciemEvent) (timestamp : UInt64) : PciemEvent := { event with timestamp }

/-- The ring, with the events that faults in traced BARs queue on any number of CPUs. -/
inductive QueueStep [DecidableEq ι] : RingRun ι → RingRun ι → Prop
  | queue {s : RingRun ι} (p : ι) (ctx : SmptraceCtx) (evType : UInt32) (off : BitVec 64)
      (size : ℕ) (data : BitVec 64) (timestamp : UInt64) :
      s.push.pc p = .idle → s.push.sharedRingLock = none →
      QueueStep s { s with push := ⟨s.push.ring, some p, Function.update s.push.pc p
        (.loadTail (stamped (traceEvent ctx evType off size data) timestamp))⟩ }
  | access {s : RingRun ι} (p : ι) {a : PushAction} {c : PushPc} {r : PciemSharedRing} :
      PushAccess (s.push.pc p) s.push.ring a c r →
      QueueStep s { s with
        push := ⟨r, if c.inside then s.push.sharedRingLock else none,
          Function.update s.push.pc p c⟩
        history := s.history.notePush a }
  | consume {s : RingRun ι} {a : ConsumeAction} {c : ConsumerPc} {r : PciemSharedRing} :
      ConsumeStep s.consumer s.push.ring a c r →
      QueueStep s ⟨{ s.push with ring := r }, c, s.history.noteConsume a⟩

def queueSystem (ι : Type*) [DecidableEq ι] : System (RingRun ι) where
  init s := s = initial ι
  next := QueueStep

/-- What the numbers tell the consumer: they grow, and of two events that were read one after the
other, the second has the next number just if no push failed between their pushes. -/
structure Numbered (h : History) : Prop where
  increasing : h.consumed.Pairwise fun x y ↦ x.seq < y.seq
  gaps : ∀ before x dropped y after, h.returns = before ++ x :: (dropped ++ y :: after) →
    x.result = true → y.result = true → (∀ r ∈ dropped, r.result = false) →
    (before.filter (·.result)).length + 2 ≤ h.consumed.length →
    (y.event.seq = x.event.seq + 1 ↔ dropped = [])

/-- The event that a push is about to store. -/
def pushed : PushPc → Option PciemEvent
  | .idle => none
  | .loadTail event | .loadHead event _ | .test event _ _ | .copy event _ | .publish event _ =>
    some event

/-- No event has been given a number. -/
structure Unnumbered (s : RingRun ι) : Prop where
  pushed : ∀ p event, pushed (s.push.pc p) = some event → event.seq = 0
  returns : ∀ r ∈ s.history.returns, r.event.seq = 0

section Steps

variable [DecidableEq ι] {s t : RingRun ι}

theorem QueueStep.ring (h : QueueStep s t) : RingStep s t := by
  cases h with
  | queue p ctx evType off size data timestamp hp hl => exact .produce (.lock p _ hp hl)
  | access p ha => exact .produce (.access p ha)
  | consume hc => exact .consume hc

theorem QueueStep.of_pc {p : ι} {c c' : PushPc} {a : PushAction} {r : PciemSharedRing}
    (hp : s.push.pc p = c) (h : PushAccess c s.push.ring a c' r) : QueueStep s { s with
      push := ⟨r, if c'.inside then s.push.sharedRingLock else none,
        Function.update s.push.pc p c'⟩
      history := s.history.notePush a } :=
  .access p (hp ▸ h)

theorem reachable_ring (h : (queueSystem ι).Reachable s) : (ringSystem ι).Reachable s := by
  induction h with
  | init h => exact .init h
  | step _ hs ih => exact ih.step hs.ring

omit [DecidableEq ι] in
/-- An access keeps the event of its push, and returns with that event. -/
theorem pushed_access {c c' : PushPc} {r r' : PciemSharedRing} {a : PushAction}
    (h : PushAccess c r a c' r') : (∀ event, pushed c' = some event → pushed c = some event) ∧
      ∀ event, a = .refuse event ∨ a = .publish event → pushed c = some event := by
  cases h with
  | loadTail | loadHead | room | copy => exact ⟨fun _ h ↦ h, by simp⟩
  | full | publish => exact ⟨by simp [pushed], by simp [pushed]⟩

omit [DecidableEq ι] in
theorem mem_returns {h : History} {a : PushAction} {r : PushReturn}
    (hr : r ∈ (h.notePush a).returns) :
    r ∈ h.returns ∨ a = .refuse r.event ∨ a = .publish r.event := by
  cases a with
  | silent | loadHead | copy => exact .inl hr
  | refuse event =>
    rcases List.mem_append.mp hr with hr | hr
    · exact .inl hr
    · rw [List.mem_singleton.mp hr]
      exact .inr (.inl rfl)
  | publish event =>
    rcases List.mem_append.mp hr with hr | hr
    · exact .inl hr
    · rw [List.mem_singleton.mp hr]
      exact .inr (.inr rfl)

theorem pushed_update {pc : ι → PushPc} {p q : ι} {c : PushPc} {event : PciemEvent}
    (h : pushed (Function.update pc p c q) = some event) :
    (q = p ∧ pushed c = some event) ∨ pushed (pc q) = some event := by
  by_cases hqp : q = p
  · subst hqp
    rw [Function.update_self] at h
    exact .inl ⟨rfl, h⟩
  · rw [Function.update_of_ne hqp] at h
    exact .inr h

theorem Unnumbered.step (h : Unnumbered s) (hs : QueueStep s t) : Unnumbered t := by
  cases hs with
  | queue p ctx evType off size data timestamp hp hl =>
    refine ⟨fun q event hq ↦ ?_, h.returns⟩
    rcases pushed_update hq with ⟨-, hnew⟩ | hold
    · cases hnew
      rfl
    · exact h.pushed q event hold
  | access p ha =>
    obtain ⟨hkept, hreturned⟩ := pushed_access ha
    refine ⟨fun q event hq ↦ ?_, fun r hr ↦ ?_⟩
    · rcases pushed_update hq with ⟨rfl, hnew⟩ | hold
      · exact h.pushed q event (hkept event hnew)
      · exact h.pushed q event hold
    · rcases mem_returns hr with hr | hr
      · exact h.returns r hr
      · exact h.pushed p r.event (hreturned r.event hr)
  | @consume a c r hc =>
    refine ⟨h.pushed, ?_⟩
    cases a with
    | silent | stop | read | release => exact h.returns

theorem reachable_unnumbered (h : (queueSystem ι).Reachable s) : Unnumbered s := by
  refine h.invariant ?_ fun _ _ hi hs ↦ hi.step hs
  rintro s rfl
  exact ⟨fun _ event hq ↦ absurd hq.symm (Option.some_ne_none event),
    fun r hr ↦ absurd hr List.not_mem_nil⟩

theorem seq_of_consumed (h : (queueSystem ι).Reachable s) {event : PciemEvent}
    (he : event ∈ s.history.consumed) : event.seq = 0 := by
  have haccepted := (events_in_order (reachable_ring h)).1.subset he
  obtain ⟨r, hr, rfl⟩ := List.mem_map.mp haccepted
  exact (reachable_unnumbered h).returns r (List.mem_of_mem_filter hr)

/-- The numbers tell the consumer something just as long as it has read no second event. -/
theorem numbered_iff (h : (queueSystem ι).Reachable s) :
    Numbered s.history ↔ s.history.consumed.length ≤ 1 := by
  constructor
  · intro hnumbered
    by_contra hno
    have hlt := List.pairwise_iff_getElem.mp hnumbered.increasing 0 1 (by omega) (by omega)
      Nat.zero_lt_one
    rw [seq_of_consumed h (List.getElem_mem _), seq_of_consumed h (List.getElem_mem _)] at hlt
    exact absurd hlt (by decide)
  · intro hle
    refine ⟨?_, fun before x dropped y after _ _ _ _ hread ↦ absurd hread (by omega)⟩
    rw [List.pairwise_iff_getElem]
    intro i j hi hj hij
    omega

/-- Nothing comes between the accesses of `pciem_userspace_queue_event`. -/
theorem reachable_queued (h : (queueSystem ι).Reachable s) (p : ι) (ctx : SmptraceCtx)
    (evType : UInt32) (off : BitVec 64) (size : ℕ) (data : BitVec 64) (timestamp : UInt64)
    (hp : s.push.pc p = .idle) (hl : s.push.sharedRingLock = none) :
    (queueSystem ι).Reachable
      (afterPush s (stamped (traceEvent ctx evType off size data) timestamp)) := by
  have hself (f : ι → PushPc) (c : PushPc) : Function.update f p c p = c := Function.update_self ..
  have hsame : Function.update s.push.pc p .idle = s.push.pc := hp ▸ Function.update_eq_self ..
  have hlocked := h.step (.queue p ctx evType off size data timestamp hp hl)
  have htail := hlocked.step (.of_pc (hself _ _) .loadTail)
  have hhead := htail.step (.of_pc (hself _ _) .loadHead)
  by_cases hfull : nextIndex s.push.ring.tail = s.push.ring.head
  · have hrefused := hhead.step (.of_pc (hself _ _) (.full hfull))
    simpa [afterPush, pushActions, pciemSharedRingPush, hfull, PushPc.inside, hsame, hl,
      History.notePush] using hrefused
  · have hroom := hhead.step (.of_pc (hself _ _) (.room hfull))
    have hcopied := hroom.step (.of_pc (hself _ _) .copy)
    have hpublished := hcopied.step (.of_pc (hself _ _) .publish)
    simpa [afterPush, pushActions, pciemSharedRingPush, hfull, PushPc.inside, hsame, hl,
      History.notePush] using hpublished

omit [DecidableEq ι] in
/-- What the tracer notes of an event is what the ring notes of its push. -/
theorem queueEvent_is_push {t : Traced} (hus : t.us = true) (hring : t.ring = s.push.ring)
    (event : PciemEvent) :
    (pciemUserspaceQueueEvent event t).ring = (afterPush s event).push.ring ∧
    ∃ result unreleased,
      (pciemUserspaceQueueEvent event t).pushes = t.pushes ++ [(event, result)] ∧
      (afterPush s event).history.returns =
        s.history.returns ++ [⟨event, result, unreleased⟩] := by
  rw [pciemUserspaceQueueEvent, if_pos hus, hring]
  refine ⟨rfl, (pciemSharedRingPush s.push.ring event).1, s.history.unreleased, rfl, ?_⟩
  rw [afterPush, pushActions]
  cases (pciemSharedRingPush s.push.ring event).1 with
  | true | false => rfl

end Steps

section Examples

variable {s : RingRun Unit}

def ctx : SmptraceCtx := ⟨⟨true, true⟩, 0, 0xA0000000, 0x1000, false⟩

theorem exists_push (h : (queueSystem Unit).Reachable s) (hp : s.push.pc () = .idle)
    (hl : s.push.sharedRingLock = none) (hroom : nextIndex s.push.ring.tail ≠ s.push.ring.head) :
    ∃ t, (queueSystem Unit).Reachable t ∧ t.push.pc () = .idle ∧ t.push.sharedRingLock = none ∧
      t.push.ring.tail = nextIndex s.push.ring.tail ∧ t.push.ring.head = s.push.ring.head ∧
      t.consumer = s.consumer ∧ t.history.consumed = s.history.consumed := by
  refine ⟨_, reachable_queued h () ctx pciemEventMmioWrite 0 4 0 0 hp hl, hp, hl, ?_, ?_, rfl, ?_⟩
  · simp [afterPush, pciemSharedRingPush, hroom]
  · simp [afterPush, pciemSharedRingPush, hroom]
  · simp [afterPush, pushActions, pciemSharedRingPush, hroom]

theorem exists_read (h : (queueSystem Unit).Reachable s) (hc : s.consumer = .loadHead)
    (hne : s.push.ring.head ≠ s.push.ring.tail) :
    ∃ t, (queueSystem Unit).Reachable t ∧ t.consumer = .loadHead ∧
      t.push.ring.tail = s.push.ring.tail ∧ t.push.ring.head = nextIndex s.push.ring.head ∧
      t.history.consumed.length = s.history.consumed.length + 1 := by
  have hload : ConsumeStep s.consumer s.push.ring .silent (.loadTail s.push.ring.head)
      s.push.ring := hc ▸ .loadHead
  have h1 := h.step (.consume hload)
  have h2 := h1.step (.consume .loadTail)
  have h3 := h2.step (.consume (.more hne))
  have h4 := h3.step (.consume .read)
  have h5 := h4.step (.consume .store)
  exact ⟨_, h5, rfl, rfl, rfl, List.length_append⟩

/-- A state where the consumer has read an event, with another one in the ring. -/
theorem exists_one_read : ∃ s : RingRun Unit, (queueSystem Unit).Reachable s ∧
    s.consumer = .loadHead ∧ s.history.consumed.length = 1 ∧
    s.push.ring.head ≠ s.push.ring.tail := by
  have h0 : (queueSystem Unit).Reachable (initial Unit) := .init rfl
  obtain ⟨t, ht, htp, htl, httail, hthead, htc, htread⟩ := exists_push h0 rfl rfl (by decide)
  obtain ⟨u, hu, -, -, hutail, huhead, huc, huread⟩ := exists_push ht htp htl (by
    rw [httail, hthead]
    decide)
  obtain ⟨v, hv, hvc, hvtail, hvhead, hvread⟩ := exists_read hu (huc.trans htc) (by
    rw [hutail, httail, huhead, hthead]
    decide)
  refine ⟨v, hv, hvc, by rw [hvread, huread, htread]; rfl, ?_⟩
  rw [hvtail, hvhead, hutail, httail, huhead, hthead]
  decide

theorem numbered_one_read : ∃ s : RingRun Unit, s.history.consumed.length = 1 ∧
    (Numbered s.history ↔ s.history.consumed.length ≤ 1) := by
  obtain ⟨s, hs, -, hread, -⟩ := exists_one_read
  exact ⟨s, hread, numbered_iff hs⟩

/-- The second event has the number of the first. -/
theorem second_not_numbered :
    ¬ ∀ s : RingRun Unit, (queueSystem Unit).Reachable s → Numbered s.history := by
  intro h
  obtain ⟨s, hs, hc, hread, hne⟩ := exists_one_read
  obtain ⟨t, ht, -, -, -, htread⟩ := exists_read hs hc hne
  have hlt := List.pairwise_iff_getElem.mp (h t ht).increasing 0 1 (by omega) (by omega)
    Nat.zero_lt_one
  rw [seq_of_consumed ht (List.getElem_mem _), seq_of_consumed ht (List.getElem_mem _)] at hlt
  exact absurd hlt (by decide)

end Examples

end Pciem.Events.Numbering
