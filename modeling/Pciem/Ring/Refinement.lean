import Pciem.Library.BoundedChannel
import Pciem.Ring.SharedRing
import Mathlib.Data.List.Infix

namespace Pciem.Ring.Refinement

open Library.TransitionSystem Library.BoundedChannel SharedRing

/-- One finished push: its event, its result, and how many accepted events were
unreleased at the moment it loaded `head`. -/
structure PushReturn where
  event : PciemEvent
  result : Bool
  unreleased : ℕ

structure History where
  returns : List PushReturn
  consumed : List PciemEvent
  released : ℕ
  unreleasedAtLoad : ℕ

/-- The events whose push returned true, in push order. -/
def History.accepted (h : History) : List PciemEvent :=
  (h.returns.filter (·.result)).map (·.event)

def History.unreleased (h : History) : ℕ := h.accepted.length - h.released

def History.notePush (h : History) : PushAction → History
  | .silent | .copy _ => h
  | .loadHead _ _ => { h with unreleasedAtLoad := h.unreleased }
  | .refuse event => { h with returns := h.returns ++ [⟨event, false, h.unreleasedAtLoad⟩] }
  | .publish event => { h with returns := h.returns ++ [⟨event, true, h.unreleasedAtLoad⟩] }

def History.noteConsume (h : History) : ConsumeAction → History
  | .silent | .stop => h
  | .read event => { h with consumed := h.consumed ++ [event] }
  | .release => { h with released := h.released + 1 }

structure RingRun (ι : Type*) where
  push : PushState ι
  consumer : ConsumerPc
  history : History

variable {ι : Type*}

inductive RingStep [DecidableEq ι] : RingRun ι → RingRun ι → Prop
  | produce {s : RingRun ι} {a : PushAction} {t : PushState ι} : PushStep s.push a t →
      RingStep s { s with push := t, history := s.history.notePush a }
  | consume {s : RingRun ι} {a : ConsumeAction} {c : ConsumerPc} {r : PciemSharedRing} :
      ConsumeStep s.consumer s.push.ring a c r →
      RingStep s ⟨{ s.push with ring := r }, c, s.history.noteConsume a⟩

def initial (ι : Type*) : RingRun ι :=
  ⟨⟨pciemSharedRingAlloc, none, fun _ ↦ .idle⟩, .loadHead, ⟨[], [], 0, 0⟩⟩

def ringSystem (ι : Type*) [DecidableEq ι] : System (RingRun ι) where
  init s := s = initial ι
  next := RingStep

@[simp] theorem notePush_consumed (h : History) (a : PushAction) :
    (h.notePush a).consumed = h.consumed := by cases a <;> rfl

@[simp] theorem notePush_released (h : History) (a : PushAction) :
    (h.notePush a).released = h.released := by cases a <;> rfl

@[simp] theorem accepted_refuse (h : History) (event : PciemEvent) :
    (h.notePush (.refuse event)).accepted = h.accepted := by
  simp [History.accepted, History.notePush]

@[simp] theorem accepted_publish (h : History) (event : PciemEvent) :
    (h.notePush (.publish event)).accepted = h.accepted ++ [event] := by
  simp [History.accepted, History.notePush]

/-- What a producer's snapshots say about the run, at each point of the push. -/
def PushOk (r : PciemSharedRing) (h : History) : PushPc → Prop
  | .idle | .loadTail _ => True
  | .loadHead _ tail => tail = index h.accepted.length
  | .test _ tail head => tail = index h.accepted.length ∧
      ∃ k ≤ h.released, head = index k ∧ k + h.unreleasedAtLoad = h.accepted.length ∧
        h.unreleasedAtLoad < pciemRingSize
  | .copy _ tail => tail = index h.accepted.length ∧
      h.accepted.length + 1 < h.released + pciemRingSize ∧
      h.unreleasedAtLoad ≠ pciemRingSize - 1
  | .publish event tail => tail = index h.accepted.length ∧
      h.accepted.length + 1 < h.released + pciemRingSize ∧
      h.unreleasedAtLoad ≠ pciemRingSize - 1 ∧
      r.events ((h.accepted.length % pciemRingSize : ℕ) : ℤ) = event

def ConsumeOk (h : History) : ConsumerPc → Prop
  | .loadHead => h.consumed = h.accepted.take h.released
  | .loadTail head => h.consumed = h.accepted.take h.released ∧ head = index h.released
  | .test head tail => h.consumed = h.accepted.take h.released ∧ head = index h.released ∧
      ∃ k, h.released ≤ k ∧ k ≤ h.accepted.length ∧ tail = index k
  | .read head => h.consumed = h.accepted.take h.released ∧ head = index h.released ∧
      h.released < h.accepted.length
  | .store head => h.consumed = h.accepted.take (h.released + 1) ∧ head = index h.released ∧
      h.released < h.accepted.length

/-- The invariant ties both shared words to positions in the stream of accepted
events, and every private snapshot to a position it cannot have left behind. -/
structure Inv (s : RingRun ι) : Prop where
  tail : s.push.ring.tail = index s.history.accepted.length
  head : s.push.ring.head = index s.history.released
  released_le : s.history.released ≤ s.history.accepted.length
  room : s.history.accepted.length < s.history.released + pciemRingSize
  window : Window pciemRingSize s.push.ring.events s.history.accepted s.history.released
  exclusive : Exclusive s.push
  push : ∀ p, PushOk s.push.ring s.history (s.push.pc p)
  consume : ConsumeOk s.history s.consumer
  returns : ∀ r ∈ s.history.returns, r.result = false ↔ r.unreleased = pciemRingSize - 1

theorem inv_initial : Inv (initial ι) where
  tail := rfl
  head := rfl
  released_le := le_rfl
  room := show 0 < 0 + pciemRingSize by decide
  window := .nil
  exclusive p hp := absurd rfl hp
  push _ := trivial
  consume := rfl
  returns r hr := absurd hr List.not_mem_nil

theorem ConsumeOk.congr {h h' : History} {c : ConsumerPc} (hc : ConsumeOk h c)
    (haccepted : h'.accepted = h.accepted) (hconsumed : h'.consumed = h.consumed)
    (hreleased : h'.released = h.released) : ConsumeOk h' c := by
  cases c <;> simpa only [ConsumeOk, haccepted, hconsumed, hreleased] using hc

theorem pushOk_of_others_idle {r : PciemSharedRing} {h : History} {f : ι → PushPc} {p : ι}
    (hf : ∀ q, q ≠ p → f q = .idle) (hp : PushOk r h (f p)) (q : ι) : PushOk r h (f q) := by
  by_cases hq : q = p
  · exact hq ▸ hp
  · exact hf q hq ▸ trivial

/-- A published event is appended behind everything the consumer has looked at. -/
theorem consumeOk_publish {h : History} {c : ConsumerPc} (event : PciemEvent)
    (hc : ConsumeOk h c) (hle : h.released ≤ h.accepted.length) :
    ConsumeOk (h.notePush (.publish event)) c := by
  have htake {n : ℕ} (hn : n ≤ h.accepted.length) :
      (h.accepted ++ [event]).take n = h.accepted.take n := List.take_append_of_le_length hn
  cases c with
  | loadHead => simpa [ConsumeOk, htake hle] using hc
  | loadTail head => simpa [ConsumeOk, htake hle] using hc
  | test head tail =>
    obtain ⟨hr, hh, k, hk, hkl, ht⟩ := hc
    refine ⟨by simpa [htake hle] using hr, by simpa using hh, k, by simpa using hk, ?_, ht⟩
    simp only [accepted_publish, List.length_append, List.length_singleton]
    omega
  | read head =>
    obtain ⟨hr, hh, hl⟩ := hc
    refine ⟨by simpa [htake hle] using hr, by simpa using hh, ?_⟩
    simp only [notePush_released, accepted_publish, List.length_append, List.length_singleton]
    omega
  | store head =>
    obtain ⟨hr, hh, hl⟩ := hc
    refine ⟨by simpa [htake (show h.released + 1 ≤ _ by omega)] using hr, by simpa using hh, ?_⟩
    simp only [notePush_released, accepted_publish, List.length_append, List.length_singleton]
    omega

/-- One access of the producer inside the push. The words compared by the full test
belong to positions less than a ring apart, so it decides how many slots are taken. -/
theorem inv_access {s : RingRun ι} (h : Inv s) {a : PushAction} {t : PushState ι} {p : ι}
    (hidle : ∀ q, q ≠ p → t.pc q = .idle) (hex : Exclusive t)
    (hs : PushAccess (s.push.pc p) s.push.ring a (t.pc p) t.ring) :
    Inv { s with push := t, history := s.history.notePush a } := by
  have hok := h.push p
  have hle := h.released_le
  have hroom := h.room
  have hpush {r : PciemSharedRing} {g : History} (hc : PushOk r g (t.pc p)) :=
    pushOk_of_others_idle hidle hc
  rcases t with ⟨r, l, f⟩
  dsimp only at hs hidle hpush ⊢
  generalize s.push.pc p = c₀, hc : f p = c₁ at hs hok hpush
  cases hs with
  | loadTail => exact { h with exclusive := hex, push := hpush h.tail }
  | loadHead =>
    have hcount : s.history.released + s.history.unreleased = s.history.accepted.length := by
      rw [History.unreleased]
      omega
    exact { h with
      exclusive := hex
      push := hpush ⟨hok, s.history.released, le_rfl, h.head, hcount,
        show s.history.unreleased < _ by omega⟩
      consume := h.consume.congr rfl rfl rfl }
  | @full _ event tail head he =>
    obtain ⟨ht, k, hk, hh, hcount, hlt⟩ := hok
    have hfull : s.history.unreleasedAtLoad = pciemRingSize - 1 := by
      rw [ht, hh, nextIndex_eq_index_iff (by omega) (by omega)] at he
      omega
    have hacc := accepted_refuse s.history event
    exact {
      tail := hacc ▸ h.tail
      head := h.head
      released_le := hacc ▸ hle
      room := hacc ▸ hroom
      window := hacc ▸ h.window
      exclusive := hex
      push := hpush trivial
      consume := h.consume.congr hacc rfl rfl
      returns := by
        intro r hr
        rcases List.mem_append.mp hr with hr | hr
        · exact h.returns r hr
        · rw [List.mem_singleton.mp hr]
          exact iff_of_true rfl hfull }
  | @room _ event tail head he =>
    obtain ⟨ht, k, hk, hh, hcount, hlt⟩ := hok
    have hne : s.history.unreleasedAtLoad ≠ pciemRingSize - 1 := by
      rw [ht, hh, ne_eq, nextIndex_eq_index_iff (by omega) (by omega)] at he
      omega
    have hroom' : s.history.accepted.length + 1 < s.history.released + pciemRingSize := by
      omega
    exact { h with exclusive := hex, push := hpush ⟨ht, hroom', hne⟩ }
  | @copy _ event tail =>
    obtain ⟨ht, hroom', hne⟩ := hok
    have hslot : tail.toInt = ((s.history.accepted.length % pciemRingSize : ℕ) : ℤ) := by
      rw [ht, toInt_index]
    exact { h with
      window := by
        rw [hslot]
        exact h.window.update hroom event
      exclusive := hex
      push := hpush ⟨ht, hroom', hne, by
        rw [hslot]
        exact Function.update_self ..⟩ }
  | @publish _ event tail =>
    obtain ⟨ht, hroom', hne, hev⟩ := hok
    have hacc := accepted_publish s.history event
    have hlen : (s.history.accepted ++ [event]).length = s.history.accepted.length + 1 := by simp
    exact {
      tail := by rw [hacc, hlen, ← nextIndex_index, ← ht]
      head := h.head
      released_le := by
        rw [hacc, hlen]
        exact hle.trans (Nat.le_succ _)
      room := by
        rw [hacc, hlen]
        exact hroom'
      window := hacc ▸ h.window.append hev
      exclusive := hex
      push := hpush trivial
      consume := consumeOk_publish event h.consume hle
      returns := by
        intro r hr
        rcases List.mem_append.mp hr with hr | hr
        · exact h.returns r hr
        · rw [List.mem_singleton.mp hr]
          exact iff_of_false (by simp) hne }

theorem inv_produce [DecidableEq ι] {s : RingRun ι} (h : Inv s) {a : PushAction}
    {t : PushState ι} (hs : PushStep s.push a t) :
    Inv { s with push := t, history := s.history.notePush a } := by
  obtain ⟨hex, p, hidle, ⟨-, hr, rfl, event, hp⟩ | ha⟩ := hs.thread h.exclusive
  · exact {
      tail := hr ▸ h.tail
      head := hr ▸ h.head
      released_le := h.released_le
      room := h.room
      window := hr ▸ h.window
      exclusive := hex
      push := pushOk_of_others_idle hidle (hp ▸ trivial)
      consume := h.consume
      returns := h.returns }
  · exact inv_access h hidle hex ha

/-- A store to `head` frees room only; no producer relied on the room being taken. -/
theorem pushOk_release {r r' : PciemSharedRing} {h : History} {c : PushPc}
    (hc : PushOk r h c) (hev : r'.events = r.events) :
    PushOk r' (h.noteConsume .release) c := by
  cases c with
  | idle | loadTail => trivial
  | loadHead event tail => exact hc
  | test event tail head =>
    obtain ⟨ht, k, hk, hh⟩ := hc
    exact ⟨ht, k, hk.trans (Nat.le_succ _), hh⟩
  | copy event tail =>
    obtain ⟨ht, hroom, hne⟩ := hc
    exact ⟨ht, hroom.trans (Nat.add_lt_add_right (Nat.lt_succ_self _) _), hne⟩
  | publish event tail =>
    obtain ⟨ht, hroom, hne, hs⟩ := hc
    exact ⟨ht, hroom.trans (Nat.add_lt_add_right (Nat.lt_succ_self _) _), hne, hev ▸ hs⟩

theorem inv_consume {s : RingRun ι} (h : Inv s) {a : ConsumeAction} {c : ConsumerPc}
    {r : PciemSharedRing} (hs : ConsumeStep s.consumer s.push.ring a c r) :
    Inv ⟨{ s.push with ring := r }, c, s.history.noteConsume a⟩ := by
  have hok := h.consume
  have hle := h.released_le
  have hroom := h.room
  generalize hc : s.consumer = c₀ at hs hok
  cases hs with
  | loadHead => exact { h with consume := ⟨hok, h.head⟩ }
  | loadTail => exact { h with consume := ⟨hok.1, hok.2, _, hle, le_rfl, h.tail⟩ }
  | stop he => exact { h with consume := hok.1 }
  | more hne =>
    obtain ⟨hr, hh, k, hk, hkl, ht⟩ := hok
    have hlt : s.history.released < s.history.accepted.length := by
      by_contra hge
      have hk' : k = s.history.released := by omega
      exact hne (hh.trans (hk' ▸ ht).symm)
    exact { h with consume := ⟨hr, hh, hlt⟩ }
  | read =>
    obtain ⟨hr, hh, hlt⟩ := hok
    have hread : s.history.accepted.take (s.history.released + 1) =
        s.history.consumed ++ [s.push.ring.events (index s.history.released).toInt] := by
      rw [h.window.take_succ hlt, ← hr, toInt_index]
    exact { h with consume := ⟨hh ▸ hread.symm, hh, hlt⟩ }
  | @store head =>
    obtain ⟨hr, hh, hlt⟩ := hok
    exact { h with
      head := by
        rw [hh, nextIndex_index]
        rfl
      released_le := hlt
      room := hroom.trans (Nat.add_lt_add_right (Nat.lt_succ_self _) _)
      window := h.window.advance (Nat.le_succ _)
      push := fun p ↦ pushOk_release (h.push p) rfl
      consume := hr }

variable [DecidableEq ι]

theorem reachable_inv {s : RingRun ι} (h : (ringSystem ι).Reachable s) : Inv s := by
  refine h.invariant ?_ ?_
  · intro s hs
    exact hs ▸ inv_initial
  · intro s t hi hs
    cases hs with
    | produce hp => exact inv_produce hi hp
    | consume hc => exact inv_consume hi hc

def History.channel (h : History) : Channel PciemEvent :=
  ⟨h.accepted, h.consumed.length, h.released⟩

theorem channel_publish (h : History) (event : PciemEvent) :
    (h.notePush (.publish event)).channel =
      { h.channel with accepted := h.channel.accepted ++ [event] } := by
  simp [History.channel]

theorem channel_read (h : History) (event : PciemEvent) :
    (h.noteConsume (.read event)).channel = { h.channel with read := h.channel.read + 1 } := by
  simp [History.channel, History.noteConsume, History.accepted]

theorem channel_release (h : History) :
    (h.noteConsume .release).channel = { h.channel with released := h.channel.released + 1 } :=
  rfl

/-- Publishing a tail, reading a slot and storing a head are the three operations
of a bounded channel with one slot less than the ring; every other access is
invisible. -/
theorem ring_refines_channel :
    Refinement (ringSystem ι) (channel PciemEvent (pciemRingSize - 1))
      (fun s ↦ s.history.channel) := by
  constructor
  · intro s hs
    exact hs ▸ rfl
  · intro s t hr hs
    have h := reachable_inv hr
    cases hs with
    | @produce a u hp =>
      obtain ⟨-, p, -, ⟨-, -, rfl, -⟩ | ha⟩ := hp.thread h.exclusive
      · exact .inr rfl
      · have hok := h.push p
        generalize s.push.pc p = c₀, u.pc p = c₁, u.ring = r at ha hok
        cases ha with
        | loadTail | loadHead | room | copy => exact .inr rfl
        | full => exact .inr (by simp [History.channel])
        | publish =>
          have hlt : s.history.accepted.length < s.history.released + (pciemRingSize - 1) := by
            have := hok.2.1
            omega
          exact .inl (channel_publish s.history _ ▸ Channel.Step.accept _ hlt)
    | @consume a c r hc =>
      have hok := h.consume
      generalize s.consumer = c₀ at hc hok
      cases hc with
      | loadHead | loadTail | stop | more => exact .inr rfl
      | read =>
        obtain ⟨hr, -, hlt⟩ := hok
        have hlen : s.history.consumed.length = s.history.released := by
          rw [hr, List.length_take_of_le hlt.le]
        exact .inl (channel_read s.history _ ▸ Channel.Step.read hlen (hlen.trans_lt hlt))
      | store =>
        obtain ⟨hr, -, hlt⟩ := hok
        have hlen : s.history.consumed.length = s.history.released + 1 := by
          rw [hr, List.length_take_of_le hlt]
        exact .inl (channel_release s.history ▸
          Channel.Step.release (Nat.lt_of_succ_le hlen.ge))

omit [DecidableEq ι] in
theorem Inv.consumed_prefix {s : RingRun ι} (h : Inv s) :
    s.history.consumed <+: s.history.accepted := by
  have hok := h.consume
  cases hc : s.consumer with
  | loadHead =>
    rw [hc] at hok
    exact hok ▸ List.take_prefix ..
  | _ =>
    rw [hc] at hok
    exact hok.1 ▸ List.take_prefix ..

/-- In every reachable state of any number of producers and the consumer, what the
consumer has read is a prefix of the accepted events, at most 255 accepted events
are unreleased, and a push was refused exactly when it loaded `head` while all
255 usable slots were taken. -/
theorem events_in_order {s : RingRun ι} (h : (ringSystem ι).Reachable s) :
    s.history.consumed <+: s.history.accepted ∧
      s.history.accepted.length ≤ s.history.released + 255 ∧
      ∀ r ∈ s.history.returns, r.result = false ↔ r.unreleased = 255 := by
  have hinv := reachable_inv h
  obtain ⟨-, -, -, hbound⟩ := channel_bounds (ring_refines_channel.reachable h)
  exact ⟨hinv.consumed_prefix, hbound, hinv.returns⟩

theorem follow_push {s : RingRun ι} {as : List PushAction} {t : PushState ι}
    (h : PushRun s.push as t) :
    Relation.ReflTransGen RingStep s ⟨t, s.consumer, as.foldl History.notePush s.history⟩ := by
  generalize hp : s.push = u at h
  induction h generalizing s with
  | nil => exact hp ▸ .refl
  | cons hs _ ih =>
    subst hp
    exact .head (.produce hs) (ih (s := { s with push := _, history := s.history.notePush _ }) rfl)

/-- An event has been pushed, and nothing else has happened. -/
def afterPush (s : RingRun ι) (event : PciemEvent) : RingRun ι where
  push := { s.push with ring := (pciemSharedRingPush s.push.ring event).2 }
  consumer := s.consumer
  history := (pushActions s.push.ring event).foldl History.notePush s.history

/-- The consumer has taken the slot at `head`, and has not released it yet. -/
def afterTake (s : RingRun ι) : RingRun ι where
  push := s.push
  consumer := .store s.push.ring.head
  history := s.history.noteConsume (.read (s.push.ring.events s.push.ring.head.toInt))

theorem reachable_afterPush {s : RingRun ι} (h : (ringSystem ι).Reachable s) (p : ι)
    (event : PciemEvent) (hp : s.push.pc p = .idle) (hl : s.push.sharedRingLock = none) :
    (ringSystem ι).Reachable (afterPush s event) :=
  h.of_reflTransGen (follow_push (push_run s.push p event hp hl))

theorem reachable_afterTake {s : RingRun ι} (h : (ringSystem ι).Reachable s)
    (hc : s.consumer = .loadHead) (hne : s.push.ring.head ≠ s.push.ring.tail) :
    (ringSystem ι).Reachable (afterTake s) := by
  obtain ⟨push, consumer, history⟩ := s
  dsimp only at hc hne
  subst hc
  exact (((h.step (.consume .loadHead)).step (.consume .loadTail)).step (.consume (.more hne))).step
    (.consume .read)

/-- An event that differs from others in its data only. -/
def carrying (data : UInt64) : PciemEvent := { (default : PciemEvent) with data }

/-- There are two producers, and the second one loads `head` while the consumer holds the event of
the first. -/
theorem events_in_order_two_producers : ∃ s : RingRun Bool,
    s.history.accepted = [carrying 1, carrying 2] ∧ s.history.consumed = [carrying 1] ∧
    s.history.returns.map (·.unreleased) = [0, 1] ∧
    s.history.consumed <+: s.history.accepted ∧
    s.history.accepted.length ≤ s.history.released + 255 ∧
    ∀ r ∈ s.history.returns, r.result = false ↔ r.unreleased = 255 := by
  have hfirst := reachable_afterPush (.init (S := ringSystem Bool) rfl) false (carrying 1) rfl rfl
  have htaken := reachable_afterTake hfirst rfl (by decide)
  have hsecond := reachable_afterPush htaken true (carrying 2) rfl rfl
  have hreleased := hsecond.step (.consume .store)
  exact ⟨_, rfl, rfl, rfl, events_in_order hreleased⟩

end Pciem.Ring.Refinement
