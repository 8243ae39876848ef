import Mathlib.Data.Int.Notation
import Mathlib.Logic.Function.Basic
import Mathlib.Data.Nat.ModEq

namespace Pciem.Ring.SharedRing

structure PciemEvent where
  seq : UInt64
  type : UInt32
  bar : UInt32
  offset : UInt64
  size : UInt32
  reserved : UInt32
  data : UInt64
  timestamp : UInt64
  deriving DecidableEq, Inhabited

def pciemRingSize : ℕ := 256

/-- The page shared with userspace. `head` and `tail` are C `int`s, and `events`
is the memory around the array `events[PCIEM_RING_SIZE]`: an index outside
`0..PCIEM_RING_SIZE-1` names memory that is not a slot of the array. -/
structure PciemSharedRing where
  head : Int32
  tail : Int32
  events : ℤ → PciemEvent

/-- `pciem_shared_ring_alloc` zeroes the page. -/
def pciemSharedRingAlloc : PciemSharedRing := ⟨0, 0, fun _ ↦ default⟩

/-- `(i + 1) % PCIEM_RING_SIZE` on C `int`s: the sum wraps, and the remainder
takes the sign of the sum. -/
def nextIndex (i : Int32) : Int32 := (i + 1) % Int32.ofNat pciemRingSize

def pciemSharedRingPush (ring : PciemSharedRing) (event : PciemEvent) : Bool × PciemSharedRing :=
  let tail := ring.tail
  let nextTail := nextIndex tail
  let head := ring.head
  if nextTail = head then
    (false, ring)
  else
    (true, { ring with
      events := Function.update ring.events tail.toInt event
      tail := nextTail })

/-- Where a thread stands inside `pciem_shared_ring_push`, with the locals it
has loaded so far. -/
inductive PushPc
  | idle
  | loadTail (event : PciemEvent)
  | loadHead (event : PciemEvent) (tail : Int32)
  | test (event : PciemEvent) (tail head : Int32)
  | copy (event : PciemEvent) (tail : Int32)
  | publish (event : PciemEvent) (tail : Int32)

inductive PushAction
  | silent
  | loadHead (tail head : Int32)
  | refuse (event : PciemEvent)
  | copy (index : ℤ)
  | publish (event : PciemEvent)

/-- The atomic accesses of `pciem_shared_ring_push` once its thread is inside. -/
inductive PushAccess : PushPc → PciemSharedRing → PushAction → PushPc → PciemSharedRing → Prop
  | loadTail {r : PciemSharedRing} {event : PciemEvent} :
      PushAccess (.loadTail event) r .silent (.loadHead event r.tail) r
  | loadHead {r : PciemSharedRing} {event : PciemEvent} {tail : Int32} :
      PushAccess (.loadHead event tail) r (.loadHead tail r.head) (.test event tail r.head) r
  | full {r : PciemSharedRing} {event : PciemEvent} {tail head : Int32} :
      nextIndex tail = head → PushAccess (.test event tail head) r (.refuse event) .idle r
  | room {r : PciemSharedRing} {event : PciemEvent} {tail head : Int32} :
      nextIndex tail ≠ head → PushAccess (.test event tail head) r .silent (.copy event tail) r
  | copy {r : PciemSharedRing} {event : PciemEvent} {tail : Int32} :
      PushAccess (.copy event tail) r (.copy tail.toInt) (.publish event tail)
        { r with events := Function.update r.events tail.toInt event }
  | publish {r : PciemSharedRing} {event : PciemEvent} {tail : Int32} :
      PushAccess (.publish event tail) r (.publish event) .idle { r with tail := nextIndex tail }

structure PushState (ι : Type*) where
  ring : PciemSharedRing
  sharedRingLock : Option ι
  pc : ι → PushPc

variable {ι : Type*}

def PushPc.inside : PushPc → Bool
  | .idle => false
  | _ => true

/-- Any thread may take the free lock and then makes its accesses one by one; the
guard gives the lock back with the access that decides the result. -/
inductive PushStep [DecidableEq ι] : PushState ι → PushAction → PushState ι → Prop
  | lock {s : PushState ι} (p : ι) (event : PciemEvent) :
      s.pc p = .idle → s.sharedRingLock = none →
      PushStep s .silent ⟨s.ring, some p, Function.update s.pc p (.loadTail event)⟩
  | access {s : PushState ι} (p : ι) {a : PushAction} {c : PushPc} {r : PciemSharedRing} :
      PushAccess (s.pc p) s.ring a c r →
      PushStep s a ⟨r, if c.inside then s.sharedRingLock else none, Function.update s.pc p c⟩

/-- Every thread inside the push holds the lock, hence at most one is inside. -/
def Exclusive (s : PushState ι) : Prop :=
  ∀ p, s.pc p ≠ .idle → s.sharedRingLock = some p

theorem Exclusive.others_idle {s : PushState ι} (h : Exclusive s) {p q : ι}
    (hp : s.pc p ≠ .idle) (hq : q ≠ p) : s.pc q = .idle := by
  by_contra hne
  have := (h p hp).symm.trans (h q hne)
  exact hq (Option.some.inj this).symm

theorem PushAccess.ne_idle {c c' : PushPc} {r r' : PciemSharedRing} {a : PushAction}
    (h : PushAccess c r a c' r') : c ≠ .idle := by cases h <;> simp

section Threads

variable [DecidableEq ι]

theorem PushStep.thread {s t : PushState ι} {a : PushAction} (hs : PushStep s a t)
    (h : Exclusive s) :
    Exclusive t ∧ ∃ p, (∀ q, q ≠ p → t.pc q = .idle) ∧
      ((s.sharedRingLock = none ∧ t.ring = s.ring ∧ a = .silent ∧
          ∃ event, t.pc p = .loadTail event) ∨
        PushAccess (s.pc p) s.ring a (t.pc p) t.ring) := by
  cases hs with
  | lock p event hp hl =>
    have hidle (q : ι) (hq : q ≠ p) : Function.update s.pc p (.loadTail event) q = .idle := by
      rw [Function.update_of_ne hq]
      by_contra hne
      exact absurd (hl.symm.trans (h q hne)) (by simp)
    refine ⟨fun q hq ↦ ?_, p, hidle, .inl ⟨hl, rfl, rfl, event, Function.update_self ..⟩⟩
    by_contra hne
    exact hq (hidle q fun he ↦ hne (by rw [he]))
  | @access p a c r ha =>
    have hidle (q : ι) (hq : q ≠ p) : Function.update s.pc p c q = .idle := by
      rw [Function.update_of_ne hq]
      exact h.others_idle ha.ne_idle hq
    have hself : Function.update s.pc p c p = c := Function.update_self ..
    refine ⟨fun q hq ↦ ?_, p, hidle, .inr ?_⟩
    swap
    · show PushAccess (s.pc p) s.ring a (Function.update s.pc p c p) r
      rwa [hself]
    have hqp : q = p := by
      by_contra hne
      exact hq (hidle q hne)
    subst hqp
    dsimp only at hq ⊢
    rw [hself] at hq
    cases c with
    | idle => exact absurd rfl hq
    | _ => exact h q ha.ne_idle

end Threads

/-- The consumer: load head, load tail, stop if equal, read the slot at head,
store the next head. -/
inductive ConsumerPc
  | loadHead
  | loadTail (head : Int32)
  | test (head tail : Int32)
  | read (head : Int32)
  | store (head : Int32)

inductive ConsumeAction
  | silent
  | stop
  | read (event : PciemEvent)
  | release

inductive ConsumeStep : ConsumerPc → PciemSharedRing → ConsumeAction →
    ConsumerPc → PciemSharedRing → Prop
  | loadHead {r : PciemSharedRing} : ConsumeStep .loadHead r .silent (.loadTail r.head) r
  | loadTail {r : PciemSharedRing} {head : Int32} :
      ConsumeStep (.loadTail head) r .silent (.test head r.tail) r
  | stop {r : PciemSharedRing} {head tail : Int32} : head = tail →
      ConsumeStep (.test head tail) r .stop .loadHead r
  | more {r : PciemSharedRing} {head tail : Int32} : head ≠ tail →
      ConsumeStep (.test head tail) r .silent (.read head) r
  | read {r : PciemSharedRing} {head : Int32} :
      ConsumeStep (.read head) r (.read (r.events head.toInt)) (.store head) r
  | store {r : PciemSharedRing} {head : Int32} :
      ConsumeStep (.store head) r .release .loadHead { r with head := nextIndex head }

section Index

/-- The ring word that stands for position `k` of the stream of events. -/
def index (k : ℕ) : Int32 := Int32.ofNat (k % pciemRingSize)

theorem toInt_index (k : ℕ) : (index k).toInt = ((k % pciemRingSize : ℕ) : ℤ) := by
  have h : k % pciemRingSize < pciemRingSize := Nat.mod_lt _ (by decide)
  exact Int32.toInt_ofNat_of_lt (h.trans (by decide))

theorem index_eq_iff {j k : ℕ} : index j = index k ↔ j % pciemRingSize = k % pciemRingSize := by
  rw [← Int32.toInt_inj, toInt_index, toInt_index, Int.natCast_inj]

theorem toInt_nextIndex {i : Int32} (h₀ : 0 ≤ i.toInt) (h₁ : i.toInt < pciemRingSize) :
    (nextIndex i).toInt = (i.toInt + 1) % pciemRingSize := by
  have hs : (Int32.ofNat pciemRingSize).toInt = (pciemRingSize : ℤ) := by decide
  have hb : (i + 1).toInt = i.toInt + 1 := by
    rw [Int32.toInt_add, Int32.toInt_one]
    simp only [pciemRingSize] at h₁
    exact Int.bmod_eq_of_le (by omega) (by omega)
  rw [nextIndex, Int32.toInt_mod, hs, hb, Int.tmod_eq_emod_of_nonneg (by omega)]

theorem nextIndex_index (k : ℕ) : nextIndex (index k) = index (k + 1) := by
  have h := toInt_index k
  have hlt : k % pciemRingSize < pciemRingSize := Nat.mod_lt _ (by decide)
  rw [← Int32.toInt_inj, toInt_nextIndex (by omega) (by omega), h, toInt_index]
  push_cast
  exact Int.emod_add_emod ..

theorem nextIndex_eq_index_iff {j k : ℕ} (h : j ≤ k) (hk : k < j + pciemRingSize) :
    nextIndex (index k) = index j ↔ k = j + (pciemRingSize - 1) := by
  rw [nextIndex_index, index_eq_iff]
  simp only [pciemRingSize] at hk ⊢
  omega

end Index

variable [DecidableEq ι]

inductive PushRun : PushState ι → List PushAction → PushState ι → Prop
  | nil (s : PushState ι) : PushRun s [] s
  | cons {s t u : PushState ι} {a : PushAction} {as : List PushAction} :
      PushStep s a t → PushRun t as u → PushRun s (a :: as) u

theorem PushStep.of_pc {s : PushState ι} {p : ι} {c c' : PushPc} {a : PushAction}
    {r : PciemSharedRing} (hp : s.pc p = c) (h : PushAccess c s.ring a c' r) :
    PushStep s a ⟨r, if c'.inside then s.sharedRingLock else none, Function.update s.pc p c'⟩ :=
  .access p (hp ▸ h)

/-- The accesses of a push that nothing comes between. -/
def pushActions (ring : PciemSharedRing) (event : PciemEvent) : List PushAction :=
  if (pciemSharedRingPush ring event).1 then
    [.silent, .silent, .loadHead ring.tail ring.head, .silent, .copy ring.tail.toInt,
      .publish event]
  else [.silent, .silent, .loadHead ring.tail ring.head, .refuse event]

theorem push_run (s : PushState ι) (p : ι) (event : PciemEvent) (hp : s.pc p = .idle)
    (hl : s.sharedRingLock = none) :
    PushRun s (pushActions s.ring event)
      { s with ring := (pciemSharedRingPush s.ring event).2 } := by
  have hpc (f : ι → PushPc) (c : PushPc) : Function.update f p c p = c := Function.update_self ..
  have hsame : Function.update s.pc p .idle = s.pc := hp ▸ Function.update_eq_self ..
  by_cases hfull : nextIndex s.ring.tail = s.ring.head
  · have hrun := PushRun.cons (.lock p event hp hl) (.cons (.of_pc (hpc _ _) .loadTail)
      (.cons (.of_pc (hpc _ _) .loadHead)
      (.cons (.of_pc (hpc _ _) (.full hfull)) (.nil _))))
    simpa [pushActions, pciemSharedRingPush, hfull, PushPc.inside, hsame, hl] using hrun
  · have hrun := PushRun.cons (.lock p event hp hl) (.cons (.of_pc (hpc _ _) .loadTail)
      (.cons (.of_pc (hpc _ _) .loadHead)
      (.cons (.of_pc (hpc _ _) (.room hfull))
      (.cons (.of_pc (hpc _ _) .copy)
      (.cons (.of_pc (hpc _ _) .publish) (.nil _))))))
    simpa [pushActions, pciemSharedRingPush, hfull, PushPc.inside, hsame, hl] using hrun

end Pciem.Ring.SharedRing
