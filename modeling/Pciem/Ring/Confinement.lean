import Pciem.Library.TransitionSystem
import Pciem.Ring.SharedRing

namespace Pciem.Ring.Confinement

open Library.TransitionSystem SharedRing

/-- What the pushes of a run did to the page: the `(tail, head)` pairs they loaded,
and the indices into `events` they copied to. -/
structure Trace where
  loads : List (Int32 × Int32)
  writes : List ℤ

def Trace.note (t : Trace) : PushAction → Trace
  | .silent | .refuse _ | .publish _ => t
  | .loadHead tail head => { t with loads := t.loads ++ [(tail, head)] }
  | .copy i => { t with writes := t.writes ++ [i] }

structure MappedRun (ι : Type*) where
  push : PushState ι
  trace : Trace

variable {ι : Type*}

/-- `pciem_device_mmap` maps the page with the protection userspace asked for, so
any value may be stored to either word between any two accesses of the kernel. -/
inductive MappedStep [DecidableEq ι] : MappedRun ι → MappedRun ι → Prop
  | push {s : MappedRun ι} {a : PushAction} {t : PushState ι} : PushStep s.push a t →
      MappedStep s ⟨t, s.trace.note a⟩
  | storeHead {s : MappedRun ι} (v : Int32) : MappedStep s { s with push.ring.head := v }
  | storeTail {s : MappedRun ι} (v : Int32) : MappedStep s { s with push.ring.tail := v }

def initial (ι : Type*) : MappedRun ι :=
  ⟨⟨pciemSharedRingAlloc, none, fun _ ↦ .idle⟩, ⟨[], []⟩⟩

def mappedSystem (ι : Type*) [DecidableEq ι] : System (MappedRun ι) where
  init s := s = initial ι
  next := MappedStep

def IsSlot (i : ℤ) : Prop := 0 ≤ i ∧ i < pciemRingSize

/-- The words a push loaded do not lead it outside the array: the tail is the index
of a slot, or the ring looks full and nothing is copied. -/
def Safe (l : Int32 × Int32) : Prop := IsSlot l.1.toInt ∨ nextIndex l.1 = l.2

def copies (loads : List (Int32 × Int32)) : List ℤ :=
  (loads.filter fun l ↦ nextIndex l.1 ≠ l.2).map fun l ↦ l.1.toInt

theorem copies_full {loads : List (Int32 × Int32)} {tail head : Int32}
    (h : nextIndex tail = head) : copies (loads ++ [(tail, head)]) = copies loads := by
  simp [copies, h]

theorem copies_room {loads : List (Int32 × Int32)} {tail head : Int32}
    (h : nextIndex tail ≠ head) :
    copies (loads ++ [(tail, head)]) = copies loads ++ [tail.toInt] := by
  simp [copies, h]

theorem copies_isSlot_iff (loads : List (Int32 × Int32)) :
    (∀ i ∈ copies loads, IsSlot i) ↔ ∀ l ∈ loads, Safe l := by
  simp only [copies, List.forall_mem_map, List.mem_filter, decide_eq_true_eq, and_imp, Safe]
  exact forall₂_congr fun l _ ↦ by rw [or_iff_not_imp_right]

/-- Between its load of `head` and its copy, a push still has to write for the pair
it loaded last; at every other point all loads are accounted for. -/
def PcOk (t : Trace) : PushPc → Prop
  | .idle => True
  | .loadTail _ | .loadHead _ _ | .publish _ _ => t.writes = copies t.loads
  | .test _ tail head => ∃ old, t.loads = old ++ [(tail, head)] ∧ t.writes = copies old
  | .copy _ tail => ∃ old head, t.loads = old ++ [(tail, head)] ∧ nextIndex tail ≠ head ∧
      t.writes = copies old

/-- At any moment the writes are those of the loads made so far, but for the last
pair while its push is still to copy. -/
def Past (t : Trace) : Prop := ∃ old, old <+: t.loads ∧ t.writes = copies old

theorem pcOk_past {t : Trace} {c : PushPc} (h : PcOk t c)
    (hidle : c = .idle → t.writes = copies t.loads) : Past t := by
  cases c with
  | idle => exact ⟨_, List.prefix_rfl, hidle rfl⟩
  | test event tail head =>
    obtain ⟨old, hl, hw⟩ := h
    exact ⟨old, hl ▸ List.prefix_append .., hw⟩
  | copy event tail =>
    obtain ⟨old, head, hl, -, hw⟩ := h
    exact ⟨old, hl ▸ List.prefix_append .., hw⟩
  | loadTail | loadHead | publish => exact ⟨_, List.prefix_rfl, h⟩

structure Inv (s : MappedRun ι) : Prop where
  exclusive : Exclusive s.push
  past : Past s.trace
  free : s.push.sharedRingLock = none → s.trace.writes = copies s.trace.loads
  push : ∀ p, PcOk s.trace (s.push.pc p)

theorem inv_initial : Inv (initial ι) where
  exclusive _ hp := absurd rfl hp
  past := ⟨[], List.prefix_rfl, rfl⟩
  free _ := rfl
  push _ := trivial

/-- The writes of one access follow the loads as far as the new point of the push says. -/
theorem pcOk_access {t : Trace} {c c' : PushPc} {r r' : PciemSharedRing} {a : PushAction}
    (h : PcOk t c) (hs : PushAccess c r a c' r') :
    PcOk (t.note a) c' ∧ (c' = .idle → (t.note a).writes = copies (t.note a).loads) := by
  cases hs with
  | loadTail => exact ⟨h, by simp⟩
  | loadHead => exact ⟨⟨_, rfl, h⟩, by simp⟩
  | full he =>
    obtain ⟨old, hl, hw⟩ := h
    exact ⟨trivial, fun _ ↦ show t.writes = copies t.loads by rw [hl, copies_full he, hw]⟩
  | room he =>
    obtain ⟨old, hl, hw⟩ := h
    exact ⟨⟨old, _, hl, he, hw⟩, by simp⟩
  | @copy _ _ tail =>
    obtain ⟨old, head, hl, he, hw⟩ := h
    exact ⟨show t.writes ++ [tail.toInt] = copies t.loads by rw [hl, copies_room he, hw], by simp⟩
  | publish => exact ⟨trivial, fun _ ↦ h⟩

variable [DecidableEq ι]

theorem inv_push {s : MappedRun ι} (h : Inv s) {a : PushAction} {t : PushState ι}
    (hs : PushStep s.push a t) : Inv ⟨t, s.trace.note a⟩ := by
  obtain ⟨hex, p, hidle, hcase⟩ := hs.thread h.exclusive
  have hnew : PcOk (s.trace.note a) (t.pc p) ∧
      (t.pc p = .idle → (s.trace.note a).writes = copies (s.trace.note a).loads) := by
    rcases hcase with ⟨hl, -, rfl, event, hp⟩ | ha
    · exact hp ▸ ⟨h.free hl, by simp⟩
    · exact pcOk_access (h.push p) ha
  refine ⟨hex, pcOk_past hnew.1 hnew.2, fun hl ↦ hnew.2 ?_, fun q ↦ ?_⟩
  · by_contra hp
    exact absurd (hl.symm.trans (hex p hp)) (by simp)
  · by_cases hq : q = p
    · exact hq ▸ hnew.1
    · exact (hidle q hq).symm ▸ trivial

theorem reachable_inv {s : MappedRun ι} (h : (mappedSystem ι).Reachable s) : Inv s := by
  refine h.invariant ?_ ?_
  · intro s hs
    exact hs ▸ inv_initial
  · intro s t hi hs
    cases hs with
    | push hp => exact inv_push hi hp
    | storeHead v => exact ⟨hi.exclusive, hi.past, hi.free, hi.push⟩
    | storeTail v => exact ⟨hi.exclusive, hi.past, hi.free, hi.push⟩

/-- Whatever userspace stores to the two words and however its stores fall between
the accesses of the pushes: as long as every push loads safe words, every copy goes
to a slot; and once no push is under way, a copy went outside exactly when some push
loaded unsafe words. -/
theorem confined_iff_safe {s : MappedRun ι} (h : (mappedSystem ι).Reachable s) :
    ((∀ l ∈ s.trace.loads, Safe l) → ∀ i ∈ s.trace.writes, IsSlot i) ∧
      (s.push.sharedRingLock = none →
        ((∀ i ∈ s.trace.writes, IsSlot i) ↔ ∀ l ∈ s.trace.loads, Safe l)) := by
  have hinv := reachable_inv h
  refine ⟨fun hsafe ↦ ?_, fun hl ↦ ?_⟩
  · obtain ⟨old, hold, hw⟩ := hinv.past
    rw [hw, copies_isSlot_iff]
    exact fun l hl ↦ hsafe l (hold.subset hl)
  · rw [hinv.free hl, copies_isSlot_iff]

theorem follow_push {s : MappedRun ι} {as : List PushAction} {t : PushState ι}
    (h : PushRun s.push as t) :
    Relation.ReflTransGen MappedStep s ⟨t, as.foldl Trace.note s.trace⟩ := by
  generalize hp : s.push = u at h
  induction h generalizing s with
  | nil => exact hp ▸ .refl
  | cons hs _ ih =>
    subst hp
    exact .head (.push hs) (ih (s := ⟨_, s.trace.note _⟩) rfl)

/-- A push that nothing comes between, from whatever the two words hold. -/
theorem reachable_push {s : MappedRun ι} (h : (mappedSystem ι).Reachable s) (p : ι)
    (event : PciemEvent) (hp : s.push.pc p = .idle) (hl : s.push.sharedRingLock = none) :
    (mappedSystem ι).Reachable
      ⟨{ s.push with ring := (pciemSharedRingPush s.push.ring event).2 },
        (pushActions s.push.ring event).foldl Trace.note s.trace⟩ :=
  h.of_reflTransGen (follow_push (push_run s.push p event hp hl))

/-- Userspace stores to both words in the middle of a push, which copies to the last slot, and
makes the ring look full before the next one. -/
theorem confined_iff_safe_stores : ∃ s : MappedRun Unit,
    s.trace.loads = [(255, 7), (0, 1)] ∧ s.trace.writes = [255] ∧
    (∀ l ∈ s.trace.loads, Safe l) ∧ (∀ i ∈ s.trace.writes, IsSlot i) ∧
    ((∀ i ∈ s.trace.writes, IsSlot i) ↔ ∀ l ∈ s.trace.loads, Safe l) := by
  have hlocked := (System.Reachable.init (S := mappedSystem Unit) rfl).step
    (.push (.lock () default rfl rfl))
  have htail := (hlocked.step (.storeTail 255)).step (.push (.of_pc (p := ()) rfl .loadTail))
  have hhead := (htail.step (.storeHead 7)).step (.push (.of_pc (p := ()) rfl .loadHead))
  have hroom := hhead.step (.push (.of_pc (p := ()) rfl (.room (by decide))))
  have hcopied := hroom.step (.push (.of_pc (p := ()) rfl .copy))
  have hpublished := hcopied.step (.push (.of_pc (p := ()) rfl .publish))
  have h := reachable_push (hpublished.step (.storeHead 1)) () default rfl rfl
  have hsafe : ∀ l ∈ [((255 : Int32), (7 : Int32)), (0, 1)], Safe l := by
    simp only [List.forall_mem_cons]
    exact ⟨.inl ⟨by decide, by decide⟩, .inr (by decide), fun _ hl ↦ absurd hl List.not_mem_nil⟩
  obtain ⟨hinside, hiff⟩ := confined_iff_safe h
  exact ⟨_, rfl, rfl, hsafe, hinside hsafe, hiff rfl⟩

/-- Userspace stores 256 to `tail`; the next push copies to `events[256]`. -/
theorem store_tail_escapes : ¬ ∀ s : MappedRun Unit, (mappedSystem Unit).Reachable s →
    ∀ i ∈ s.trace.writes, IsSlot i := by
  intro hall
  have h₀ := (System.Reachable.init (S := mappedSystem Unit) rfl).step (.storeTail 256)
  have h := reachable_push h₀ () default rfl rfl
  have hslot := hall _ h 256 (List.mem_singleton.mpr rfl)
  exact absurd hslot.2 (by decide)

end Pciem.Ring.Confinement
