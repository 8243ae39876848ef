import Pciem.Library.Interleaving
import Pciem.Library.Replay
import Pciem.Slot.Ioctl
import Pciem.Trace.Context

namespace Pciem.Trace.TraceBar

open Kernel Library.Interleaving Library.Replay Context Bar.Table Config.Capabilities Slot.Ioctl
open Slot.State (PciemUserspaceState)

def pciemTraceReads : BitVec 32 := 1 <<< 0

def pciemTraceWrites : BitVec 32 := 1 <<< 1

def pciemTraceStopWrites : BitVec 32 := 1 <<< 2

structure PciemTraceBar where
  barIndex : BitVec 32
  flags : BitVec 32
  func : BitVec 8

/-- A call of TRACE_BAR; `argCopied` tells whether its argument could be read, and `init` is what
`smptrace_init` returns to it. -/
structure Call where
  argCopied : Bool
  req : PciemTraceBar
  init : Except Errno Unit

/-- The function and the index of the BAR. -/
def Call.bar (c : Call) : ℕ × ℕ := (c.req.func.toNat, c.req.barIndex.toNat)

/-- `initialised` tells whether the context has what a successful `smptrace_init` has put there. -/
structure PciemTracer where
  us : Bool
  ctx : SmptraceCtx
  initialised : Bool

abbrev Tracers := ℕ × ℕ → PciemTracer

/-- Where a call stands between two of its steps. -/
inductive Point
  /-- The context has been filled in, and `smptrace_init` comes next. -/
  | filled
  /-- In `smptrace_init`. -/
  | initialising
  /-- `smptrace_init` has been successful, and the last critical section comes next. -/
  | initialised
  | returned (r : Except Errno Unit)
  /-- The lock of function 0 has been taken through a null pointer. -/
  | nullDereference

variable {δ ι : Type}

section Program

/-- The tracer as the first critical section leaves it. -/
def filledTracer (req : PciemTraceBar) (place : PciemBarPlace) (size : BitVec 64) :
    PciemTracer where
  us := false
  ctx := {
    notif := {
      read := decide (req.flags &&& pciemTraceReads ≠ 0)
      write := decide (req.flags &&& pciemTraceWrites ≠ 0) }
    bar := req.barIndex.setWidth 64
    pa := place.carvedStart
    len := size
    stopWrites := decide (req.flags &&& pciemTraceStopWrites ≠ 0) }
  initialised := false

/-- The critical section under the lock of function 0. -/
def fill (us : PciemUserspaceState δ) (c : Call) (tracers : Tracers) : Point × Tracers :=
  match usGetRc us c.bar.1 with
  | none => (.returned (.error .enodev), tracers)
  | some v =>
    let place := v.placed.places c.bar.2
    let size := (v.placed.rc.bars c.bar.2).size
    if (tracers c.bar).us then
      (.returned (.error .einval), tracers)
    else if place.carvedStart = 0 ∨ size = 0 then
      (.returned (.error .enxio), tracers)
    else
      (.filled, Function.update tracers c.bar (filledTracer c.req place size))

/-- All that comes before `smptrace_init`. -/
def enter (us : PciemUserspaceState δ) (c : Call) (tracers : Tracers) : Point × Tracers :=
  if c.argCopied = false then
    (.returned (.error .efault), tracers)
  else if c.bar.1 ≥ pciemMaxFunctions then
    (.returned (.error .einval), tracers)
  else if c.bar.2 ≥ pciStdNumBars then
    (.returned (.error .einval), tracers)
  else
    match us.slot.funcs 0 with
    | none => (.nullDereference, tracers)
    | some _ => fill us c tracers

/-- `smptrace_init` comes to its end. -/
def initEnd (c : Call) (tracers : Tracers) : Point × Tracers :=
  match c.init with
  | .ok () =>
    (.initialised, Function.update tracers c.bar { tracers c.bar with initialised := true })
  | .error e =>
    (.returned (.error e),
      Function.update tracers c.bar { tracers c.bar with initialised := false })

def next (c : Call) : Point → Tracers → Point × Tracers
  | .filled, tracers => (.initialising, tracers)
  | .initialising, tracers => initEnd c tracers
  | .initialised, tracers =>
    (.returned (.ok ()), Function.update tracers c.bar { tracers c.bar with us := true })
  | .returned r, tracers => (.returned r, tracers)
  | .nullDereference, tracers => (.nullDereference, tracers)

def ioctl (us : PciemUserspaceState δ) : Program Tracers Call Point := ⟨enter us, next⟩

end Program

abbrev Threads (ι : Type) := Library.Interleaving.Config Tracers Call Point ι

/-- The call has initialised its context. -/
def Done (q : Point) : Prop := q = .initialised ∨ q = .returned (.ok ())

/-- No two calls on a BAR return 0, `smptrace_init` is under way on no context that another call
has initialised or is initialising, and what it has initialised has not been cleared. -/
structure Once (s : Threads ι) : Prop where
  returned : Sole Call.bar (fun _ q ↦ q = .returned (.ok ())) s
  init : ∀ i j bar, s.At (fun c q ↦ c.bar = bar ∧ q = .initialising) i →
    s.At (fun c q ↦ c.bar = bar ∧ (q = .initialising ∨ Done q)) j → i = j
  kept : ∀ i bar, s.At (fun c q ↦ c.bar = bar ∧ Done q) i → (s.shared bar).initialised = true

/-- The call stands between its first critical section and its last one. -/
def Underway (q : Point) : Prop := q = .filled ∨ q = .initialising ∨ q = .initialised

/-- The call gets through its first critical section. -/
structure Admitted (us : PciemUserspaceState δ) (tracers : Tracers) (c : Call) : Prop where
  argCopied : c.argCopied = true
  func : c.bar.1 < pciemMaxFunctions
  barIndex : c.bar.2 < pciStdNumBars
  lock : us.slot.funcs 0 ≠ none
  untraced : (tracers c.bar).us = false
  bar : ∃ v, usGetRc us c.bar.1 = some v ∧ (v.placed.places c.bar.2).carvedStart ≠ 0 ∧
    (v.placed.rc.bars c.bar.2).size ≠ 0

/-- A call that gets through its first critical section finds no other one on its BAR that has not
come to its last one. -/
def Alone (us : PciemUserspaceState δ) (s : Threads ι) (a : Turn ι Call) : Prop :=
  ∀ i c, a = .enter i c → s.calls i = none → Admitted us s.shared c →
    ∀ j, ¬ s.At (fun c' q ↦ c'.bar = c.bar ∧ Underway q) j

section Calls

variable {us : PciemUserspaceState δ} {c : Call} {tracers : Tracers} {q : Point}

theorem enter_cases (us : PciemUserspaceState δ) (c : Call) (tracers : Tracers) :
    (Admitted us tracers c ∧ (enter us c tracers).1 = .filled ∧
      ((enter us c tracers).2 c.bar).initialised = false ∧
      ∀ bar, bar ≠ c.bar → (enter us c tracers).2 bar = tracers bar) ∨
    (¬ Admitted us tracers c ∧ ((enter us c tracers).1 = .nullDereference ∨
      ∃ e, (enter us c tracers).1 = .returned (.error e)) ∧ (enter us c tracers).2 = tracers) := by
  unfold enter
  split_ifs with hcopied hfunc hbar
  · exact .inr ⟨fun h ↦ by simp [h.argCopied] at hcopied, .inr ⟨_, rfl⟩, rfl⟩
  · exact .inr ⟨fun h ↦ Nat.not_le.mpr h.func hfunc, .inr ⟨_, rfl⟩, rfl⟩
  · exact .inr ⟨fun h ↦ Nat.not_le.mpr h.barIndex hbar, .inr ⟨_, rfl⟩, rfl⟩
  · cases hlock : us.slot.funcs 0 with
    | none => exact .inr ⟨fun h ↦ h.lock hlock, .inl rfl, rfl⟩
    | some w =>
      unfold fill
      cases hv : usGetRc us c.bar.1 with
      | none =>
        refine .inr ⟨fun h ↦ ?_, .inr ⟨_, rfl⟩, rfl⟩
        obtain ⟨v, hsome, -⟩ := h.bar
        cases hv.symm.trans hsome
      | some v =>
        dsimp only
        split_ifs with hus hplace
        · exact .inr ⟨fun h ↦ by simp [h.untraced] at hus, .inr ⟨_, rfl⟩, rfl⟩
        · refine .inr ⟨fun h ↦ ?_, .inr ⟨_, rfl⟩, rfl⟩
          obtain ⟨v', hv', hstart, hsize⟩ := h.bar
          obtain rfl := Option.some.inj (hv.symm.trans hv')
          exact hplace.elim hstart hsize
        · obtain ⟨hstart, hsize⟩ := not_or.mp hplace
          refine .inl ⟨⟨by simpa using hcopied, Nat.not_le.mp hfunc, Nat.not_le.mp hbar, ?_,
            by simpa using hus, v, hv, hstart, hsize⟩, rfl, ?_, fun bar hne ↦ ?_⟩
          · simp [hlock]
          · simp [filledTracer]
          · exact Function.update_of_ne hne _ _

/-- The call has a BAR for itself. -/
def Holds (q : Point) : Prop := Underway q ∨ q = .returned (.ok ())

/-- What a call relies on after its `smptrace_init`, and after its last critical section. -/
def Kept (c : Call) (q : Point) (tracers : Tracers) : Prop :=
  (Done q → (tracers c.bar).initialised = true) ∧
    (q = .returned (.ok ()) → (tracers c.bar).us = true)

theorem Done.holds (h : Done q) : Holds q := by
  rcases h with rfl | rfl
  · exact .inl (.inr (.inr rfl))
  · exact .inr rfl

theorem not_holds_error {e : Errno} : ¬ Holds (.returned (.error e)) := by
  simp [Holds, Underway]

theorem not_holds_null : ¬ Holds .nullDereference := by simp [Holds, Underway]

theorem kept_of_not (h : ¬ Holds q) : Kept c q tracers :=
  ⟨fun hdone ↦ (h hdone.holds).elim, fun hq ↦ (h (.inr hq)).elim⟩

theorem next_apart (c : Call) (q : Point) (tracers : Tracers) {bar : ℕ × ℕ} (h : bar ≠ c.bar) :
    (next c q tracers).2 bar = tracers bar := by
  cases q with
  | initialising =>
    rw [next, initEnd]
    split
    · exact Function.update_of_ne h _ _
    · exact Function.update_of_ne h _ _
  | initialised => exact Function.update_of_ne h _ _
  | filled | returned | nullDereference => rfl

theorem next_of_not (h : ¬ Holds q) : next c q tracers = (q, tracers) := by
  cases q with
  | filled | initialising | initialised => simp [Holds, Underway] at h
  | returned | nullDereference => rfl

theorem kept_next (h : Kept c q tracers) :
    Kept c (next c q tracers).1 (next c q tracers).2 := by
  cases q with
  | filled => simp [next, Kept, Done]
  | initialising =>
    rw [next, initEnd]
    split
    · simp [Kept, Done]
    · exact kept_of_not not_holds_error
  | initialised =>
    have hinit := h.1 (.inl rfl)
    simp [next, Kept, hinit]
  | returned | nullDereference => exact h

/-- The kernel runs into a null pointer where the call as one step does. -/
theorem enter_null_iff (us : PciemUserspaceState δ) (c : Call) (tracers : Tracers)
    (rest : Except Errno Unit) : (enter us c tracers).1 = .nullDereference ↔
      pciemIoctlTraceBar us c.argCopied (c.req.func.setWidth 32) c.req.barIndex rest =
        .nullDereference := by
  have hfunc : (c.req.func.setWidth 32).toNat = c.bar.1 := by
    simp [Call.bar]
    omega
  have hbar : c.req.barIndex.toNat = c.bar.2 := rfl
  rw [enter, pciemIoctlTraceBar, hfunc, hbar]
  split_ifs
  · simp
  · simp
  · simp
  · cases us.slot.funcs 0 with
    | none => simp [deref]
    | some w =>
      simp only [deref, fill]
      cases usGetRc us c.bar.1 with
      | none => simp
      | some v =>
        dsimp only
        split_ifs
        · simp
        · simp
        · simp

end Calls

section Runs

variable {us : PciemUserspaceState δ} {s : Threads ι} {i : ι} {c : Call} {q : Point}

/-- What is kept while every call is alone. -/
structure Inv (s : Threads ι) : Prop where
  sole : Sole Call.bar (fun _ ↦ Holds) s
  asserts : Asserts Kept s

theorem inv_initial (tracers : Tracers) : Inv (Config.initial tracers : Threads ι) :=
  ⟨sole_initial _, asserts_initial _⟩

theorem Inv.once (h : Inv s) : Once s := by
  refine ⟨fun i j bar hi hj ↦ ?_, fun i j bar hi hj ↦ ?_, fun i bar hi ↦ ?_⟩
  · obtain ⟨c, q, hc, rfl, rfl⟩ := hi
    obtain ⟨c', q', hc', hbar, rfl⟩ := hj
    exact h.sole i j c.bar ⟨c, _, hc, rfl, .inr rfl⟩ ⟨c', _, hc', hbar, .inr rfl⟩
  · obtain ⟨c, q, hc, rfl, rfl⟩ := hi
    obtain ⟨c', q', hc', hbar, hq'⟩ := hj
    refine h.sole i j c.bar ⟨c, _, hc, rfl, .inl (.inr (.inl rfl))⟩ ⟨c', q', hc', hbar, ?_⟩
    rcases hq' with rfl | hdone
    · exact .inl (.inr (.inl rfl))
    · exact hdone.holds
  · obtain ⟨c, q, hc, rfl, hdone⟩ := hi
    exact (h.asserts i c q hc).1 hdone

variable [DecidableEq ι]

/-- The step of a call that has begun keeps the invariant. -/
theorem Inv.next (h : Inv s) (hi : s.calls i = some (c, q)) :
    Inv (s.move i c (TraceBar.next c q s.shared)) := by
  have hbefore : s.calls i = (some q).map (Prod.mk c) := hi
  by_cases hholds : Holds q
  · have hat : s.At (fun c' q ↦ c'.bar = c.bar ∧ Holds q) i := ⟨c, q, hi, rfl, hholds⟩
    refine ⟨h.sole.move_of_held hbefore fun _ ↦ hholds,
      h.asserts.move (kept_next (h.asserts i c q hi)) fun j c' q' hj hq' hkept ↦ ?_⟩
    by_cases hq : Holds q'
    · have hbar : c'.bar ≠ c.bar := by
        intro hbar
        exact hj (h.sole j i c.bar ⟨c', q', hq', hbar, hq⟩ hat)
      rw [Kept, next_apart c q s.shared hbar]
      exact hkept
    · exact kept_of_not hq
  · rw [next_of_not hholds]
    refine ⟨h.sole.move_of_held hbefore id,
      h.asserts.move (kept_of_not hholds) fun j c' q' _ _ hkept ↦ hkept⟩

theorem Inv.enter (h : Inv s) (hi : s.calls i = none)
    (halone : Admitted us s.shared c → ∀ j, ¬ s.At (fun c' q ↦ c'.bar = c.bar ∧ Underway q) j) :
    Inv (s.move i c (enter us c s.shared)) := by
  rcases enter_cases us c s.shared with ⟨hadmitted, hpoint, -, hapart⟩ | ⟨-, hpoint, hshared⟩
  · have hfree (j : ι) : ¬ s.At (fun c' q ↦ c'.bar = c.bar ∧ Holds q) j := by
      rintro ⟨c', q, hc', hbar, hq⟩
      rcases hq with hunderway | rfl
      · exact halone hadmitted j ⟨c', q, hc', hbar, hunderway⟩
      · have hus := (h.asserts j c' _ hc').2 rfl
        rw [hbar, hadmitted.untraced] at hus
        cases hus
    refine ⟨h.sole.move_of_free fun j _ ↦ hfree j,
      h.asserts.move ?_ fun j c' q _ hc' hkept ↦ ?_⟩
    · rw [hpoint]
      simp [Kept, Done]
    · by_cases hq : Holds q
      · rw [Kept, hapart c'.bar fun hbar ↦ hfree j ⟨c', q, hc', hbar, hq⟩]
        exact hkept
      · exact kept_of_not hq
  · have hno : ¬ Holds (TraceBar.enter us c s.shared).1 := by
      rcases hpoint with hpoint | ⟨e, hpoint⟩
      · rw [hpoint]
        exact not_holds_null
      · rw [hpoint]
        exact not_holds_error
    have hbefore : s.calls i = none.map (Prod.mk c) := hi
    refine ⟨h.sole.move_of_held hbefore fun hholds ↦ hno hholds,
      h.asserts.move (kept_of_not hno) fun j c' q _ _ hkept ↦ ?_⟩
    rw [hshared]
    exact hkept

theorem inv_step (h : Inv s) {a : Turn ι Call} (halone : Alone us s a) :
    Inv ((ioctl us).step s a) := by
  rcases step_cases (ioctl us) s a with hsame | ⟨i, c, before, rfl, hi, hstep⟩
  · rw [hsame]
    exact h
  · rw [hstep]
    cases before with
    | none => exact h.enter hi (halone i c rfl hi)
    | some q => exact h.next hi

/-- Whatever the calls that have begun do from here on, each BAR is traced at most once. -/
def Sound (us : PciemUserspaceState δ) (s : Threads ι) : Prop :=
  ∀ is : List ι, Always (ioctl us).step Once s (is.map .next)

theorem Inv.sound (h : Inv s) (us : PciemUserspaceState δ) : Sound us s := by
  intro is
  induction is generalizing s with
  | nil => exact h.once
  | cons i is ih => exact ⟨h.once, ih (inv_step h fun j c hnext ↦ by cases hnext)⟩

theorem Sound.next (h : Sound us s) (i : ι) : Sound us ((ioctl us).step s (.next i)) :=
  fun is ↦ (h (i :: is)).2

/-- A call comes to `smptrace_init` after another one on its BAR. -/
theorem not_sound_of_filled {j : ι} {c' : Call} (hj : s.calls j = some (c', .filled)) (hij : i ≠ j)
    (hi : s.At (fun c q ↦ c.bar = c'.bar ∧ (q = .initialising ∨ Done q)) i) : ¬ Sound us s := by
  intro hsound
  have honce := (hsound.next j []).head
  rw [step_next hj] at honce
  refine hij (honce.init j i c'.bar ?_ ?_).symm
  · exact at_move_self.mpr ⟨rfl, rfl⟩
  · exact (at_move_of_ne hij).mpr hi

/-- Of two calls on a BAR that both get through their first critical sections, one can come to
`smptrace_init` after the other. -/
theorem not_sound_of_underway (hi : s.calls i = none) (hadmitted : Admitted us s.shared c) {j : ι}
    (hj : s.At (fun c' q ↦ c'.bar = c.bar ∧ Underway q) j) :
    ¬ Sound us (s.move i c (enter us c s.shared)) := by
  have hne : j ≠ i := by
    rintro rfl
    exact not_at_of_none hi hj
  have hfilled : (s.move i c (enter us c s.shared)).calls i = some (c, .filled) := by
    rcases enter_cases us c s.shared with ⟨-, hpoint, -⟩ | ⟨hno, -⟩
    · rw [calls_move_self, hpoint]
    · exact (hno hadmitted).elim
  have hmoved := (at_move_of_ne (m := enter us c s.shared) (c := c) hne).mpr hj
  obtain ⟨c', q, hc', hbar, rfl | hq⟩ := hmoved
  · intro hsound
    have hnext := hsound.next j
    rw [step_next hc'] at hnext
    refine not_sound_of_filled ?_ hne (at_move_self.mpr ⟨hbar, .inl rfl⟩) hnext
    rw [calls_move_of_ne hne.symm, hfilled]
  · refine not_sound_of_filled hfilled hne ⟨c', q, hc', hbar, ?_⟩
    rcases hq with rfl | rfl
    · exact .inl rfl
    · exact .inr (.inl rfl)

/-- A BAR is traced at most once, in whatever order its calls come to their ends, exactly if no
call gets through its first critical section while another one is under way. -/
theorem traced_once_iff (us : PciemUserspaceState δ) (tracers : Tracers)
    (turns : List (Turn ι Call)) :
    Always (ioctl us).step (Sound us) (Config.initial tracers) turns ↔
      Each (ioctl us).step (Alone us) (Config.initial tracers) turns := by
  refine always_iff_each_of_lost (I := Inv) (fun s h ↦ h.sound us)
    (fun s a h halone ↦ inv_step h halone) (fun s a _ hlost ↦ ?_) (inv_initial tracers)
  simp only [Alone, not_forall, not_not] at hlost
  obtain ⟨i, c, rfl, hi, hadmitted, j, hj⟩ := hlost
  rw [step_enter hi]
  exact not_sound_of_underway hi hadmitted hj

/-- A newly opened fd, with a function all of whose BARs have memory. -/
def withBars : PciemUserspaceState ℕ :=
  let us := opened .hardware (fun _ ↦ false) ⟨12, 0x1000, 0x10000, fun _ ↦ true⟩
  let v := newFunction 1 .virtualRoot true
  let bars : PlacedFunction := {
    rc := { v.placed.rc with bars := fun _ ↦ ⟨0x1000, 0, 0⟩ }
    places := fun _ ↦ ⟨0x1000, 0x1fff, 0, false⟩ }
  let funcs := fun k ↦ if k = 0 then some { v with placed := bars } else none
  { us with slot := { us.slot with funcs } }

def untraced : Tracers := fun _ ↦ ⟨false, ⟨⟨false, false⟩, 0, 0, 0, false⟩, false⟩

/-- Trace the reads of BAR 0. -/
def traceBar0 : Call := ⟨true, ⟨0, pciemTraceReads, 0⟩, .ok ()⟩

/-- Both calls find that the BAR is not traced yet. -/
theorem traced_twice : ¬ Always (ioctl withBars).step Once (Config.initial untraced : Threads ℕ)
    [.enter 0 traceBar0, .enter 1 traceBar0, .next 0, .next 0, .next 0, .next 1, .next 1,
      .next 1] := by
  intro h
  have honce := h.last.returned 0 1 (0, 0) ⟨traceBar0, .returned (.ok ()), rfl, rfl, rfl⟩
    ⟨traceBar0, .returned (.ok ()), rfl, rfl, rfl⟩
  cases honce

end Runs

end Pciem.Trace.TraceBar
