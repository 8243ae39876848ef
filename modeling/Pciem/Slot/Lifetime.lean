import Mathlib.Data.List.Count
import Pciem.Library.Replay
import Pciem.Slot.State

namespace Pciem.Slot.Lifetime

open Library.Replay
open Dma.Indirect (Registration)

/-- Where a call stands that has a reference on the file of the control fd. `other` is any call
but REGISTER. -/
inductive Point
  | entered
  | initialising
  | gettingFd
  /-- The instance fd is there, and `kref_get` comes next. -/
  | installed
  | other
  deriving DecidableEq

/-- `control` tells whether the control fd is in the table of the process, and `instanceFds` is
the number of instance fds whose release has not been called. -/
structure Machine where
  refcnt : ℕ
  destroyed : Bool
  registered : Registration
  control : Bool
  instanceFds : ℕ
  calls : List Point

/-- Calls that are at the same point are alike. `ok` is what comes of what a call does next, where
that may fail. -/
inductive Action
  | register
  | other
  | next (q : Point) (ok : Bool)
  | closeControl
  | closeInstance

/-- `pciem_open` has returned. -/
def opened : Machine := ⟨1, false, .unregistered, true, 0, []⟩

/-- `kref_put`, with `pciem_userspace_destroy` as the release function. -/
def Machine.krefPut (m : Machine) : Machine :=
  { m with refcnt := m.refcnt - 1, destroyed := m.destroyed || decide (m.refcnt = 1) }

/-- A reference on the file of the control fd has been dropped; `pciem_device_release` is called
when that was the last one. -/
def Machine.fput (m : Machine) : Machine :=
  if m.control = false ∧ m.calls = [] then m.krefPut else m

/-- The next step of a call, which has been taken out of the list. -/
def advance (m : Machine) (ok : Bool) : Point → Machine
  | .entered =>
    if ok = false then
      m.fput
    else
      match m.registered with
      | .unregistered => { m with registered := .registering, calls := .initialising :: m.calls }
      | .registering | .registered => m.fput
  | .initialising =>
    if ok then { m with registered := .registered, calls := .gettingFd :: m.calls }
    else Machine.fput { m with registered := .unregistered }
  | .gettingFd =>
    if ok then { m with instanceFds := m.instanceFds + 1, calls := .installed :: m.calls }
    else m.fput
  | .installed => Machine.fput { m with refcnt := m.refcnt + 1 }
  | .other => m.fput

def step (m : Machine) : Action → Machine
  | .register => if m.control then { m with calls := .entered :: m.calls } else m
  | .other => if m.control then { m with calls := .other :: m.calls } else m
  | .next q ok => if q ∈ m.calls then advance { m with calls := m.calls.erase q } ok q else m
  | .closeControl => if m.control then Machine.fput { m with control := false } else m
  | .closeInstance =>
    if m.instanceFds > 0 then Machine.krefPut { m with instanceFds := m.instanceFds - 1 } else m

/-- No file is open that has the state. -/
def Machine.AllClosed (m : Machine) : Prop :=
  m.control = false ∧ m.calls = [] ∧ m.instanceFds = 0

instance (m : Machine) : Decidable m.AllClosed := inferInstanceAs (Decidable (_ ∧ _ ∧ _))

/-- The count is zero, and the state destroyed, just when every fd is closed. -/
structure Lives (m : Machine) : Prop where
  count : m.refcnt = 0 ↔ m.AllClosed
  destroyed : m.destroyed = true ↔ m.AllClosed

/-- An instance fd is not closed before REGISTER has taken the reference for it. -/
def Patient (m : Machine) : Action → Prop
  | .closeInstance => m.instanceFds > 0 → .installed ∉ m.calls
  | _ => True

/-- The reference that the file of the control fd has on the state, while it is there. -/
def Machine.controlFile (m : Machine) : ℕ := if m.control = false ∧ m.calls = [] then 0 else 1

structure Inv (m : Machine) : Prop where
  balance : m.refcnt + m.calls.count .installed = m.instanceFds + m.controlFile
  installed : m.calls.count .installed ≤ m.instanceFds
  once : m.calls.count .initialising + m.calls.count .gettingFd + m.instanceFds ≤
    if m.registered = .unregistered then 0 else 1
  destroyed : m.destroyed = true ↔ m.refcnt = 0

section Kept

variable {m : Machine} {a : Action} {q : Point}

theorem Inv.lives (h : Inv m) : Lives m := by
  have hcount : m.refcnt = 0 ↔ m.AllClosed := by
    have hbalance := h.balance
    have hinstalled := h.installed
    rw [Machine.controlFile] at hbalance
    constructor
    · intro hzero
      split_ifs at hbalance with hclosed
      · have hnone : m.calls.count .installed = 0 := by simp [hclosed.2]
        exact ⟨hclosed.1, hclosed.2, by omega⟩
      · omega
    · rintro ⟨hcontrol, hcalls, hfds⟩
      rw [if_pos ⟨hcontrol, hcalls⟩] at hbalance
      omega
  exact ⟨hcount, h.destroyed.trans hcount⟩

/-- The invariant while a reference on the file of the control fd is in hand. -/
structure Pinned (m : Machine) : Prop where
  balance : m.refcnt + m.calls.count .installed = m.instanceFds + 1
  installed : m.calls.count .installed ≤ m.instanceFds
  once : m.calls.count .initialising + m.calls.count .gettingFd + m.instanceFds ≤
    if m.registered = .unregistered then 0 else 1
  destroyed : m.destroyed = true ↔ m.refcnt = 0

theorem Pinned.inv (h : Pinned m) (hopen : ¬ (m.control = false ∧ m.calls = [])) : Inv m where
  balance := by rw [h.balance, Machine.controlFile, if_neg hopen]
  installed := h.installed
  once := h.once
  destroyed := h.destroyed

theorem Inv.pinned (h : Inv m) (hopen : ¬ (m.control = false ∧ m.calls = [])) : Pinned m where
  balance := by rw [h.balance, Machine.controlFile, if_neg hopen]
  installed := h.installed
  once := h.once
  destroyed := h.destroyed

/-- `kref_put` of one of several references, or of the last one. -/
theorem destroyed_krefPut (hpos : 0 < m.refcnt) (h : m.destroyed = true ↔ m.refcnt = 0) :
    m.krefPut.destroyed = true ↔ m.krefPut.refcnt = 0 := by
  have hfalse : m.destroyed = false := by
    rw [← Bool.not_eq_true, h]
    omega
  simp only [Machine.krefPut, hfalse, Bool.false_or, decide_eq_true_eq]
  omega

theorem Pinned.fput (h : Pinned m) : Inv m.fput := by
  rw [Machine.fput]
  split_ifs with hclosed
  · have hbalance := h.balance
    simp only [hclosed.2, List.count_nil] at hbalance
    refine ⟨?_, h.installed, h.once, destroyed_krefPut (by omega) h.destroyed⟩
    have hfile : m.krefPut.controlFile = 0 := if_pos hclosed
    rw [hfile]
    simp only [Machine.krefPut, hclosed.2, List.count_nil]
    omega
  · exact h.inv hclosed

/-- The call at `q` is taken out of the list, and its step is made. -/
theorem Pinned.advance (h : Pinned m) (hq : q ∈ m.calls) (ok : Bool) :
    Inv (advance { m with calls := m.calls.erase q } ok q) := by
  have hbalance := h.balance
  have hinstalled := h.installed
  have honce := h.once
  have hpos : 0 < m.calls.count q := List.count_pos_iff.mpr hq
  have hleave (hne : q ≠ .installed) : Pinned { m with calls := m.calls.erase q } := by
    refine ⟨?_, ?_, ?_, h.destroyed⟩
    · simpa [List.count_erase_of_ne hne.symm] using hbalance
    · simpa [List.count_erase_of_ne hne.symm] using hinstalled
    · have hcount (p : Point) : (m.calls.erase q).count p ≤ m.calls.count p :=
        List.erase_sublist.count_le p
      exact Nat.le_trans (Nat.add_le_add_right (Nat.add_le_add (hcount _) (hcount _)) _) honce
  cases q with
  | entered =>
    rw [Lifetime.advance]
    split_ifs
    · exact (hleave (by simp)).fput
    · split
      · rename_i hreg
        rw [if_pos hreg] at honce
        refine Pinned.inv ⟨?_, ?_, ?_, h.destroyed⟩ (by simp)
        · simpa using (hleave (by simp)).balance
        · simpa using (hleave (by simp)).installed
        · simp only [List.count_cons, List.count_erase]
          simp
          omega
      · exact (hleave (by simp)).fput
      · exact (hleave (by simp)).fput
  | other => exact (hleave (by simp)).fput
  | initialising =>
    have hone : m.calls.count .initialising + m.calls.count .gettingFd + m.instanceFds ≤ 1 := by
      split_ifs at honce
      · omega
      · exact honce
    rw [Lifetime.advance]
    split_ifs
    · refine Pinned.inv ⟨?_, ?_, ?_, h.destroyed⟩ (by simp)
      · simpa using (hleave (by simp)).balance
      · simpa using (hleave (by simp)).installed
      · simp
        omega
    · refine Pinned.fput ⟨(hleave (by simp)).balance, (hleave (by simp)).installed, ?_, h.destroyed⟩
      simp
      omega
  | gettingFd =>
    have hne : m.registered ≠ .unregistered := by
      intro hreg
      rw [if_pos hreg] at honce
      omega
    rw [if_neg hne] at honce
    rw [Lifetime.advance]
    split_ifs
    · refine Pinned.inv ⟨?_, ?_, ?_, h.destroyed⟩ (by simp)
      · simp
        omega
      · simp
        omega
      · simp [hne]
        omega
    · exact (hleave (by simp)).fput
  | installed =>
    refine Pinned.fput ⟨?_, ?_, ?_, ?_⟩
    · simp
      omega
    · simp
      omega
    · simpa using honce
    · have hdestroyed := h.destroyed
      simp only [Nat.add_eq_zero_iff, Nat.one_ne_zero, and_false, iff_false]
      rw [hdestroyed]
      omega

theorem Inv.orderly (h : Inv m) (hpatient : Patient m a) : Inv (step m a) := by
  cases a with
  | register | other =>
    rw [step]
    split_ifs with hcontrol
    · have hpinned := h.pinned fun hclosed ↦ by simp [hcontrol] at hclosed
      refine Pinned.inv ⟨?_, ?_, ?_, h.destroyed⟩ (by simp)
      · simpa using hpinned.balance
      · simpa using h.installed
      · simpa using h.once
    · exact h
  | next q ok =>
    rw [step]
    split_ifs with hq
    · have hpinned := h.pinned fun hclosed ↦ by simp [hclosed.2] at hq
      exact hpinned.advance hq ok
    · exact h
  | closeControl =>
    rw [step]
    split_ifs with hcontrol
    · have hpinned := h.pinned fun hclosed ↦ by simp [hcontrol] at hclosed
      exact Pinned.fput ⟨hpinned.balance, h.installed, h.once, h.destroyed⟩
    · exact h
  | closeInstance =>
    rw [step]
    split_ifs with hfds
    · have hnone : m.calls.count .installed = 0 := List.count_eq_zero.mpr (hpatient hfds)
      have hbalance := h.balance
      refine ⟨?_, ?_, ?_, destroyed_krefPut (by simp only; omega) h.destroyed⟩
      · change m.refcnt - 1 + m.calls.count .installed = m.instanceFds - 1 + m.controlFile
        omega
      · exact hnone ▸ Nat.zero_le _
      · exact Nat.le_trans (Nat.add_le_add_left (Nat.sub_le _ _) _) h.once
    · exact h

/-- An instance fd that is closed too early takes the last reference with it. -/
theorem Inv.lost (h : Inv m) (hno : ¬ Patient m a) : ¬ Lives (step m a) := by
  cases a with
  | closeInstance =>
    have himpatient : m.instanceFds > 0 ∧ .installed ∈ m.calls := by
      simpa [Patient] using hno
    obtain ⟨hfds, hinstalled⟩ := himpatient
    have hpos : 0 < m.calls.count .installed := List.count_pos_iff.mpr hinstalled
    have hopen : ¬ (m.control = false ∧ m.calls = []) := fun hclosed ↦ by
      simp [hclosed.2] at hinstalled
    have hbalance := (h.pinned hopen).balance
    have honce := h.once
    rw [step, if_pos hfds]
    intro hlives
    have hcount : m.refcnt - 1 = 0 := by
      split_ifs at honce
      · omega
      · omega
    have hclosed : m.calls = [] := (hlives.count.mp hcount).2.1
    simp [hclosed] at hinstalled
  | register | other | next | closeControl => exact absurd trivial hno

end Kept

section Runs

theorem inv_opened : Inv opened := ⟨rfl, by simp [opened], by simp [opened], by simp [opened]⟩

/-- The state lives as long as its fds are open just when no instance fd is closed while the
REGISTER that made it has its `kref_get` to do. -/
theorem lives_iff_patient (as : List Action) :
    Always step Lives opened as ↔ Each step Patient opened as :=
  always_iff_each_of_lost (fun _ h ↦ h.lives) (fun _ _ h hpatient ↦ h.orderly hpatient)
    (fun _ _ h hno ↦ h.lost hno) inv_opened

/-- The instance fd is closed as soon as it is there. -/
def closedAtOnce : List Action :=
  [.register, .next .entered true, .next .initialising true, .next .gettingFd true, .closeInstance]

theorem destroyed_while_open : ¬ Always step Lives opened closedAtOnce := by
  intro halways
  have hlives := halways.2.2.2.2.2
  have hclosed : Machine.AllClosed _ := hlives.count.mp rfl
  cases hclosed.1

end Runs

end Pciem.Slot.Lifetime
