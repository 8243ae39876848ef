import Mathlib.Data.List.Nodup
import Mathlib.Logic.Function.Basic
import Mathlib.Tactic.SplitIfs
import Pciem.Library.Replay

namespace Pciem.Irq.Retire

open Library.Replay

/-- How far the call of SET_IRQFD is that the irqfd belongs to. -/
inductive Setting
  | none
  | allocated
  | failed
  | registered
  | returned
deriving DecidableEq

/-- How far `shutdown_work` is. -/
inductive Shutdown
  | idle
  | queued
  | removed
  | flushed
  | done
deriving DecidableEq

/-- `waiting` tells that the wait queue of the eventfd has `wait`, and `wakeup` which flags a
callback that is running has still to look at. `inject_work` may be queued again while it runs. The
counts are of the calls of `queue_work` for `shutdown_work`, and of `kfree`. -/
structure PciemIrqfd where
  setting : Setting
  waiting : Bool
  wakeup : Option (Bool × Bool)
  pending : Bool
  running : Bool
  shutdown : Shutdown
  queued : ℕ
  freed : ℕ
deriving DecidableEq

/-- How far `pciem_irqfds_shutdown` is. -/
inductive Phase
  | opened
  | draining
  | returned
deriving DecidableEq

structure PciemIrqfds where
  items : List ℕ
  irqfd : ℕ → PciemIrqfd
  phase : Phase
  made : ℕ

namespace PciemIrqfd

def none : PciemIrqfd := ⟨.none, false, .none, false, false, .idle, 0, 0⟩

/-- The call of SET_IRQFD is not over, and holds the files. -/
def InCall (r : PciemIrqfd) : Prop := r.setting = .allocated ∨ r.setting = .registered

instance decidableInCall (r : PciemIrqfd) : Decidable r.InCall :=
  inferInstanceAs (Decidable (_ ∨ _))

def kfree (r : PciemIrqfd) : PciemIrqfd := { r with freed := r.freed + 1 }

def scheduleInject (r : PciemIrqfd) : PciemIrqfd := { r with pending := true }

def queueShutdown (r : PciemIrqfd) : PciemIrqfd :=
  { r with shutdown := .queued, queued := r.queued + 1 }

/-- A step of `pciem_irqfd_shutdown_work`. The removal from the wait queue waits for a callback that
is running, and `flush_work` for `inject_work`. -/
def pciemIrqfdShutdownWork (r : PciemIrqfd) : PciemIrqfd :=
  match r.shutdown with
  | .queued => if r.wakeup = .none then { r with waiting := false, shutdown := .removed } else r
  | .removed =>
    if r.pending = false ∧ r.running = false then { r with shutdown := .flushed } else r
  | .flushed => { r.kfree with shutdown := .done }
  | _ => r

end PciemIrqfd

namespace PciemIrqfds

def init : PciemIrqfds := ⟨[], fun _ ↦ .none, .opened, 0⟩

def set (s : PciemIrqfds) (i : ℕ) (r : PciemIrqfd) : PciemIrqfds :=
  { s with irqfd := Function.update s.irqfd i r }

/-- With the lock held. `list_empty` tells of an irqfd whether it is not on the list. -/
def pciemIrqfdShutdown (s : PciemIrqfds) (i : ℕ) : PciemIrqfds :=
  if i ∈ s.items then { s with items := s.items.erase i }.set i (s.irqfd i).queueShutdown else s

/-- A step of `pciem_irqfd_wakeup`: the test for `EPOLLIN`, the test for `EPOLLHUP` with what is
done under the lock, or the return. -/
def pciemIrqfdWakeup (s : PciemIrqfds) (i : ℕ) : PciemIrqfds :=
  match (s.irqfd i).wakeup with
  | some (true, hup) =>
    s.set i { (s.irqfd i).scheduleInject with wakeup := some (false, hup) }
  | some (false, true) =>
    (s.set i { s.irqfd i with wakeup := some (false, false) }).pciemIrqfdShutdown i
  | some (false, false) => s.set i { s.irqfd i with wakeup := .none }
  | .none => s

/-- The locked section of `pciem_irqfds_shutdown`. -/
def pciemIrqfdsShutdown (s : PciemIrqfds) : PciemIrqfds :=
  { s.items.foldl pciemIrqfdShutdown s with phase := .draining }

end PciemIrqfds

/-- `wake` begins a callback with the flags. `setIrqfd` makes an irqfd, `fail` frees it again,
`register` is `pciem_irqfd_ptable_queue_proc`, and `polled` the rest of the call. -/
inductive Action
  | setIrqfd
  | fail (i : ℕ)
  | register (i : ℕ)
  | polled (i : ℕ) (epollin : Bool)
  | wake (i : ℕ) (epollin epollhup : Bool)
  | wakeup (i : ℕ)
  | injectBegin (i : ℕ)
  | injectEnd (i : ℕ)
  | shutdownWork (i : ℕ)
  | shutdown
  | destroyed

open PciemIrqfd PciemIrqfds in
/-- A call of SET_IRQFD keeps its eventfd from hanging up, and `pciem_irqfds_shutdown` from
beginning. `destroy_workqueue` waits for the work that is queued. An action that cannot be taken
changes nothing. -/
def step (s : PciemIrqfds) : Action → PciemIrqfds
  | .setIrqfd =>
    if s.phase = .opened then
      { s with made := s.made + 1 }.set s.made { PciemIrqfd.none with setting := .allocated }
    else
      s
  | .fail i =>
    if (s.irqfd i).setting = .allocated then
      s.set i { (s.irqfd i).kfree with setting := .failed }
    else
      s
  | .register i =>
    if (s.irqfd i).setting = .allocated then
      { s with items := s.items ++ [i] }.set i
        { s.irqfd i with setting := .registered, waiting := true }
    else
      s
  | .polled i epollin =>
    if (s.irqfd i).setting = .registered then
      s.set i { s.irqfd i with
        setting := .returned
        pending := (s.irqfd i).pending || epollin }
    else
      s
  | .wake i epollin epollhup =>
    if (s.irqfd i).waiting ∧ (s.irqfd i).wakeup = .none ∧
        (epollhup = true → ¬ (s.irqfd i).InCall) then
      s.set i { s.irqfd i with wakeup := some (epollin, epollhup) }
    else
      s
  | .wakeup i => s.pciemIrqfdWakeup i
  | .injectBegin i =>
    if (s.irqfd i).pending ∧ (s.irqfd i).running = false then
      s.set i { s.irqfd i with pending := false, running := true }
    else
      s
  | .injectEnd i => s.set i { s.irqfd i with running := false }
  | .shutdownWork i => s.set i (s.irqfd i).pciemIrqfdShutdownWork
  | .shutdown =>
    if s.phase = .opened ∧ ∀ i < s.made, ¬ (s.irqfd i).InCall then s.pciemIrqfdsShutdown else s
  | .destroyed =>
    if s.phase = .draining ∧
        ∀ i < s.made, (s.irqfd i).shutdown = .idle ∨ (s.irqfd i).shutdown = .done then
      { s with phase := .returned }
    else
      s

/-- The irqfd has been put on the list. -/
def PciemIrqfd.Registered (r : PciemIrqfd) : Prop :=
  r.setting = .registered ∨ r.setting = .returned

/-- Nothing of the irqfd runs, or will. -/
structure PciemIrqfd.Quiet (r : PciemIrqfd) : Prop where
  waiting : r.waiting = false
  wakeup : r.wakeup = .none
  pending : r.pending = false
  running : r.running = false
  shutdown : r.shutdown = .idle ∨ r.shutdown = .done

structure Once (s : PciemIrqfds) : Prop where
  listed : ∀ i, i ∈ s.items ↔ (s.irqfd i).Registered ∧ (s.irqfd i).queued = 0
  nodup : s.items.Nodup
  queued : ∀ i, (s.irqfd i).queued ≤ 1
  freed : ∀ i, (s.irqfd i).freed ≤ 1
  returned : s.phase = .returned → ∀ i < s.made, (s.irqfd i).freed = 1
  quiet : ∀ i, (s.irqfd i).freed ≠ 0 → i ∉ s.items ∧ (s.irqfd i).Quiet

section Irqfd

/-- What holds of an irqfd, by whether it is on the list. -/
structure Ok (listed : Prop) (phase : Phase) (r : PciemIrqfd) : Prop where
  listed : listed ↔ r.Registered ∧ r.shutdown = .idle
  queued : r.queued = if r.shutdown = .idle then 0 else 1
  freed : r.freed = if r.setting = .failed ∨ r.shutdown = .done then 1 else 0
  waiting : r.waiting = true ↔ r.Registered ∧ (r.shutdown = .idle ∨ r.shutdown = .queued)
  wakeup : r.wakeup ≠ .none → r.waiting = true
  hangup : ∀ epollin, r.wakeup = some (epollin, true) → r.setting = .returned
  shutdown : r.shutdown ≠ .idle → r.setting = .returned
  inject : r.pending = true ∨ r.running = true →
    r.Registered ∧ r.shutdown ≠ .flushed ∧ r.shutdown ≠ .done
  inCall : r.InCall → phase = .opened
  drained : phase = .returned → r.shutdown = .idle ∨ r.shutdown = .done

variable {listed : Prop} {phase : Phase} {r : PciemIrqfd}

theorem Ok.none (phase : Phase) : Ok False phase .none := by
  constructor <;> simp [PciemIrqfd.none, PciemIrqfd.Registered, PciemIrqfd.InCall]

theorem Ok.allocated (h : phase = .opened) :
    Ok False phase { PciemIrqfd.none with setting := .allocated } := by
  constructor <;> simp [PciemIrqfd.none, PciemIrqfd.Registered, h]

theorem Ok.fail (h : Ok listed phase r) (hsetting : r.setting = .allocated) :
    Ok listed phase { r.kfree with setting := .failed } := by
  cases h
  constructor <;> grind [PciemIrqfd.kfree, PciemIrqfd.Registered, PciemIrqfd.InCall]

theorem Ok.register (h : Ok listed phase r) (hsetting : r.setting = .allocated) :
    Ok True phase { r with setting := .registered, waiting := true } := by
  cases h
  constructor <;> grind [PciemIrqfd.Registered, PciemIrqfd.InCall]

theorem Ok.polled (h : Ok listed phase r) (hsetting : r.setting = .registered) (epollin : Bool) :
    Ok listed phase { r with setting := .returned, pending := r.pending || epollin } := by
  cases h
  constructor <;> grind [PciemIrqfd.Registered, PciemIrqfd.InCall]

theorem Ok.wake (h : Ok listed phase r) (hwaiting : r.waiting = true) {epollin epollhup : Bool}
    (hhup : epollhup = true → ¬ r.InCall) :
    Ok listed phase { r with wakeup := some (epollin, epollhup) } := by
  cases h
  constructor <;> grind [PciemIrqfd.Registered, PciemIrqfd.InCall]

theorem Ok.wakeup_step (h : Ok listed phase r) (wakeup : Option (Bool × Bool))
    {epollin epollhup : Bool} (hold : r.wakeup = some (epollin, epollhup))
    (hnew : ∀ epollin', wakeup = some (epollin', true) → epollhup = true) :
    Ok listed phase { r with wakeup := wakeup } := by
  cases h
  constructor <;> grind [PciemIrqfd.Registered, PciemIrqfd.InCall]

/-- A callback runs only before the irqfd is out of the wait queue. -/
theorem Ok.scheduleInject (h : Ok listed phase r) (hwaiting : r.waiting = true) :
    Ok listed phase r.scheduleInject := by
  cases h
  constructor <;> grind [PciemIrqfd.scheduleInject, PciemIrqfd.Registered, PciemIrqfd.InCall]

theorem Ok.queueShutdown (h : Ok listed phase r) (hmem : listed) (hsetting : r.setting = .returned)
    (hphase : phase ≠ .returned) : Ok False phase r.queueShutdown := by
  cases h
  constructor <;> grind [PciemIrqfd.queueShutdown, PciemIrqfd.Registered, PciemIrqfd.InCall]

theorem Ok.inject_step (h : Ok listed phase r) {pending running : Bool}
    (hwork : pending = true ∨ running = true → r.pending = true ∨ r.running = true) :
    Ok listed phase { r with pending := pending, running := running } := by
  cases h
  constructor <;> grind [PciemIrqfd.Registered, PciemIrqfd.InCall]

theorem Ok.shutdownWork (h : Ok listed phase r) : Ok listed phase r.pciemIrqfdShutdownWork := by
  cases h
  rw [PciemIrqfd.pciemIrqfdShutdownWork]
  split
  · split_ifs
    · constructor <;> grind [PciemIrqfd.Registered, PciemIrqfd.InCall]
    · constructor <;> assumption
  · split_ifs
    · constructor <;> grind [PciemIrqfd.Registered, PciemIrqfd.InCall]
    · constructor <;> assumption
  · constructor <;> grind [PciemIrqfd.kfree, PciemIrqfd.Registered, PciemIrqfd.InCall]
  · constructor <;> assumption

theorem setting_shutdownWork (r : PciemIrqfd) :
    r.pciemIrqfdShutdownWork.setting = r.setting := by
  rw [PciemIrqfd.pciemIrqfdShutdownWork]
  split
  · split_ifs <;> rfl
  · split_ifs <;> rfl
  · rfl
  · rfl

theorem Ok.setPhase (h : Ok listed phase r) {phase' : Phase} (hcall : ¬ r.InCall)
    (hdrained : phase' = .returned → r.shutdown = .idle ∨ r.shutdown = .done) :
    Ok listed phase' r :=
  ⟨h.listed, h.queued, h.freed, h.waiting, h.wakeup, h.hangup, h.shutdown, h.inject,
    fun hno ↦ absurd hno hcall, hdrained⟩

theorem Ok.retired (h : Ok listed phase r) (hlisted : ¬ listed) (hmade : r.setting ≠ .none)
    (hcall : ¬ r.InCall) (hdrained : r.shutdown = .idle ∨ r.shutdown = .done) :
    r.setting = .failed ∨ r.shutdown = .done := by
  cases h
  cases hsetting : r.setting <;> grind [PciemIrqfd.Registered, PciemIrqfd.InCall]

theorem Ok.quiet (h : Ok listed phase r) (hfreed : r.freed ≠ 0) : ¬ listed ∧ r.Quiet := by
  cases h
  refine ⟨?_, ?_⟩
  · grind [PciemIrqfd.Registered]
  · constructor <;> grind [PciemIrqfd.Registered]

end Irqfd

section Step

structure Inv (s : PciemIrqfds) : Prop where
  nodup : s.items.Nodup
  ok : ∀ i, Ok (i ∈ s.items) s.phase (s.irqfd i)
  drained : s.phase ≠ .opened → s.items = []
  fresh : ∀ i, s.made ≤ i ↔ (s.irqfd i).setting = .none

variable {s : PciemIrqfds} {i : ℕ} {r : PciemIrqfd}

theorem Inv.init : Inv PciemIrqfds.init where
  nodup := List.nodup_nil
  ok i := by simpa [PciemIrqfds.init] using Ok.none .opened
  drained _ := rfl
  fresh i := ⟨fun _ ↦ rfl, fun _ ↦ Nat.zero_le i⟩

theorem Inv.lt_made (h : Inv s) (hsetting : (s.irqfd i).setting ≠ .none) : i < s.made := by
  by_contra hno
  exact hsetting ((h.fresh i).mp (Nat.le_of_not_lt hno))

theorem irqfd_set_self (s : PciemIrqfds) (i : ℕ) (r : PciemIrqfd) : (s.set i r).irqfd i = r :=
  Function.update_self _ _ _

theorem irqfd_set_of_ne {j : ℕ} (hne : j ≠ i) : (s.set i r).irqfd j = s.irqfd j :=
  Function.update_of_ne hne _ _

theorem Inv.update (h : Inv s) {items : List ℕ} {made : ℕ} (hnodup : items.Nodup)
    (hother : ∀ j ≠ i, (j ∈ items ↔ j ∈ s.items)) (hdrained : s.phase ≠ .opened → items = [])
    (hok : Ok (i ∈ items) s.phase r) (hmade : ∀ j ≠ i, (made ≤ j ↔ s.made ≤ j))
    (hfresh : made ≤ i ↔ r.setting = .none) :
    Inv ({ s with items := items, made := made }.set i r) := by
  refine ⟨hnodup, fun j ↦ ?_, hdrained, fun j ↦ ?_⟩
  · by_cases heq : j = i
    · subst heq
      rw [irqfd_set_self]
      exact hok
    · rw [irqfd_set_of_ne heq]
      have hold : Ok (j ∈ items) s.phase (s.irqfd j) := by
        rw [hother j heq]
        exact h.ok j
      exact hold
  · by_cases heq : j = i
    · subst heq
      rw [irqfd_set_self]
      exact hfresh
    · rw [irqfd_set_of_ne heq]
      exact (hmade j heq).trans (h.fresh j)

theorem Inv.set (h : Inv s) (hok : Ok (i ∈ s.items) s.phase r)
    (hfresh : (s.irqfd i).setting = .none ↔ r.setting = .none) : Inv (s.set i r) :=
  h.update h.nodup (fun _ _ ↦ Iff.rfl) h.drained hok (fun _ _ ↦ Iff.rfl) ((h.fresh i).trans hfresh)

/-- The irqfd is retired if it is on the list, where its call of SET_IRQFD is over. -/
theorem Inv.pciemIrqfdShutdown (h : Inv s)
    (hsetting : i ∈ s.items → (s.irqfd i).setting = .returned) :
    Inv (s.pciemIrqfdShutdown i) := by
  rw [PciemIrqfds.pciemIrqfdShutdown]
  split_ifs with hmem
  · have hopened : s.phase = .opened := by
      by_contra hno
      simp [h.drained hno] at hmem
    have hnot : i ∉ s.items.erase i := h.nodup.not_mem_erase
    refine h.update (h.nodup.erase i) (fun j hne ↦ List.mem_erase_of_ne hne)
      (fun hno ↦ absurd hopened hno) ?_ (fun _ _ ↦ Iff.rfl) (h.fresh i)
    have hok := (h.ok i).queueShutdown hmem (hsetting hmem) (by simp [hopened])
    simpa [hnot] using hok
  · exact h

theorem Inv.pciemIrqfdWakeup (h : Inv s) (i : ℕ) : Inv (s.pciemIrqfdWakeup i) := by
  have hok := h.ok i
  rw [PciemIrqfds.pciemIrqfdWakeup]
  split
  · rename_i hup hwakeup
    have hwaiting : (s.irqfd i).waiting = true := hok.wakeup (by simp [hwakeup])
    have hnew := (hok.wakeup_step (some (false, hup)) hwakeup (by simp)).scheduleInject hwaiting
    exact h.set hnew Iff.rfl
  · rename_i hwakeup
    have hsetting : (s.irqfd i).setting = .returned := hok.hangup false hwakeup
    have hmid := h.set (hok.wakeup_step (some (false, false)) hwakeup (by simp)) Iff.rfl
    refine hmid.pciemIrqfdShutdown fun _ ↦ ?_
    rw [irqfd_set_self]
    exact hsetting
  · rename_i hwakeup
    exact h.set (hok.wakeup_step none hwakeup (by simp)) Iff.rfl
  · exact h

theorem Inv.not_inCall (h : Inv s) (hcalls : ∀ i < s.made, ¬ (s.irqfd i).InCall) (i : ℕ) :
    ¬ (s.irqfd i).InCall := by
  by_cases hlt : i < s.made
  · exact hcalls i hlt
  · have hnone := (h.fresh i).mp (Nat.le_of_not_lt hlt)
    simp [PciemIrqfd.InCall, hnone]

theorem Inv.retire_all (h : Inv s) (hcalls : ∀ i, ¬ (s.irqfd i).InCall) {items : List ℕ}
    (hitems : s.items = items) :
    Inv (items.foldl PciemIrqfds.pciemIrqfdShutdown s) ∧
      (items.foldl PciemIrqfds.pciemIrqfdShutdown s).items = [] ∧
      (∀ i, ¬ ((items.foldl PciemIrqfds.pciemIrqfdShutdown s).irqfd i).InCall) := by
  induction items generalizing s with
  | nil => exact ⟨h, hitems, hcalls⟩
  | cons i items ih =>
    have hmem : i ∈ s.items := by
      rw [hitems]
      exact List.mem_cons_self
    have hsetting : (s.irqfd i).setting = .returned :=
      (((h.ok i).listed.mp hmem).1).resolve_left fun hno ↦ hcalls i (.inr hno)
    have hnext := h.pciemIrqfdShutdown fun _ ↦ hsetting
    refine ih hnext (fun j ↦ ?_) ?_
    · rw [PciemIrqfds.pciemIrqfdShutdown, if_pos hmem]
      by_cases heq : j = i
      · subst heq
        rw [irqfd_set_self]
        exact hcalls j
      · rw [irqfd_set_of_ne heq]
        exact hcalls j
    · rw [PciemIrqfds.pciemIrqfdShutdown, if_pos hmem]
      simp [PciemIrqfds.set, hitems]

theorem Inv.pciemIrqfdsShutdown (h : Inv s) (hcalls : ∀ i < s.made, ¬ (s.irqfd i).InCall) :
    Inv s.pciemIrqfdsShutdown := by
  obtain ⟨hinv, hitems, hnone⟩ := h.retire_all (h.not_inCall hcalls) rfl
  exact ⟨hinv.nodup, fun i ↦ (hinv.ok i).setPhase (hnone i) (fun hno ↦ by cases hno),
    fun _ ↦ hitems, hinv.fresh⟩

theorem Inv.destroyed (h : Inv s) (hphase : s.phase = .draining)
    (hdone : ∀ i < s.made, (s.irqfd i).shutdown = .idle ∨ (s.irqfd i).shutdown = .done) :
    Inv { s with phase := .returned } := by
  refine ⟨h.nodup, fun i ↦ (h.ok i).setPhase (fun hcall ↦ ?_) fun _ ↦ ?_,
    fun _ ↦ h.drained (by simp [hphase]), h.fresh⟩
  · have hopened := (h.ok i).inCall hcall
    simp [hphase] at hopened
  · by_contra hno
    have hreturned := (h.ok i).shutdown fun hidle ↦ hno (.inl hidle)
    exact hno (hdone i (h.lt_made (by simp [hreturned])))

theorem Inv.setIrqfd (h : Inv s) (hopened : s.phase = .opened) :
    Inv ({ s with made := s.made + 1 }.set s.made
      { PciemIrqfd.none with setting := .allocated }) := by
  have hnone : (s.irqfd s.made).setting = .none := (h.fresh s.made).mp (Nat.le_refl _)
  have hnot : s.made ∉ s.items := by
    intro hmem
    have hregistered := ((h.ok s.made).listed.mp hmem).1
    simp [PciemIrqfd.Registered, hnone] at hregistered
  refine h.update h.nodup (fun _ _ ↦ Iff.rfl) h.drained ?_ (fun j hne ↦ by omega) (by simp)
  simpa [hnot] using Ok.allocated hopened

theorem Inv.register (h : Inv s) (hsetting : (s.irqfd i).setting = .allocated) :
    Inv ({ s with items := s.items ++ [i] }.set i
      { s.irqfd i with setting := .registered, waiting := true }) := by
  have hopened : s.phase = .opened := (h.ok i).inCall (.inl hsetting)
  have hnot : i ∉ s.items := by
    intro hmem
    have hregistered := ((h.ok i).listed.mp hmem).1
    simp [PciemIrqfd.Registered, hsetting] at hregistered
  refine h.update ?_ (fun j hne ↦ by simp [hne]) (fun hno ↦ absurd hopened hno) ?_
    (fun _ _ ↦ Iff.rfl) ?_
  · exact List.nodup_append.mpr ⟨h.nodup, List.nodup_singleton i, fun j hj k hk ↦ fun heq ↦
      hnot (List.mem_singleton.mp hk ▸ heq ▸ hj)⟩
  · simpa using (h.ok i).register hsetting
  · rw [h.fresh i, hsetting]
    simp

theorem inv_step (s : PciemIrqfds) (a : Action) (h : Inv s) : Inv (step s a) := by
  cases a with
  | setIrqfd =>
    rw [step]
    split_ifs with hopened
    · exact h.setIrqfd hopened
    · exact h
  | fail i =>
    rw [step]
    split_ifs with hsetting
    · exact h.set ((h.ok i).fail hsetting) (by simp [hsetting])
    · exact h
  | register i =>
    rw [step]
    split_ifs with hsetting
    · exact h.register hsetting
    · exact h
  | polled i epollin =>
    rw [step]
    split_ifs with hsetting
    · exact h.set ((h.ok i).polled hsetting epollin) (by simp [hsetting])
    · exact h
  | wake i epollin epollhup =>
    rw [step]
    split_ifs with hok
    · exact h.set ((h.ok i).wake hok.1 hok.2.2) Iff.rfl
    · exact h
  | wakeup i => exact h.pciemIrqfdWakeup i
  | injectBegin i =>
    rw [step]
    split_ifs with hok
    · exact h.set ((h.ok i).inject_step fun _ ↦ .inl hok.1) Iff.rfl
    · exact h
  | injectEnd i =>
    exact h.set ((h.ok i).inject_step (Or.imp_right (fun hno ↦ by cases hno))) Iff.rfl
  | shutdownWork i =>
    refine h.set (h.ok i).shutdownWork ?_
    rw [setting_shutdownWork]
  | shutdown =>
    rw [step]
    split_ifs with hok
    · exact h.pciemIrqfdsShutdown hok.2
    · exact h
  | destroyed =>
    rw [step]
    split_ifs with hok
    · exact h.destroyed hok.1 hok.2
    · exact h

theorem Inv.once (h : Inv s) : Once s where
  listed i := by
    rw [(h.ok i).listed, (h.ok i).queued]
    simp
  nodup := h.nodup
  queued i := by
    rw [(h.ok i).queued]
    split_ifs <;> omega
  freed i := by
    rw [(h.ok i).freed]
    split_ifs <;> omega
  returned hreturned i hlt := by
    have hnot : i ∉ s.items := by
      rw [h.drained (by simp [hreturned])]
      exact List.not_mem_nil
    have hmade : (s.irqfd i).setting ≠ .none := fun hno ↦ Nat.not_le_of_lt hlt ((h.fresh i).mpr hno)
    have hcall : ¬ (s.irqfd i).InCall := fun hcall ↦ by
      have hopened := (h.ok i).inCall hcall
      simp [hreturned] at hopened
    rw [(h.ok i).freed]
    refine if_pos ((h.ok i).retired hnot hmade hcall ((h.ok i).drained hreturned))
  quiet i hfreed := (h.ok i).quiet hfreed

theorem always_once (actions : List Action) : Always step Once PciemIrqfds.init actions :=
  (always_of_kept inv_step Inv.init actions).mono fun _ hinv ↦ hinv.once

/-- A hang-up and the shutdown meet at an irqfd with work in its queue, while another one has failed
and a third has only been registered. -/
def hangup : List Action :=
  [.setIrqfd, .register 0, .polled 0 true, .setIrqfd, .fail 1, .setIrqfd, .register 2,
    .polled 2 false, .wake 0 true true, .wakeup 0, .wakeup 0, .shutdown, .wakeup 0,
    .shutdownWork 0, .shutdownWork 0, .injectBegin 0, .injectEnd 0, .shutdownWork 0,
    .shutdownWork 0, .shutdownWork 2, .shutdownWork 2, .shutdownWork 2, .destroyed]

theorem always_once_hangup :
    (hangup.foldl step .init).phase = .returned ∧ (hangup.foldl step .init).made = 3 ∧
    (hangup.foldl step .init).items = [] ∧
    ∀ i < 3, ((hangup.foldl step .init).irqfd i).freed = 1 := by
  have hreturned : (hangup.foldl step .init).phase = .returned := by decide
  have hmade : (hangup.foldl step .init).made = 3 := by decide
  have honce := (always_once hangup).last
  refine ⟨hreturned, hmade, by decide, fun i hi ↦ honce.returned hreturned i ?_⟩
  rwa [hmade]

end Step

end Pciem.Irq.Retire
