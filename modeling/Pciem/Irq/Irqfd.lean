import Pciem.Irq.Msi
import Pciem.Slot.Atomic

namespace Pciem.Irq.Irqfd

open Kernel Library.Replay Msi Slot.Ioctl Slot.Register Slot.Bars Slot.Invariant Slot.Solitary
  Slot.MultiFunction Slot.Atomic
open Slot.State hiding PciDev

variable {δ : Type}

structure PciemIrqfd where
  vector : BitVec 32
  func : BitVec 8

/-- The state of an fd with its irqfds. `core` is what the PCI core has to say about each of its
devices, and `inject` tells which `inject_work` is queued. -/
structure Machine (δ : Type) where
  us : PciemUserspaceState δ
  core : Slot.State.PciDev → Msi.PciDev
  pendingMsiIrq : ℕ → ℤ
  msiIrqWork : ℕ → Bool
  irqfds : ℕ → Option PciemIrqfd
  inject : ℕ → Bool
  bug : Bool

/-- `core` is a change that the PCI core or a driver makes to the devices, `readable` what
`vfs_poll` says of the eventfd, and `hangup` a shutdown of the irqfd that has run. -/
inductive Action (δ : Type)
  | ioctl (c : Command δ)
  | setIrqfd (i : ℕ) (argCopied : Bool) (irqfd : Option PciemIrqfd) (readable : Bool)
  | write (i : ℕ)
  | work (i : ℕ)
  | hangup (i : ℕ)
  | core (core : Slot.State.PciDev → Msi.PciDev)

/-- The interrupts of a function. -/
def Machine.msi (m : Machine δ) (func : ℕ) (v : RootComplex δ) : MsiState :=
  ⟨v.pciemPdev.map m.core, m.pendingMsiIrq func, m.msiIrqWork func⟩

/-- `pciem_ioctl_set_irqfd`; there is no irqfd where there is no memory, or no such eventfd. -/
def pciemIoctlSetIrqfd (m : Machine δ) (i : ℕ) (argCopied : Bool) (irqfd : Option PciemIrqfd)
    (readable : Bool) : Machine δ :=
  match pciemCheckRegistered m.us, irqfd with
  | .ok (), some irqfd =>
    if argCopied = false ∨ (m.irqfds i).isSome then
      m
    else
      { m with
        irqfds := Function.update m.irqfds i (some irqfd)
        inject := Function.update m.inject i readable }
  | _, _ => m

/-- An error of `pciem_trigger_msi` leads to `BUG`. -/
def pciemIrqfdWork (m : Machine δ) (irqfd : PciemIrqfd) : Machine δ :=
  match usGetRc m.us irqfd.func.toNat with
  | none => m
  | some v =>
    match pciemTriggerMsi (m.msi irqfd.func.toNat v) irqfd.vector.toInt with
    | .error _ => { m with bug := true }
    | .ok msi =>
      { m with
        pendingMsiIrq := Function.update m.pendingMsiIrq irqfd.func.toNat msi.pendingMsiIrq
        msiIrqWork := Function.update m.msiIrqWork irqfd.func.toNat msi.msiIrqWork }

/-- An `inject_work` that is queued runs once. -/
def runWork (m : Machine δ) (i : ℕ) : Machine δ :=
  match m.irqfds i with
  | none => m
  | some irqfd =>
    if m.inject i then pciemIrqfdWork { m with inject := Function.update m.inject i false } irqfd
    else m

def step (m : Machine δ) : Action δ → Machine δ
  | .ioctl c => { m with us := Slot.Ioctl.step m.us c }
  | .setIrqfd i argCopied irqfd readable => pciemIoctlSetIrqfd m i argCopied irqfd readable
  | .write i =>
    if (m.irqfds i).isSome then { m with inject := Function.update m.inject i true } else m
  | .work i => runWork m i
  | .hangup i =>
    if m.inject i then m else { m with irqfds := Function.update m.irqfds i none }
  | .core core => { m with core }

/-- A newly opened fd. -/
def opened (ops : Attach.Hijack.PciOps δ) (hostDevices : ℕ → Bool) (pool : PciemMempool)
    (core : Slot.State.PciDev → Msi.PciDev) : Machine δ :=
  ⟨Slot.Ioctl.opened ops hostDevices pool, core, fun _ ↦ 0, fun _ ↦ false, fun _ ↦ none,
    fun _ ↦ false, false⟩

/-- The interrupt of the vector: that of MSI-X where it is enabled, for vector 0 where there is
no such vector, or else that of the device. -/
def interrupt (dev : Msi.PciDev) (vector : ℤ) : ℤ :=
  if dev.msixEnabled then
    dev.irqVector (if vector < 0 ∨ vector ≥ dev.msixVecCount then 0 else vector)
  else
    dev.irq

/-- The function of an irqfd whose work runs has its device, and the device an interrupt for the
vector. -/
def Ready (m : Machine δ) : Action δ → Prop
  | .work i => ∀ irqfd, m.irqfds i = some irqfd → m.inject i = true →
    ∀ v, usGetRc m.us irqfd.func.toNat = some v →
      ∃ dev, v.pciemPdev = some dev ∧ 0 < interrupt (m.core dev) irqfd.vector.toInt
  | _ => True

def NoBug (m : Machine δ) : Prop := m.bug = false

section Bug

variable {m : Machine δ}

theorem triggerMsi_ok_iff (s : MsiState) (vector : ℤ) : (∃ s', pciemTriggerMsi s vector = .ok s') ↔
    ∃ dev, s.pciemPdev = some dev ∧ 0 < interrupt dev vector := by
  cases hdev : s.pciemPdev with
  | none => simp [pciemTriggerMsi, hdev]
  | some dev =>
    have htrigger : pciemTriggerMsi s vector = if interrupt dev vector ≤ 0 then .error .einval
        else .ok (irqWorkQueue { s with pendingMsiIrq := interrupt dev vector }) := by
      rw [pciemTriggerMsi, hdev]
      rfl
    rw [htrigger]
    split_ifs with hirq
    · simp [hirq]
    · simpa using hirq

theorem noBug_irqfdWork (hm : NoBug m) (irqfd : PciemIrqfd) : NoBug (pciemIrqfdWork m irqfd) ↔
    ∀ v, usGetRc m.us irqfd.func.toNat = some v →
      ∃ dev, v.pciemPdev = some dev ∧ 0 < interrupt (m.core dev) irqfd.vector.toInt := by
  rw [NoBug] at hm ⊢
  rw [pciemIrqfdWork]
  cases hv : usGetRc m.us irqfd.func.toNat with
  | none => simp [hm]
  | some v =>
    have hiff := triggerMsi_ok_iff (m.msi irqfd.func.toNat v) irqfd.vector.toInt
    simp only [Machine.msi, Option.map_eq_some_iff] at hiff
    dsimp only
    cases htrigger : pciemTriggerMsi (m.msi irqfd.func.toNat v) irqfd.vector.toInt with
    | error e =>
      simp only [Machine.msi] at htrigger
      simp [htrigger] at hiff
      simpa using hiff
    | ok msi =>
      simp only [Machine.msi] at htrigger
      simp [htrigger] at hiff
      simpa [hm] using hiff

theorem noBug_step (hm : NoBug m) (a : Action δ) : NoBug (step m a) ↔ Ready m a := by
  cases a with
  | ioctl c => exact iff_of_true hm trivial
  | core core => exact iff_of_true hm trivial
  | setIrqfd i argCopied irqfd readable =>
    refine iff_of_true ?_ trivial
    unfold step pciemIoctlSetIrqfd
    dsimp only
    split
    · split_ifs
      · exact hm
      · exact hm
    · exact hm
  | write i =>
    refine iff_of_true ?_ trivial
    rw [step]
    split_ifs
    · exact hm
    · exact hm
  | hangup i =>
    refine iff_of_true ?_ trivial
    rw [step]
    split_ifs
    · exact hm
    · exact hm
  | work i =>
    rw [step, runWork, Ready]
    cases hirqfd : m.irqfds i with
    | none => simpa using hm
    | some irqfd =>
      have hwork := noBug_irqfdWork (m := { m with inject := Function.update m.inject i false }) hm
        irqfd
      dsimp only at hwork ⊢
      split_ifs with hinject
      · rw [hwork]
        simp [hinject]
      · simpa [hinject] using hm

end Bug

/-- No work of an irqfd runs into `BUG` just when each one that runs finds its function ready. -/
theorem no_bug_iff_ready (ops : Attach.Hijack.PciOps δ) (hostDevices : ℕ → Bool)
    (pool : PciemMempool) (core : Slot.State.PciDev → Msi.PciDev) (as : List (Action δ)) :
    Always step NoBug (opened ops hostDevices pool core) as ↔
      Each step Ready (opened ops hostDevices pool core) as :=
  always_iff_each_of_lost (I := NoBug) (fun _ hm ↦ hm)
    (fun _ a hm hready ↦ (noBug_step hm a).mpr hready)
    (fun _ a hm hno hbug ↦ hno ((noBug_step hm a).mp hbug)) rfl

section Unbound

/-- Devices that no driver has been bound to. -/
def unbound (_ : Slot.State.PciDev) : Msi.PciDev := ⟨false, 0, fun _ ↦ 0, 0⟩

theorem foldl_ioctl (m : Machine δ) (cs : List (Command δ)) :
    (cs.map Action.ioctl).foldl step m = { m with us := cs.foldl Slot.Ioctl.step m.us } := by
  induction cs generalizing m with
  | nil => rfl
  | cons c cs ih => rw [List.map_cons, List.foldl_cons, ih, List.foldl_cons, step]

/-- An irqfd for function 0 is set, and its eventfd written. -/
def fire : List (Action δ) := [.setIrqfd 0 true (some ⟨0, 0⟩) false, .write 0, .work 0]

theorem bug_of_fire {m : Machine δ} (hbug : NoBug m)
    (hregistered : pciemCheckRegistered m.us = .ok ()) (hnone : m.irqfds 0 = none)
    (hcore : m.core = unbound) : ¬ NoBug (fire.foldl step m) := by
  have hset : step m (.setIrqfd 0 true (some ⟨0, 0⟩) false) = { m with
      irqfds := Function.update m.irqfds 0 (some ⟨0, 0⟩)
      inject := Function.update m.inject 0 false } := by
    simp [step, pciemIoctlSetIrqfd, hregistered, hnone]
  have hfunc : ∃ v, usGetRc m.us 0 = some v := by
    rw [pciemCheckRegistered] at hregistered
    split_ifs at hregistered with h0
    rw [Bool.not_eq_true, Option.isNone_eq_false_iff, Option.isSome_iff_exists] at h0
    exact h0
  obtain ⟨v, hv⟩ := hfunc
  intro hlast
  rw [fire, List.foldl_cons, List.foldl_cons, List.foldl_cons, List.foldl_nil, hset] at hlast
  have hready := (noBug_step (by exact hbug) (.work 0)).mp hlast
  obtain ⟨dev, -, hpos⟩ := hready ⟨0, 0⟩ rfl rfl v hv
  simp [step, hcore, unbound, interrupt] at hpos

/-- Function 0 is created and registered. -/
def registerOne : List (Command ℕ) := createOne ++ [.register (fun _ ↦ succeeding) (.ok ())]

theorem carved_built (us : PciemUserspaceState δ) {v : RootComplex δ} (h : Carved v.placed) :
    Carved (built us v).2.placed := by
  obtain ⟨hbars, hplaces⟩ := bars_buildFunction us.slot.numFuncs 0 v.placed
  intro i hi hexp
  change ((buildFunction us.slot.numFuncs 0 v.placed).places i).carvedStart ≠ 0
  rw [hplaces]
  exact h i hi (((Rewritten.of_bars_eq hbars).exposed_iff i).mp hexp)

theorem step_register (us : PciemUserspaceState δ) (svs : ℕ → Services) (fd : Except Errno Unit) :
    Slot.Ioctl.step us (.register svs fd) = (pciemIoctlRegister svs fd us).2 := rfl

theorem checkRegistered_register :
    pciemCheckRegistered (pciemIoctlRegister (fun _ ↦ succeeding) (.ok ()) oneBar).2 = .ok () := by
  obtain ⟨v, hlone, -, -⟩ := lone_oneBar
  have hcarved : Carved ((oneBar.slot.funcs 0).get rfl).placed := by decide
  have hv : (oneBar.slot.funcs 0).get rfl = v := Option.get_of_eq_some _ hlone.1
  have hinit := (completeInit_ok_iff allSucceed_succeeding).mpr
    (carved_built oneBar (hv ▸ hcarved))
  have hreg : (pciemIoctlRegister (fun _ ↦ succeeding) (.ok ()) oneBar).2.registered =
      .registered := register_of_init_ok rfl hlone hinit
  have hwf := wellFormed_of_reachable reachable_oneBar
  have hsome := (keeps_register (fun _ ↦ succeeding) (.ok ()) oneBar hwf).isSome 0
  rw [hlone.1] at hsome
  generalize (pciemIoctlRegister (fun _ ↦ succeeding) (.ok ()) oneBar).2 = us at hreg hsome ⊢
  rw [pciemCheckRegistered, if_neg (by simpa [Option.isSome_iff_ne_none] using hsome), hreg]

theorem bug_before_a_driver_is_bound : ¬ Always step NoBug
    (opened .hardware (fun _ ↦ false) ⟨12, 0x1000, 0x1000, fun _ ↦ false⟩ unbound)
    (registerOne.map .ioctl ++ fire) := by
  intro halways
  have hlast := halways.last
  have hregistered := checkRegistered_register
  rw [List.foldl_append, foldl_ioctl, registerOne, List.foldl_append, List.foldl_cons,
    List.foldl_nil, step_register] at hlast
  change NoBug (fire.foldl step { opened _ _ _ _ with
    us := (pciemIoctlRegister _ _ oneBar).2 }) at hlast
  generalize (pciemIoctlRegister (fun _ ↦ succeeding) (.ok ()) oneBar).2 = us at hlast hregistered
  refine bug_of_fire ?_ ?_ ?_ ?_ hlast
  · rfl
  · exact hregistered
  · rfl
  · rfl

end Unbound

end Pciem.Irq.Irqfd
