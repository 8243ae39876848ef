import Pciem.Attach.Hijack
import Pciem.Library.Replay

namespace Pciem.Attach.Restore

open Kernel Library.Loop Library.Replay Hijack

variable {δ : Type*}

inductive Action (δ : Type*)
  | attach (v : δ) (found : Found)
  | detach (v : δ)

def Attached (host : HostBus δ) (v : δ) : Prop := (host.rc v).rootBus = true

instance (host : HostBus δ) (v : δ) : Decidable (Attached host v) :=
  inferInstanceAs (Decidable (_ = _))

/-- The ops of the bus are in memory that is still there, every attached device answers in its
slot, and the hardware has its bus back when no device is attached. -/
structure Safe (host : HostBus δ) : Prop where
  owned : host.ops = .hardware ∨ ∃ v, Attached host v ∧ host.ops = .proxy v
  reachable : ∀ v, Attached host v → ∀ devfn,
    pciSlot devfn = (host.rc v).hijack.hijackedSlot → Served host v devfn
  restored : (∀ v, ¬ Attached host v) → host.ops = .hardware

/-- A device becomes attached only where no other one is; one that gets no slot has saved no
ops but the present ones; one that is detached has saved those of the hardware. -/
def Allowed (host : HostBus δ) : Action δ → Prop
  | .attach v found =>
    if found.bus = true ∧ found.slot.isSome then
      found.scan = true → ∀ w, Attached host w → w = v
    else
      ∀ ops, (host.rc v).hijack.originalOps = some ops → ops = host.ops
  | .detach v => Attached host v → (host.rc v).hijack.originalOps = some .hardware

/-- No device is attached, or one whose ops the bus has. -/
def Exclusive (host : HostBus δ) : Prop :=
  (∀ v, ¬ Attached host v) ∧ host.ops = .hardware ∨
    ∃ v, (∀ w, Attached host w ↔ w = v) ∧ host.ops = .proxy v

/-- An attached device is its own function 0. -/
def WellFormed (host : HostBus δ) : Prop :=
  ∀ v, Attached host v → (host.rc v).siblingFuncs 0 = some v

section Safe

variable {host : HostBus δ} {v w : δ}

theorem pciSlot_slot (slot : Slot) : pciSlot (8 * slot.val) = slot := by
  apply Fin.ext
  rw [pciSlot, Nat.mul_div_cancel_left _ (by decide)]
  exact Nat.mod_eq_of_lt slot.isLt

theorem pciFunc_slot (slot : Slot) : pciFunc (8 * slot.val) = 0 := Nat.mul_mod_right 8 _

theorem deviceAnswer_function (hw : WellFormed host) (hv : Attached host v) (slot : Slot)
    (absent : Option (BitVec 32)) :
    deviceAnswer absent host v (8 * slot.val) = .function v := by
  rw [deviceAnswer, pciFunc_slot, hw v hv]
  rfl

theorem Safe.reaches_function (h : Safe host) (hw : WellFormed host) (hv : Attached host v) :
    Reaches proxyReadConfig host (8 * ((host.rc v).hijack.hijackedSlot).val) (.function v) := by
  have hserved := (h.reachable v hv _ (pciSlot_slot _)).1
  rwa [deviceAnswer_function hw hv] at hserved

theorem Safe.unique (h : Safe host) (hw : WellFormed host) (hops : host.ops = .proxy v)
    (hv : Attached host v) (hother : Attached host w) : w = v := by
  have hreach := h.reaches_function hw hother
  by_cases hslot : pciSlot (8 * ((host.rc w).hijack.hijackedSlot).val) =
      (host.rc v).hijack.hijackedSlot
  · have hanswer := (reaches_own_iff hops hslot).mp hreach
    rw [deviceAnswer_function hw hv] at hanswer
    exact Answer.function.inj hanswer
  · cases horiginal : (host.rc v).hijack.originalOps with
    | none =>
      obtain ⟨n, hn⟩ := hreach
      have hstep : callOps proxyReadConfig host
          (8 * ((host.rc w).hijack.hijackedSlot).val) host.ops = .inr .wild := by
        rw [hops]
        change proxyConfig _ _ _ = _
        rw [proxyConfig, hops]
        dsimp only
        rw [if_pos hslot, horiginal]
      cases n with
      | zero => cases hn
      | succ n => exact absurd ((run_of_inr hstep n).symm.trans hn) (by simp)
    | some ops =>
      cases ops with
      | hardware =>
        exact absurd ((reaches_of_original_hardware hops hslot horiginal).mp hreach) (by simp)
      | proxy inner =>
        exact absurd hreach.terminates (not_terminates_of_original_proxy hops hslot horiginal)

theorem safe_iff_exclusive (hw : WellFormed host) : Safe host ↔ Exclusive host := by
  constructor
  · intro h
    rcases h.owned with hops | ⟨v, hv, hops⟩
    · refine .inl ⟨fun v hv ↦ ?_, hops⟩
      exact absurd (eq_hardware_of_reaches hops (h.reaches_function hw hv)) nofun
    · refine .inr ⟨v, fun w ↦ ⟨h.unique hw hops hv, ?_⟩, hops⟩
      rintro rfl
      exact hv
  · rintro (⟨hnone, hops⟩ | ⟨v, hattached, hops⟩)
    · exact ⟨.inl hops, fun v hv ↦ absurd hv (hnone v), fun _ ↦ hops⟩
    · have hv := (hattached v).mpr rfl
      refine ⟨.inr ⟨v, hv, hops⟩, fun w hother devfn hslot ↦ ?_, fun hnone ↦ absurd hv (hnone v)⟩
      obtain rfl := (hattached w).mp hother
      exact ⟨(reaches_own_iff hops hslot).mpr rfl, (reaches_own_iff hops hslot).mpr rfl⟩

end Safe

section Exclusive

variable {host host' : HostBus δ}

theorem exclusive_congr (hops : host'.ops = host.ops)
    (hattached : ∀ w, Attached host' w ↔ Attached host w) :
    Exclusive host' ↔ Exclusive host := by
  rw [Exclusive, Exclusive, hops]
  simp only [hattached]

/-- The devices that are attached determine the ops of the bus. -/
theorem exclusive_ops_iff (h : Exclusive host) (ops : PciOps δ) :
    Exclusive { host with ops } ↔ ops = host.ops := by
  constructor
  · rintro (⟨hnone, hops⟩ | ⟨v, hattached, hops⟩)
    · rcases h with ⟨-, hops'⟩ | ⟨w, hattached', -⟩
      · exact hops.trans hops'.symm
      · exact absurd ((hattached' w).mpr rfl) (hnone w)
    · rcases h with ⟨hnone, -⟩ | ⟨w, hattached', hops'⟩
      · exact absurd ((hattached v).mpr rfl) (hnone v)
      · obtain rfl := (hattached' v).mp ((hattached v).mpr rfl)
        exact hops.trans hops'.symm
  · rintro rfl
    exact h

theorem restore_exclusive_iff {v : δ} (h : Exclusive host) : Exclusive (restore host v) ↔
    ∀ ops, (host.rc v).hijack.originalOps = some ops → ops = host.ops := by
  rw [restore_eq]
  refine (exclusive_ops_iff h _).trans ?_
  cases (host.rc v).hijack.originalOps with
  | none => exact iff_of_true rfl nofun
  | some ops =>
    constructor
    · rintro hops _ ⟨⟩
      exact hops
    · exact fun hall ↦ hall ops rfl

end Exclusive

variable [DecidableEq δ]

def step (host : HostBus δ) : Action δ → HostBus δ
  | .attach v found => attach host v found
  | .detach v => detach host v

section Step

variable {host : HostBus δ} {v w : δ} {rc : PciemRootComplex δ} {ops : PciOps δ}

theorem attached_update : Attached ⟨ops, Function.update host.rc v rc⟩ w ↔
    (w = v ∧ rc.rootBus = true) ∨ (w ≠ v ∧ Attached host w) := by
  by_cases hw : w = v
  · subst hw
    simp [Attached]
  · simp [Attached, hw]

theorem attached_update_same (h : rc.rootBus = (host.rc v).rootBus) (w : δ) :
    Attached ⟨ops, Function.update host.rc v rc⟩ w ↔ Attached host w := by
  rw [attached_update]
  by_cases hw : w = v
  · subst hw
    simp [Attached, h]
  · simp [hw]

theorem exclusive_update_same (h : Exclusive host) (hrc : rc.rootBus = (host.rc v).rootBus) :
    Exclusive ⟨host.ops, Function.update host.rc v rc⟩ := by
  have hiff : Exclusive ⟨host.ops, Function.update host.rc v rc⟩ ↔ Exclusive host :=
    exclusive_congr rfl (attached_update_same hrc)
  exact hiff.mpr h

theorem attach_success_exclusive_iff (slot : Slot) :
    Exclusive (attach host v ⟨true, some slot, true⟩) ↔ ∀ w, Attached host w → w = v := by
  rw [attach_success]
  constructor
  · rintro (⟨-, hops⟩ | ⟨u, hattached, hops⟩) w hother
    · cases hops
    · obtain rfl : v = u := PciOps.proxy.inj hops
      by_contra hne
      exact hne ((hattached w).mp (attached_update.mpr (.inr ⟨hne, hother⟩)))
  · intro hothers
    refine .inr ⟨v, fun w ↦ ⟨fun hw ↦ ?_, fun hw ↦ attached_update.mpr (.inl ⟨hw, rfl⟩)⟩, rfl⟩
    rcases attached_update.mp hw with ⟨hw, -⟩ | ⟨-, hw⟩
    · exact hw
    · exact hothers w hw

theorem attach_exclusive_iff (h : Exclusive host) (found : Found) :
    Exclusive (attach host v found) ↔ Allowed host (.attach v found) := by
  rw [Allowed]
  by_cases hfound : found.bus = true ∧ found.slot.isSome
  · rw [if_pos hfound]
    obtain ⟨bus, slot, scan⟩ := found
    obtain ⟨rfl, hslot⟩ := hfound
    obtain ⟨slot, rfl⟩ := Option.isSome_iff_exists.mp hslot
    cases scan with
    | false =>
      rw [attach_scan_failed]
      exact iff_of_true (exclusive_update_same h rfl) nofun
    | true =>
      rw [attach_success_exclusive_iff]
      exact ⟨fun hothers _ ↦ hothers, fun hothers ↦ hothers rfl⟩
  · rw [if_neg hfound, attach_not_found host v hfound]
    exact restore_exclusive_iff h

/-- When the one device that is attached goes, its saved ops have to be the hardware's. -/
theorem detach_exclusive_iff (h : Exclusive host) :
    Exclusive (detach host v) ↔ Allowed host (.detach v) := by
  rw [Allowed]
  by_cases hv : Attached host v
  · rw [detach_attached hv]
    rcases h with ⟨hnone, -⟩ | ⟨u, hattached, hops⟩
    · exact absurd hv (hnone v)
    · have hgone (ops : PciOps δ) (w : δ) :
          ¬ Attached ⟨ops, Function.update host.rc v blank⟩ w := by
        rw [attached_update]
        rintro (⟨-, hblank⟩ | ⟨hne, hother⟩)
        · cases hblank
        · exact hne (((hattached w).mp hother).trans ((hattached v).mp hv).symm)
      have hiff (ops : PciOps δ) :
          Exclusive ⟨ops, Function.update host.rc v blank⟩ ↔ ops = .hardware := by
        constructor
        · rintro (⟨-, hhardware⟩ | ⟨w, hattached', -⟩)
          · exact hhardware
          · exact absurd ((hattached' w).mpr rfl) (hgone ops w)
        · exact fun hhardware ↦ .inl ⟨hgone ops, hhardware⟩
      refine (hiff _).trans ?_
      cases (host.rc v).hijack.originalOps with
      | none => simp [hops, hv]
      | some ops => simp [hv]
  · rw [detach_of_not hv]
    refine iff_of_true (exclusive_update_same h ?_) fun hv' ↦ absurd hv' hv
    exact (Bool.not_eq_true _ ▸ hv : (host.rc v).rootBus = false).symm

theorem WellFormed.update (h : WellFormed host)
    (hrc : rc.rootBus = true → rc.siblingFuncs 0 = some v) :
    WellFormed ⟨ops, Function.update host.rc v rc⟩ := by
  intro w hw
  dsimp only
  rcases attached_update.mp hw with ⟨rfl, hroot⟩ | ⟨hne, hother⟩
  · rw [Function.update_self]
    exact hrc hroot
  · rw [Function.update_of_ne hne]
    exact h w hother

theorem WellFormed.step (h : WellFormed host) (a : Action δ) : WellFormed (step host a) := by
  cases a with
  | attach v found =>
    change WellFormed (attach host v found)
    by_cases hfound : found.bus = true ∧ found.slot.isSome
    · obtain ⟨bus, slot, scan⟩ := found
      obtain ⟨rfl, hslot⟩ := hfound
      obtain ⟨slot, rfl⟩ := Option.isSome_iff_exists.mp hslot
      cases scan with
      | false =>
        rw [attach_scan_failed]
        exact h.update fun _ ↦ siblingFuncs_hijackedRc host v slot _
      | true =>
        rw [attach_success]
        exact h.update fun _ ↦ siblingFuncs_hijackedRc host v slot _
    · rw [attach_not_found host v hfound, restore_eq]
      exact h
  | detach v =>
    change WellFormed (detach host v)
    by_cases hv : (host.rc v).rootBus = true
    · rw [detach_attached hv]
      exact h.update nofun
    · rw [detach_of_not hv]
      exact h.update nofun

end Step

/-- The bus stays as it should be through every step of a sequence of attaches and detaches
exactly when each of them is allowed where it is taken. -/
theorem attach_restore_iff (as : List (Action δ)) :
    Always step Safe pristine as ↔ Each step Allowed pristine as := by
  refine always_iff_each (I := WellFormed) (Q := fun _ ↦ True) ?_ ?_ (fun _ _ ↦ trivial) ?_ ?_
  · exact fun host a _ hw ↦ hw.step a
  · intro host a _ hw hsafe
    have hexclusive := (safe_iff_exclusive hw).mp hsafe
    refine (safe_iff_exclusive (hw.step a)).trans ?_
    cases a with
    | attach v found => exact attach_exclusive_iff hexclusive found
    | detach v => exact detach_exclusive_iff hexclusive
  · exact fun v hv ↦ nomatch hv
  · exact ⟨.inl rfl, fun v hv ↦ (nomatch hv), fun _ ↦ rfl⟩

/-- The device attached first is detached first. -/
def firstOutFirst : List (Action ℕ) :=
  [.attach 0 ⟨true, some 1, true⟩, .attach 1 ⟨true, some 2, true⟩, .detach 0, .detach 1]

/-- After the last detach, the bus is left with the ops of a root complex that was freed. -/
theorem detach_out_of_order_leaves_proxy :
    ¬ ∀ as : List (Action ℕ), Always step Safe pristine as := by
  intro h
  have hsafe := (h firstOutFirst).2.2.2.2
  rcases hsafe.owned with hops | ⟨v, hv, hops⟩
  · exact absurd hops (by decide)
  · obtain rfl : 0 = v := PciOps.proxy.inj hops
    exact absurd hv (by decide)

end Pciem.Attach.Restore
