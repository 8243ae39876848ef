import Pciem.Slot.Exclusion
import Pciem.Slot.MultiFunction

namespace Pciem.Slot.Freeze

open Kernel Library.Unwinding Library.Interleaving Library.Replay Bar.Table Register Ioctl
  Concurrent Exclusion
open State hiding PciemRootComplex
open Attach.Hijack (PciOps)
open Device.Setup (Call PciemConfigSpace)

variable {ι δ : Type} [DecidableEq ι] {s : Fd ι δ} {a : Turn ι (Command δ)} {i : ι}
  {us : PciemUserspaceState δ}

/-- The BAR table, the capabilities and the config bytes of every function. -/
def tables (us : PciemUserspaceState δ) (k : ℕ) : Option PlacedFunction :=
  (us.slot.funcs k).map (·.placed)

/-- ADD_BAR, ADD_CAPABILITY or SET_CONFIG stands between its check and its change. -/
def Configures : Command δ → Point → Prop
  | .configure _ _ _, .checked => True
  | _, _ => False

/-- The argument can be read, the function is there, and the request is accepted with values that
are not there yet. -/
def Changes (us : PciemUserspaceState δ) : Command δ → Prop
  | .configure argCopied func call => argCopied = true ∧ ∃ v placed,
      usGetRc us func.toNat = some v ∧ configured v.placed call = .ok placed ∧ placed ≠ v.placed
  | _ => False

/-- The turn is that of a configuration call. -/
def OfConfigure (s : Fd ι δ) : Turn ι (Command δ) → Prop
  | .enter _ c => ∃ argCopied func call, c = .configure argCopied func call
  | .next i => s.At (fun c _ ↦ ∃ argCopied func call, c = .configure argCopied func call) i

/-- A configuration call changes nothing while the slot is being registered or is registered. -/
def Frozen (s : Fd ι δ) (a : Turn ι (Command δ)) : Prop :=
  OfConfigure s a → s.shared.registered ≠ .unregistered →
    tables (ioctl.step s a).shared = tables s.shared

/-- A REGISTER gets through `pciem_start_registration`. -/
def Starts (s : Fd ι δ) (a : Turn ι (Command δ)) : Prop :=
  ∃ i svs fd, a = .enter i (.register svs fd) ∧ s.calls i = none ∧
    (pciemStartRegistration s.shared).1 = .ok ()

/-- A REGISTER cancels the registration. -/
def Cancels (s : Fd ι δ) (a : Turn ι (Command δ)) : Prop :=
  ∃ i svs fd e, a = .next i ∧ s.calls i = some (.register svs fd, .failed e)

/-- The next turn of call `i` comes after the registration has been cancelled, or makes no
change. -/
def Withheld (i : ι) : Fd ι δ → List (Turn ι (Command δ)) → Prop
  | _, [] => True
  | s, a :: as => Cancels s a ∨ (a = .next i ∧ ¬ s.At (fun c _ ↦ Changes s.shared c) i) ∨
      a ≠ .next i ∧ Withheld i (ioctl.step s a) as

/-- Whenever a REGISTER starts, the configuration calls between their checks and their changes
are withheld. -/
def Separate : Fd ι δ → List (Turn ι (Command δ)) → Prop
  | _, [] => True
  | s, a :: as => (Starts s a → ∀ i, s.At Configures i → Withheld i (ioctl.step s a) as) ∧
      Separate (ioctl.step s a) as

section Tables

theorem configureChecked_of_not_changes {argCopied : Bool} {func : BitVec 8} {call : Call}
    (h : ¬ Changes us (.configure argCopied func call)) :
    tables (configureChecked us argCopied func call).2 = tables us := by
  rw [configureChecked]
  split_ifs with hcopied
  · rfl
  · split
    · rfl
    · rename_i v hv
      split
      · rfl
      · rename_i placed hok
        have hsame : placed = v.placed := by
          by_contra hne
          exact h ⟨Bool.not_eq_false _ ▸ hcopied, v, placed, hv, hok, hne⟩
        rw [hsame]
        have hfunc : us.slot.funcs func.toNat = some v := by
          rw [usGetRc] at hv
          split_ifs at hv
          exact hv
        funext k
        rw [tables, tables]
        by_cases hk : k = func.toNat
        · subst hk
          rw [Effects.setFunc_self, hfunc]
        · rw [Effects.setFunc_of_ne hk]

theorem configureChecked_of_changes {argCopied : Bool} {func : BitVec 8} {call : Call}
    (h : Changes us (.configure argCopied func call)) :
    tables (configureChecked us argCopied func call).2 ≠ tables us := by
  obtain ⟨hcopied, v, placed, hv, hok, hne⟩ := h
  have hfunc : us.slot.funcs func.toNat = some v := by
    rw [usGetRc] at hv
    split_ifs at hv
    exact hv
  intro hsame
  rw [configureChecked, if_neg (by simp [hcopied])] at hsame
  rw [hv] at hsame
  dsimp only at hsame
  rw [hok] at hsame
  have hk := congrFun hsame func.toNat
  dsimp only at hk
  rw [tables, tables, Effects.setFunc_self, hfunc] at hk
  exact hne (Option.some.inj hk)

end Tables

section Step

theorem frozen_of_not_configures (h : ∀ i, a = .next i → ¬ s.At Configures i) : Frozen s a := by
  rintro hconfigure -
  cases a with
  | enter i c =>
    obtain ⟨argCopied, func, call, rfl⟩ := hconfigure
    rw [Program.step]
    split
    · rfl
    · rfl
  | next i =>
    obtain ⟨c, q, hq, argCopied, func, call, rfl⟩ := hconfigure
    rw [step_next hq]
    cases q with
    | checked => exact absurd ⟨_, _, hq, trivial⟩ (h i rfl)
    | _ => rfl

theorem frozen_next_iff (hreg : s.shared.registered ≠ .unregistered) (hi : s.At Configures i) :
    Frozen s (.next i) ↔ ¬ s.At (fun c _ ↦ Changes s.shared c) i := by
  obtain ⟨c, q, hq, hc⟩ := hi
  unfold Configures at hc
  split at hc
  · rename_i argCopied func call
    rw [at_iff hq]
    constructor
    · intro h hchange
      have hsame := h ⟨_, _, hq, _, _, _, rfl⟩ hreg
      rw [step_next hq] at hsame
      exact configureChecked_of_changes hchange hsame
    · rintro h - -
      rw [step_next hq]
      exact configureChecked_of_not_changes h
  · exact hc.elim

theorem registered_of_starts (h : Starts s a) : s.shared.registered = .unregistered ∧
    (ioctl.step s a).shared.registered = .registering := by
  obtain ⟨i, svs, fd, rfl, hi, hok⟩ := h
  rw [step_enter hi]
  change _ ∧ (pciemStartRegistration s.shared).2.registered = .registering
  obtain ⟨e, heq⟩ | ⟨hreg, heq⟩ := startRegistration_cases s.shared
  · rw [heq] at hok
    cases hok
  · rw [heq]
    exact ⟨hreg, rfl⟩

theorem registered_of_cancels (h : Cancels s a) :
    (ioctl.step s a).shared.registered = .unregistered := by
  obtain ⟨i, svs, fd, e, rfl, hi⟩ := h
  rw [step_next hi]
  rfl

theorem frozen_of_cancels (h : Cancels s a) : Frozen s a := by
  obtain ⟨j, svs, fd, e, rfl, hj⟩ := h
  refine frozen_of_not_configures fun i ha hi ↦ ?_
  obtain rfl := Turn.next.inj ha
  exact (at_iff hj).mp hi

theorem registered_of_not_starts (h : Inv s) (hreg : s.shared.registered = .unregistered)
    (hno : ¬ Starts s a) : (ioctl.step s a).shared.registered = .unregistered := by
  obtain heq | ⟨i, c, before, ha, hi, heq⟩ := step_cases ioctl s a
  · rw [heq]
    exact hreg
  · rw [heq]
    change (ioctl.run c before s.shared).2.registered = .unregistered
    by_cases hregister : IsRegister c
    · obtain ⟨svs, fd, rfl⟩ := hregister
      have hword := registers_run svs fd before s.shared
      generalize hm : ioctl.run (.register svs fd) before s.shared = m at hword ⊢
      obtain ⟨q', us'⟩ := m
      change us'.registered = .unregistered
      change Registers s.shared.registered before (q', us'.registered) at hword
      generalize us'.registered = x' at hword ⊢
      cases hword with
      | start =>
        obtain ⟨e, hstart⟩ | ⟨-, hstart⟩ := startRegistration_cases s.shared
        · have hq := congrArg Prod.fst hm
          change Point.ofCheck (pciemStartRegistration s.shared).1 = .checked at hq
          rw [hstart] at hq
          cases hq
        · exact absurd ⟨i, svs, fd, ha, hi, by rw [hstart]⟩ hno
      | complete =>
        have hregistering := h.registering.taken.mpr ⟨i, (at_iff hi).mpr trivial⟩
        cases hreg.symm.trans hregistering
      | cancel => rfl
      | refused | build | init | fail | instanceFd | stay => exact hreg
    · exact (registered_run hregister before s.shared).trans hreg

theorem registered_of_not_cancels (hreg : s.shared.registered ≠ .unregistered)
    (hno : ¬ Cancels s a) : (ioctl.step s a).shared.registered ≠ .unregistered := by
  obtain heq | ⟨i, c, before, ha, hi, heq⟩ := step_cases ioctl s a
  · rw [heq]
    exact hreg
  · rw [heq]
    change (ioctl.run c before s.shared).2.registered ≠ .unregistered
    by_cases hregister : IsRegister c
    · obtain ⟨svs, fd, rfl⟩ := hregister
      have hword := registers_run svs fd before s.shared
      generalize ioctl.run (.register svs fd) before s.shared = m at hword ⊢
      obtain ⟨q', us'⟩ := m
      change us'.registered ≠ .unregistered
      change Registers s.shared.registered before (q', us'.registered) at hword
      generalize us'.registered = x' at hword ⊢
      cases hword with
      | start hun => exact absurd hun hreg
      | complete => nofun
      | cancel e => exact absurd ⟨i, svs, fd, e, ha, hi⟩ hno
      | refused | build | init | fail | instanceFd | stay => exact hreg
    · rw [registered_run hregister before s.shared]
      exact hreg

theorem not_configures_next (c : Command δ) (q : Point) (us : PciemUserspaceState δ) :
    ¬ Configures c (ioctl.next c q us).1 := by
  cases c with
  | configure argCopied func call => cases q <;> exact id
  | _ => exact id

theorem configures_enter {c : Command δ} (h : Configures c (ioctl.enter c us).1) :
    us.registered = .unregistered := by
  cases c with
  | configure argCopied func call =>
    change Configures _ (.ofCheck (pciemCheckUnregistered us)) at h
    rw [pciemCheckUnregistered] at h
    split_ifs at h
    · exact h.elim
    · split at h
      · exact h.elim
      · exact h.elim
      · assumption
  | _ => exact h.elim

/-- The configuration calls that stand where they stood, while none can get there. -/
theorem at_configures_step (hreg : s.shared.registered ≠ .unregistered) :
    (ioctl.step s a).At Configures i ↔ s.At Configures i ∧ a ≠ .next i := by
  cases a with
  | enter j c =>
    rw [and_iff_left nofun]
    cases hj : s.calls j with
    | none =>
      rw [step_enter hj]
      by_cases hij : i = j
      · subst hij
        exact iff_of_false (fun hno ↦ hreg (configures_enter (at_move_self.mp hno)))
          (not_at_of_none hj)
      · exact at_move_of_ne hij
    | some call =>
      rw [Program.step, hj]
  | next j =>
    cases hj : s.calls j with
    | none =>
      rw [Program.step, hj]
      refine (and_iff_left_of_imp ?_).symm
      rintro hi ⟨⟩
      exact not_at_of_none hj hi
    | some call =>
      rw [step_next hj]
      by_cases hij : i = j
      · subst hij
        exact iff_of_false (fun hno ↦ not_configures_next _ _ _ (at_move_self.mp hno))
          fun hand ↦ hand.2 rfl
      · rw [at_move_of_ne hij, and_iff_left fun heq ↦ hij (Turn.next.inj heq).symm]

theorem at_configures_of_starts (h : Starts s a) :
    (ioctl.step s a).At Configures i ↔ s.At Configures i := by
  obtain ⟨j, svs, fd, rfl, hj, -⟩ := h
  rw [step_enter hj]
  by_cases hij : i = j
  · subst hij
    exact iff_of_false (fun hno ↦ at_move_self.mp hno) (not_at_of_none hj)
  · exact at_move_of_ne hij

end Step

section Run

/-- While a registration is under way or complete, the calls that are past their checks are to be
withheld. -/
theorem frozen_iff (h : Inv s) (as : List (Turn ι (Command δ))) :
    Each ioctl.step Frozen s as ↔
      (s.shared.registered ≠ .unregistered → ∀ i, s.At Configures i → Withheld i s as) ∧
        Separate s as := by
  induction as generalizing s with
  | nil => exact iff_of_true trivial ⟨fun _ _ _ ↦ trivial, trivial⟩
  | cons a as ih =>
    rw [Each, ih (inv_step h a), Separate]
    by_cases hreg : s.shared.registered = .unregistered
    · have hfrozen : Frozen s a := fun _ hno ↦ absurd hreg hno
      rw [and_iff_right hfrozen, and_iff_right fun hno ↦ absurd hreg hno]
      refine and_congr_left fun _ ↦ ?_
      by_cases hstarts : Starts s a
      · have hne : (ioctl.step s a).shared.registered ≠ .unregistered := by
          rw [(registered_of_starts hstarts).2]
          nofun
        rw [forall_prop_of_true hne, forall_prop_of_true hstarts]
        exact forall_congr' fun i ↦ imp_congr_left (at_configures_of_starts hstarts)
      · have heq := registered_of_not_starts h hreg hstarts
        exact iff_of_true (fun hno ↦ absurd heq hno) fun hno ↦ absurd hno hstarts
    · have hstarts : ¬ Starts s a := fun hstarts ↦ hreg (registered_of_starts hstarts).1
      have hvacuous : Starts s a → ∀ i, s.At Configures i → Withheld i (ioctl.step s a) as :=
        fun hno ↦ absurd hno hstarts
      rw [and_iff_right hvacuous, forall_prop_of_true hreg, ← and_assoc]
      refine and_congr_left fun _ ↦ ?_
      by_cases hcancels : Cancels s a
      · have heq := registered_of_cancels hcancels
        exact iff_of_true ⟨frozen_of_cancels hcancels, fun hno ↦ absurd heq hno⟩
          fun _ _ ↦ .inl hcancels
      · rw [forall_prop_of_true (registered_of_not_cancels hreg hcancels)]
        constructor
        · rintro ⟨hfrozen, hrest⟩ i hi
          by_cases ha : a = .next i
          · subst ha
            exact .inr (.inl ⟨rfl, (frozen_next_iff hreg hi).mp hfrozen⟩)
          · exact .inr (.inr ⟨ha, hrest i ((at_configures_step hreg).mpr ⟨hi, ha⟩)⟩)
        · intro hall
          refine ⟨?_, fun i hi' ↦ ?_⟩
          · by_cases hturn : ∃ i, a = .next i ∧ s.At Configures i
            · obtain ⟨i, rfl, hi⟩ := hturn
              rcases hall i hi with hno | ⟨-, hno⟩ | ⟨hno, -⟩
              · exact absurd hno hcancels
              · exact (frozen_next_iff hreg hi).mpr hno
              · exact absurd rfl hno
            · exact frozen_of_not_configures fun i ha hi ↦ hturn ⟨i, ha, hi⟩
          · obtain ⟨hi, ha⟩ := (at_configures_step hreg).mp hi'
            rcases hall i hi with hno | ⟨hno, -⟩ | ⟨-, hrest⟩
            · exact absurd hno hcancels
            · exact absurd hno ha
            · exact hrest

/-- A run changes no function after its registration exactly when every configuration call that
is overtaken by a REGISTER is withheld. -/
theorem configuration_frozen_iff (ops : PciOps δ) (hostDevices : ℕ → Bool) (pool : PciemMempool)
    (as : List (Turn ι (Command δ))) :
    Each ioctl.step Frozen (Config.initial (opened ops hostDevices pool) : Fd ι δ) as ↔
      Separate (Config.initial (opened ops hostDevices pool) : Fd ι δ) as :=
  (frozen_iff (inv_initial rfl) as).trans (and_iff_right fun hno ↦ absurd rfl hno)

end Run

section Overtaken

/-- SET_CONFIG with a vendor and a device. -/
def vendorConfig : PciemConfigSpace where
  vendorId := 0x10ee
  deviceId := 0x7024
  subsysVendorId := 0
  subsysDeviceId := 0
  revision := 0
  classCode _ := 0
  headerType := 0

/-- SET_CONFIG has passed its check when REGISTER starts. -/
def overtaken : List (Turn ℕ (Command ℕ)) :=
  [.enter 0 (.createDevice true ⟨0, 0⟩ (some 0) true), .next 0, .next 0,
    .enter 1 (.configure true 0 (.setConfig vendorConfig)),
    .enter 2 (.register (fun _ ↦ MultiFunction.succeeding) (.ok ())), .next 1]

theorem overtaken_changes : ¬ ∀ (ops : PciOps ℕ) (hostDevices : ℕ → Bool) (pool : PciemMempool)
    (as : List (Turn ℕ (Command ℕ))),
      Each ioctl.step Frozen (Config.initial (opened ops hostDevices pool) : Fd ℕ ℕ) as := by
  intro h
  have hrun := h .hardware (fun _ ↦ false) ⟨12, 0x1000, 0x1000, fun _ ↦ false⟩ overtaken
  obtain ⟨-, -, -, -, -, hfrozen, -⟩ := hrun
  have hsame := congrFun (hfrozen ⟨_, _, rfl, _, _, _, rfl⟩ (by decide)) 0
  have hbyte := congrArg (Option.map fun f : PlacedFunction ↦ f.rc.space 0) hsame
  revert hbyte
  decide

end Overtaken

end Pciem.Slot.Freeze
