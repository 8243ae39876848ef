import Pciem.Slot.Bars
import Pciem.Slot.Invariant

namespace Pciem.Slot.Solitary

open Kernel Library.Unwinding Bar.Table Bar.Placement Register Ioctl Effects Bars Invariant
open State hiding PciemRootComplex
open Attach.Hijack (PciOps)
open Device.Setup (Call)

variable {δ : Type} {us : PciemUserspaceState δ} {v : RootComplex δ} {sv : Services} {k : ℕ}
  {s s' : FunctionState δ}

/-- Nothing is left in the kernel of what has been made for the function, and ops that it has
saved are those of the bus. -/
structure Idle (s : FunctionState δ) : Prop where
  pciemPdev : s.2.pciemPdev = none
  rootBus : s.2.rootBus = none
  saved : ∀ ops, s.2.hijack.originalOps = some ops → ops = s.1.ops

section Failure

theorem failDevice_keeps (s : FunctionState δ) :
    (failDevice s).2.placed = s.2.placed ∧ (failDevice s).1.pool = s.1.pool := by
  have hpdev : (dropPdev s).2.placed = s.2.placed ∧ (dropPdev s).1.pool = s.1.pool := by
    rw [dropPdev]
    split
    · exact ⟨rfl, rfl⟩
    · split
      · exact ⟨rfl, rfl⟩
      · exact ⟨rfl, rfl⟩
  have hbus (s : FunctionState δ) :
      (dropBus s).2.placed = s.2.placed ∧ (dropBus s).1.pool = s.1.pool := by
    rw [dropBus]
    split
    · split
      · exact ⟨rfl, rfl⟩
      · exact ⟨rfl, rfl⟩
    · split
      · exact ⟨rfl, rfl⟩
      · exact ⟨rfl, rfl⟩
  rw [failDevice]
  exact ⟨(hbus _).1.trans hpdev.1, (hbus _).2.trans hpdev.2⟩

theorem completeInit_of_platform_error {e : Errno} (h : sv.platform = .error e) :
    pciemCompleteInit sv k s = (.error e, s) := by
  rw [completeInit_eq, andThen_of_error h]
  rfl

/-- A failure after the platform device is made ends in `pciem_cleanup_bars`. -/
theorem completeInit_error (hplatform : sv.platform = .ok ()) {e : Errno}
    (h : (pciemCompleteInit sv k s).1 = .error e) : ∃ s',
    pciemCompleteInit sv k s = (.error e, pciemCleanupBars s') ∧
      Prepared s.2.placed s'.2.placed ∧ s'.1.pool = s.1.pool := by
  have hprepare := prepared_prepare sv s
  have hstage := completeInit_stage sv k s
  generalize pciemCompleteInit sv k s = result at h hstage
  cases hstage with
  | noPlatform hno =>
    rw [hplatform] at hno
    cases hno
  | noMemory _ heq =>
    cases h
    rw [heq] at hprepare
    exact ⟨_, rfl, hprepare, rfl⟩
  | @noDevice _ placed _ heq _ =>
    cases h
    rw [heq] at hprepare
    obtain ⟨hmode, hpool⟩ := prepared_initMode sv k (withPlaced s placed)
    obtain ⟨hfail, hpool'⟩ := failDevice_keeps (initMode sv k (withPlaced s placed)).2
    refine ⟨_, rfl, ?_, hpool'.trans hpool⟩
    rw [hfail]
    exact hprepare.trans hmode
  | done _ _ hok =>
    rw [h] at hok
    cases hok

theorem dropPdev_of_none (h : s.2.pciemPdev = none) : dropPdev s = s := by
  rw [dropPdev, h]

/-- The error label leaves nothing behind, and gives the bus its ops back. -/
theorem idle_failDevice (hidle : Idle s) {e : Errno} (h : (initMode sv k s).1 = .error e) :
    Idle (failDevice (initMode sv k s).2) ∧
      (failDevice (initMode sv k s).2).1.ops = s.1.ops := by
  cases hmode : s.2.busMode with
  | virtualRoot =>
    rw [initMode_of_virtual hmode] at h ⊢
    cases hbridge : sv.bridge with
    | error e =>
      rw [initVirtual_of_error hbridge, failDevice, dropPdev_of_none hidle.pciemPdev, dropBus,
        hmode]
      dsimp only
      rw [hidle.rootBus]
      exact ⟨hidle, rfl⟩
    | ok _ =>
      obtain ⟨hown, hresult⟩ := onOwnBus_initVirtual hbridge k s
      have hcreated : sv.created k = false := by
        cases hcreated : sv.created k with
        | false => rfl
        | true =>
          rw [h, hcreated] at hresult
          cases hresult
      have hpdev : (pciemInitVirtualRootMode sv k s).2.2.pciemPdev = none := by
        rw [hown.pciemPdev, hcreated]
        rfl
      rw [failDevice, dropPdev_of_none hpdev, dropBus, hown.busMode, hmode]
      dsimp only
      rw [hown.rootBus]
      refine ⟨⟨hpdev, rfl, fun ops hops ↦ ?_⟩, hown.ops⟩
      exact (hidle.saved ops (hown.hijack ▸ hops)).trans hown.ops.symm
  | attachToHost =>
    rw [initMode_of_attach hmode] at h ⊢
    have hinit := hostInit_initAttach sv k s
    generalize pciemInitAttachToHostMode sv k s = result at h hinit ⊢
    have hdrop (s : FunctionState δ) (hmode : s.2.busMode = .attachToHost) (hidle : Idle s) :
        failDevice s = s := by
      rw [failDevice, dropPdev_of_none hidle.pciemPdev, dropBus, hmode]
      dsimp only
      split
      · rfl
      · rename_i ops hops
        rw [hidle.saved ops hops]
    cases hinit with
    | early =>
      rw [hdrop s hmode hidle]
      exact ⟨hidle, rfl⟩
    | @noDevice slot placed _ _ _ =>
      have hidle' : Idle (s.1, hijacked s slot placed) :=
        ⟨hidle.pciemPdev, hidle.rootBus, fun ops hops ↦ (Option.some.inj hops).symm⟩
      rw [hdrop (s.1, hijacked s slot placed) hmode hidle']
      exact ⟨hidle', rfl⟩
    | done => cases h

theorem idle_completeInit (hidle : Idle s) {e : Errno}
    (h : (pciemCompleteInit sv k s).1 = .error e) :
    Idle (pciemCompleteInit sv k s).2 ∧ (pciemCompleteInit sv k s).2.1.ops = s.1.ops := by
  have hcleanup (s : FunctionState δ) (hidle : Idle s) :
      Idle (pciemCleanupBars s) ∧ (pciemCleanupBars s).1.ops = s.1.ops := by
    obtain ⟨pool, heq, -⟩ := cleanupBars_eq s
    rw [heq]
    exact ⟨⟨hidle.pciemPdev, hidle.rootBus, hidle.saved⟩, rfl⟩
  have hplaced (placed : PlacedFunction) : Idle (withPlaced s placed) :=
    ⟨hidle.pciemPdev, hidle.rootBus, hidle.saved⟩
  have hstage := completeInit_stage sv k s
  generalize pciemCompleteInit sv k s = result at h hstage
  cases hstage with
  | noPlatform => exact ⟨hidle, rfl⟩
  | @noMemory _ placed _ _ =>
    have hclean := hcleanup (withPlaced s placed) (hplaced placed)
    dsimp only
    generalize pciemCleanupBars (withPlaced s placed) = s' at hclean ⊢
    exact hclean
  | @noDevice _ placed _ _ hmode =>
    have hfail := idle_failDevice (hplaced placed) hmode
    generalize failDevice (initMode sv k (withPlaced s placed)).2 = s' at hfail ⊢
    obtain ⟨hclean, hops⟩ := hcleanup s' hfail.1
    dsimp only
    exact ⟨hclean, hops.trans hfail.2⟩
  | done _ _ hok =>
    rw [h] at hok
    cases hok

end Failure

/-- Function 0 is the only function of the slot. -/
def Lone (us : PciemUserspaceState δ) (v : RootComplex δ) : Prop :=
  us.slot.funcs 0 = some v ∧ ∀ k, k ≠ 0 → us.slot.funcs k = none

/-- Function 0 with its config space built, in the world as it is. -/
def built (us : PciemUserspaceState δ) (v : RootComplex δ) : FunctionState δ :=
  withPlaced (us.world, v) (buildFunction us.slot.numFuncs 0 v.placed)

section Register

variable {svs : ℕ → Services} {fd : Except Errno Unit}

theorem setFunc_buildFunctions (hsolo : Lone us v) (world : World δ) (v' : RootComplex δ) :
    setFunc (buildFunctions us) world 0 v' = setFunc us world 0 v' := by
  have hfuncs : Function.update (buildFunctions us).slot.funcs 0 (some v') =
      Function.update us.slot.funcs 0 (some v') := by
    funext k
    by_cases hk : k = 0
    · rw [hk, Function.update_self, Function.update_self]
    · rw [Function.update_of_ne hk, Function.update_of_ne hk, buildFunctions]
      dsimp only
      rw [hsolo.2 k hk]
      rfl
  rw [setFunc, hfuncs]
  rfl

theorem registerFunctions_solitary (svs : ℕ → Services) (hsolo : Lone us v) :
    registerFunctions svs us =
    ((pciemCompleteInit (svs 0) 0 (built us v)).1,
      setFunc us (pciemCompleteInit (svs 0) 0 (built us v)).2.1 0
        (pciemCompleteInit (svs 0) 0 (built us v)).2.2) := by
  have h0 : (buildFunctions us).slot.funcs 0 = some (built us v).2 := by
    rw [buildFunctions]
    dsimp only
    rw [hsolo.1]
    rfl
  have hinit : onFunc 0 (pciemCompleteInit (svs 0) 0) (buildFunctions us) =
      ((pciemCompleteInit (svs 0) 0 (built us v)).1,
        setFunc us (pciemCompleteInit (svs 0) 0 (built us v)).2.1 0
          (pciemCompleteInit (svs 0) 0 (built us v)).2.2) := by
    rw [onFunc_of_some h0, setFunc_buildFunctions hsolo]
    rfl
  cases hok : (pciemCompleteInit (svs 0) 0 (built us v)).1 with
  | error e => rw [registerFunctions_of_error svs (by rw [hinit, hok]), hinit]
  | ok _ => rw [registerFunctions_of_alone svs (by rw [hinit, hok]) hsolo.2, hinit]

theorem register_solitary (hreg : us.registered = .unregistered) (hsolo : Lone us v) :
    pciemIoctlRegister svs fd us =
      match pciemCompleteInit (svs 0) 0 (built us v) with
      | (.ok (), s) => (fd, { setFunc us s.1 0 s.2 with registered := .registered })
      | (.error e, s) =>
        (.error e, { setFunc us s.1 0 s.2 with registered := .unregistered }) := by
  let us' : PciemUserspaceState δ := { us with registered := .registering }
  have hsolo' : Lone us' v := hsolo
  have hstart : pciemStartRegistration us = (.ok (), us') :=
    startRegistration_of_unregistered hreg (by rw [hsolo.1]; rfl)
  have hfunctions := registerFunctions_solitary svs hsolo'
  change registerFunctions svs us' = ((pciemCompleteInit (svs 0) 0 (built us v)).1,
    setFunc us' (pciemCompleteInit (svs 0) 0 (built us v)).2.1 0
      (pciemCompleteInit (svs 0) 0 (built us v)).2.2) at hfunctions
  generalize pciemCompleteInit (svs 0) 0 (built us v) = result at hfunctions ⊢
  obtain ⟨r, s⟩ := result
  rw [pciemIoctlRegister, andThen_of_ok (by rw [hstart]), hstart]
  cases r with
  | ok _ =>
    have hok : (onError (registerFunctions svs) pciemCancelRegistration us').1 = .ok () := by
      rw [onError_fst, hfunctions]
    rw [andThen_of_ok hok, onError_of_ok (by rw [hfunctions]), hfunctions]
    rfl
  | error e =>
    have herr : (onError (registerFunctions svs) pciemCancelRegistration us').1 = .error e := by
      rw [onError_fst, hfunctions]
    rw [andThen_of_error herr, onError_of_error (by rw [hfunctions]), hfunctions]
    rfl

theorem register_of_init_ok (hreg : us.registered = .unregistered) (hlone : Lone us v)
    (h : (pciemCompleteInit (svs 0) 0 (built us v)).1 = .ok ()) :
    (pciemIoctlRegister svs fd us).2.registered = .registered := by
  rw [register_solitary hreg hlone]
  generalize pciemCompleteInit (svs 0) 0 (built us v) = result at h ⊢
  obtain ⟨r, s⟩ := result
  cases h
  rfl

theorem register_of_init_error (hreg : us.registered = .unregistered) (hlone : Lone us v)
    {e : Errno} (h : (pciemCompleteInit (svs 0) 0 (built us v)).1 = .error e) :
    (pciemIoctlRegister svs fd us).2 = { setFunc us
      (pciemCompleteInit (svs 0) 0 (built us v)).2.1 0
      (pciemCompleteInit (svs 0) 0 (built us v)).2.2 with registered := .unregistered } := by
  rw [register_solitary hreg hlone]
  generalize pciemCompleteInit (svs 0) 0 (built us v) = result at h ⊢
  obtain ⟨r, s⟩ := result
  cases h
  rfl

end Register

/-- A BAR without a size has no flags. -/
def FlagsClear (v : Config.Capabilities.PciemRootComplex) : Prop :=
  ∀ i, (v.bars i).size = 0 → (v.bars i).flags = 0

def Unallocated (f : PlacedFunction) : Prop :=
  ∀ i < pciStdNumBars, (f.places i).allocatedRes = false

/-- What holds of a function that is alone in its slot. -/
def Fresh (us : PciemUserspaceState δ) : Prop :=
  ∀ v, Lone us v → FlagsClear v.placed.rc ∧
    (us.registered = .unregistered → Idle (us.world, v) ∧ Unallocated v.placed)

section Fresh

variable {svs : ℕ → Services} {fd : Except Errno Unit} {f g : PlacedFunction}

theorem FlagsClear.rewritten {v v' : Config.Capabilities.PciemRootComplex} (h : FlagsClear v)
    (hv : Rewritten v v') : FlagsClear v' :=
  fun i hsize ↦ (hv.flags i).trans (h i ((hv.size i).symm.trans hsize))

theorem prepared_completeInit_of_ok (h : (pciemCompleteInit sv k s).1 = .ok ()) :
    Prepared s.2.placed (pciemCompleteInit sv k s).2.2.placed := by
  obtain ⟨placed, heq, -, hinit⟩ := completeInit_of_ok h
  have hprepare := prepared_prepare sv s
  have hmode := (prepared_initMode sv k (withPlaced s placed)).1
  rw [heq] at hprepare
  rw [hinit]
  exact hprepare.trans hmode

theorem flagsClear_configured {call : Call} (h : FlagsClear f.rc)
    (hok : configured f call = .ok g) :
    FlagsClear g.rc ∧ ∀ i, (g.places i).allocatedRes = (f.places i).allocatedRes := by
  cases call with
  | setConfig c =>
    cases hok
    exact ⟨h, fun _ ↦ rfl⟩
  | addCapability req =>
    rw [configured] at hok
    cases hadd : Config.Capabilities.pciemIoctlAddCapability f.rc req with
    | error e =>
      rw [hadd] at hok
      cases hok
    | ok rc =>
      rw [hadd] at hok
      cases hok
      obtain ⟨mgr, hl, cap, -, -, -, rfl⟩ := Config.Capabilities.addCapability_eq_ok hadd
      exact ⟨h, fun _ ↦ rfl⟩
  | addBar call =>
    rw [configured, pciemIoctlAddBar, pciemRegisterBar] at hok
    dsimp only at hok
    split_ifs at hok with _ _ hzero
    · cases hok
      refine ⟨fun i hsize ↦ ?_, fun _ ↦ rfl⟩
      rw [PlacedFunction.setBarInfo] at hsize ⊢
      dsimp only at hsize ⊢
      by_cases hi : i = call.cfg.barIndex.toNat
      · rw [hi, Function.update_self]
      · rw [Function.update_of_ne hi] at hsize ⊢
        exact h i hsize
    · cases hok
      refine ⟨fun i hsize ↦ ?_, fun i ↦ ?_⟩
      · rw [PlacedFunction.setBarInfo] at hsize ⊢
        dsimp only at hsize ⊢
        by_cases hi : i = call.cfg.barIndex.toNat
        · rw [hi, Function.update_self] at hsize
          exact absurd hsize hzero
        · rw [Function.update_of_ne hi] at hsize ⊢
          exact h i hsize
      · dsimp only
        by_cases hi : i = call.cfg.barIndex.toNat
        · rw [hi, Function.update_self]
        · rw [Function.update_of_ne hi]

theorem lone_setFunc {world : World δ} {w : RootComplex δ} (h : Lone (setFunc us world k w) v) :
    k = 0 ∧ v = w ∧ ∀ j, j ≠ 0 → us.slot.funcs j = none := by
  have hself := setFunc_self us world k w
  have hk : k = 0 := by
    by_contra hne
    rw [h.2 k hne] at hself
    cases hself
  subst hk
  refine ⟨rfl, Option.some.inj (h.1.symm.trans hself), fun j hj ↦ ?_⟩
  rw [← h.2 j hj, setFunc_of_ne hj]

theorem flagsClear_alloc : FlagsClear PlacedFunction.alloc.rc := fun _ _ ↦ rfl

theorem fresh_withFunction {req : PciemCreateDevice} (address : δ) (capMgr : Bool) :
    Fresh (withFunction us req address capMgr) := by
  intro v hlone
  have hset : Lone (setFunc us us.world req.func.toNat
      (newFunction address (newMode us req) capMgr)) v := hlone
  obtain ⟨-, rfl, -⟩ := lone_setFunc hset
  refine ⟨?_, fun _ ↦ ⟨⟨rfl, rfl, fun _ hops ↦ nomatch hops⟩, fun _ _ ↦ rfl⟩⟩
  cases capMgr with
  | true => exact flagsClear_alloc
  | false => exact flagsClear_alloc

theorem fresh_configure (h : Fresh us) (argCopied : Bool) (func : BitVec 8) (call : Call) :
    Fresh (pciemIoctlConfigure us argCopied func call).2 := by
  obtain ⟨e, heq⟩ | ⟨w, placed, hreg, hw, hok, heq⟩ := configure_cases us argCopied func call
  · rw [heq]
    exact h
  · rw [heq]
    intro v hlone
    obtain ⟨hfunc, rfl, hnone⟩ := lone_setFunc hlone
    rw [hfunc] at hw
    obtain ⟨hflags, hidle⟩ := h w ⟨hw, hnone⟩
    obtain ⟨hflags', hplaces⟩ := flagsClear_configured hflags hok
    obtain ⟨⟨hpdev, hroot, hsaved⟩, hfree⟩ := hidle hreg
    exact ⟨hflags', fun _ ↦ ⟨⟨hpdev, hroot, hsaved⟩,
      fun i hi ↦ (hplaces i).trans (hfree i hi)⟩⟩

theorem Lone.of_kept {us' : PciemUserspaceState δ} {v' : RootComplex δ} (hkept : Kept us us')
    (h : Lone us' v') : ∃ v, Lone us v := by
  have hsome : (us.slot.funcs 0).isSome := by
    rw [← hkept.isSome, h.1]
    rfl
  obtain ⟨v, hv⟩ := Option.isSome_iff_exists.mp hsome
  refine ⟨v, hv, fun k hk ↦ ?_⟩
  have hnone := hkept.isSome k
  rw [h.2 k hk] at hnone
  exact Option.isNone_iff_eq_none.mp (Option.isSome_eq_false_iff.mp hnone.symm)

/-- A failure leaves a function that is alone as if it had not been touched, but for its BARs. -/
theorem idle_register (hlone : Lone us v) (hfresh : Fresh us) (hreg : us.registered = .unregistered)
    {e : Errno} (herr : (pciemCompleteInit sv 0 (built us v)).1 = .error e) :
    Idle (pciemCompleteInit sv 0 (built us v)).2 ∧
      (pciemCompleteInit sv 0 (built us v)).2.1.ops = us.world.ops := by
  obtain ⟨hpdev, hroot, hsaved⟩ := ((hfresh v hlone).2 hreg).1
  exact idle_completeInit (s := built us v) ⟨hpdev, hroot, hsaved⟩ herr

theorem unallocated_cleaned (f : PlacedFunction) : Unallocated (cleaned f) := by
  intro i hi
  rw [cleaned]
  dsimp only
  rw [if_pos hi, cleanedPlace]
  split_ifs
  · rfl
  · rfl

theorem flagsClear_completeInit_error (hflags : FlagsClear s.2.placed.rc)
    (hfree : Unallocated s.2.placed) {e : Errno} (h : (pciemCompleteInit sv k s).1 = .error e) :
    FlagsClear (pciemCompleteInit sv k s).2.2.placed.rc ∧
      Unallocated (pciemCompleteInit sv k s).2.2.placed := by
  cases hplatform : sv.platform with
  | error e' =>
    rw [completeInit_of_platform_error hplatform]
    exact ⟨hflags, hfree⟩
  | ok _ =>
    obtain ⟨s', heq, hprepared, -⟩ := completeInit_error hplatform h
    obtain ⟨pool, hclean, -⟩ := cleanupBars_eq s'
    rw [heq, hclean]
    exact ⟨hflags.rewritten hprepared.rc, unallocated_cleaned s'.2.placed⟩

theorem fresh_register (hwf : WellFormed us) (h : Fresh us) (svs : ℕ → Services)
    (fd : Except Errno Unit) : Fresh (pciemIoctlRegister svs fd us).2 := by
  by_cases hreg : us.registered = .unregistered
  · intro v' hlone'
    obtain ⟨v, hlone⟩ := hlone'.of_kept (keeps_register svs fd us hwf)
    obtain ⟨hflags, hidle⟩ := h v hlone
    obtain ⟨hbars, hplaces⟩ := bars_buildFunction us.slot.numFuncs 0 v.placed
    have hbuilt : FlagsClear (built us v).2.placed.rc := hflags.rewritten (.of_bars_eq hbars)
    have hself (s : FunctionState δ) : (setFunc us s.1 0 s.2).slot.funcs 0 = some s.2 :=
      setFunc_self us s.1 0 s.2
    rw [register_solitary hreg hlone] at hlone' ⊢
    cases hresult : (pciemCompleteInit (svs 0) 0 (built us v)).1 with
    | ok _ =>
      have hprepared := prepared_completeInit_of_ok hresult
      generalize pciemCompleteInit (svs 0) 0 (built us v) = result at *
      obtain ⟨r, s⟩ := result
      cases hresult
      obtain rfl := Option.some.inj (hlone'.1.symm.trans (hself s))
      exact ⟨hbuilt.rewritten hprepared.rc, fun hun ↦ nomatch hun⟩
    | error e =>
      have hidle' := idle_register hlone h hreg hresult
      have hbars' := flagsClear_completeInit_error hbuilt
        (fun i hi ↦ (congrArg (fun places ↦ (places i).allocatedRes) hplaces).trans
          ((hidle hreg).2 i hi)) hresult
      generalize pciemCompleteInit (svs 0) 0 (built us v) = result at *
      obtain ⟨r, s⟩ := result
      cases hresult
      obtain rfl := Option.some.inj (hlone'.1.symm.trans (hself s))
      exact ⟨hbars'.1, fun _ ↦ ⟨⟨hidle'.1.pciemPdev, hidle'.1.rootBus, hidle'.1.saved⟩, hbars'.2⟩⟩
  · rw [register_of_not_unregistered svs fd hreg]
    exact h

theorem fresh_step (hwf : WellFormed us) (h : Fresh us) (c : Command δ) : Fresh (step us c) := by
  cases c with
  | createDevice argCopied req memory capMgr =>
    obtain ⟨e, heq⟩ | ⟨address, -, heq⟩ := createDevice_cases us argCopied req memory capMgr
    · rw [step, pciemDeviceIoctl, heq]
      exact h
    · rw [step, pciemDeviceIoctl, heq]
      exact fresh_withFunction address capMgr
  | configure argCopied func call => exact fresh_configure h argCopied func call
  | register svs fd => exact fresh_register hwf h svs fd
  | start | injectIrq | dma | dmaAtomic | p2p | getBarInfo | setEventfd | setIrqfd | dmaIndirect
    | traceBar => exact h

theorem fresh_of_reachable (h : Reachable us) : Fresh us := by
  have hboth : WellFormed us ∧ Fresh us := by
    refine invariant_of_reachable (P := fun us ↦ WellFormed us ∧ Fresh us)
      (fun ops hostDevices pool ↦ ⟨wellFormed_opened ops hostDevices pool, ?_⟩)
      (fun us c hus ↦ ⟨wellFormed_step hus.1 c, fresh_step hus.1 hus.2 c⟩) h
    intro v hlone
    cases hlone.1
  exact hboth.2

end Fresh

end Pciem.Slot.Solitary
