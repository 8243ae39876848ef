import Pciem.Bar.Agreement
import Pciem.Slot.Invariant

namespace Pciem.Slot.Functions

open Kernel Library.Unwinding Bar.Table Bar.Placement Config.Capabilities Device.Setup Register
  Ioctl Effects Invariant
open State hiding PciemRootComplex
open Bar.Register (Host storeBars)

variable {δ : Type} {us : PciemUserspaceState δ} {k : ℕ}

/-- What the models of a single function see of a slot. -/
def placedSlot (slot : PciemSlotState δ) : Bar.Register.PciemSlot where
  funcs k := (slot.funcs k).map (·.placed)
  numFuncs := slot.numFuncs
  busMode := slot.busMode

theorem placedSlot_funcs (slot : PciemSlotState δ) (k : ℕ) :
    (placedSlot slot).funcs k = (slot.funcs k).map (·.placed) := rfl

section Configuration

/-- REGISTER has not been called. -/
def Command.Configures : Command δ → Prop
  | .register _ _ => False
  | _ => True

/-- Every function is what its own calls have made of a new one. -/
def AllSetUp (us : PciemUserspaceState δ) : Prop :=
  ∀ k v, us.slot.funcs k = some v → ∃ allocated calls, v.placed = setUp allocated calls

theorem perform_of_configured {f g : PlacedFunction} {call : Call}
    (h : configured f call = .ok g) : perform f call = g := by
  cases call with
  | setConfig c =>
    cases h
    rfl
  | addCapability req =>
    rw [configured] at h
    rw [perform]
    cases hadd : pciemIoctlAddCapability f.rc req with
    | error e =>
      rw [hadd] at h
      cases h
    | ok rc =>
      rw [hadd] at h
      cases h
      rfl
  | addBar call =>
    rw [configured] at h
    rw [perform, addBar, h]

theorem AllSetUp.update (h : AllSetUp us) {us' : PciemUserspaceState δ} {v : RootComplex δ}
    (hfuncs : us'.slot.funcs = Function.update us.slot.funcs k (some v))
    (hv : ∃ allocated calls, v.placed = setUp allocated calls) : AllSetUp us' := by
  intro j w hw
  rw [hfuncs] at hw
  by_cases hj : j = k
  · subst hj
    rw [Function.update_self] at hw
    cases hw
    exact hv
  · rw [Function.update_of_ne hj] at hw
    exact h j w hw

theorem AllSetUp.step (h : AllSetUp us) {c : Command δ} (hc : Command.Configures c) :
    AllSetUp (step us c) := by
  cases c with
  | createDevice argCopied req memory capMgr =>
    change AllSetUp (pciemIoctlCreateDevice us argCopied req memory capMgr).2
    obtain ⟨e, heq⟩ | ⟨address, -, heq⟩ := createDevice_cases us argCopied req memory capMgr
    · rw [heq]
      exact h
    · rw [heq]
      exact h.update rfl ⟨capMgr, [], rfl⟩
  | configure argCopied func call =>
    change AllSetUp (pciemIoctlConfigure us argCopied func call).2
    obtain ⟨e, heq⟩ | ⟨v, placed, -, hv, hok, heq⟩ := configure_cases us argCopied func call
    · rw [heq]
      exact h
    · rw [heq]
      obtain ⟨allocated, calls, hsetUp⟩ := h _ v hv
      refine h.update rfl ⟨allocated, calls ++ [call], ?_⟩
      rw [setUp, List.foldl_append, ← setUp, ← hsetUp]
      exact (perform_of_configured hok).symm
  | register sv fd => exact hc.elim
  | start | injectIrq | dma | dmaAtomic | p2p | getBarInfo | setEventfd | setIrqfd | dmaIndirect
    | traceBar => exact h

/-- Until REGISTER, the functions of a slot are those that `setUp` makes. -/
theorem allSetUp_run (ops : Attach.Hijack.PciOps δ) (hostDevices : ℕ → Bool) (pool : PciemMempool)
    (cs : List (Command δ)) (hcs : ∀ c ∈ cs, Command.Configures c) :
    AllSetUp (cs.foldl step (opened ops hostDevices pool)) := by
  induction cs using List.reverseRecOn with
  | nil =>
    intro k v h
    cases h
  | append_singleton cs c ih =>
    rw [List.foldl_append]
    exact (ih fun d hd ↦ hcs d (List.mem_append_left _ hd)).step
      (hcs c (List.mem_append_right _ (List.mem_singleton_self c)))

/-- GET_BAR_INFO answers by the function alone once it has been selected. -/
theorem getBarInfo_of_func {v : RootComplex δ} {func : BitVec 8} (barIndex : BitVec 32)
    (hregistered : pciemCheckRegistered us = .ok ()) (hv : usGetRc us func.toNat = some v) :
    pciemIoctlGetBarInfo us true func barIndex
        ((Bar.Agreement.pciemIoctlGetBarInfo v.placed barIndex.toNat).map fun _ ↦ ()) =
      .returned ((Bar.Agreement.pciemIoctlGetBarInfo v.placed barIndex.toNat).map fun _ ↦ ()) := by
  by_cases hindex : barIndex.toNat ≥ pciStdNumBars
  · have hresult : Bar.Agreement.pciemIoctlGetBarInfo v.placed barIndex.toNat = .error .einval :=
      if_pos hindex
    simp [pciemIoctlGetBarInfo, onRegistered, hregistered, hindex, hresult, Except.map]
  · simp [pciemIoctlGetBarInfo, onRegistered, hregistered, hindex, hv]

end Configuration

section Initialisation

variable {sv : Services} {s : FunctionState δ}

/-- What the model of a single function takes the rest of the kernel to do, for a function that
comes to be. -/
def hostOf (sv : Services) (k : ℕ) : Host :=
  { Services.host sv (decide (k = 0)) with bus := .ok () }

theorem prepareBars_placed (is : List ℕ) (h : (forEach (prepareBar sv) is s).1 = .ok ()) :
    is.foldlM (completeInitBar sv.resource) s.2.placed =
      .ok (forEach (prepareBar sv) is s).2.2.placed := by
  refine (foldlM_of_forEach (P := fun _ ↦ True) (g := fun s : FunctionState δ ↦ s.2.placed)
    (fun i _ s _ hi ↦ ⟨trivial, ?_⟩) trivial h).1
  rw [prepareBar] at hi ⊢
  cases hbar : completeInitBar sv.resource s.2.placed i with
  | error e =>
    rw [hbar] at hi
    cases hi
  | ok placed => rfl

theorem prepare_placed {placed : PlacedFunction}
    (h : prepare sv s = (.ok (), withPlaced s placed)) :
    completeInitBars sv.resource s.2.placed = .ok placed := by
  have hbars := (andThen_ok_iff.mp (congrArg Prod.fst h)).1
  have hplaced := prepareBars_placed _ hbars
  rw [prepare, andThen_of_ok hbars] at h
  obtain ⟨r, hreserve⟩ := forEach_reserveBar sv (List.range pciStdNumBars)
    (forEach (prepareBar sv) (List.range pciStdNumBars) s).2
  rw [pciemReserveBarsRes, hreserve] at h
  rw [completeInitBars, hplaced, (Prod.mk.inj h).2]
  rfl

theorem initVirtual_placed (h : (pciemInitVirtualRootMode sv k s).1 = .ok ()) :
    Bar.Register.pciemInitVirtualRootMode (hostOf sv k) s.2.placed =
      .ok (pciemInitVirtualRootMode sv k s).2.2.placed := by
  cases hbridge : sv.bridge with
  | error e =>
    rw [initVirtual_of_error hbridge] at h
    cases h
  | ok _ =>
    obtain ⟨hown, hresult⟩ := onOwnBus_initVirtual hbridge k s
    have hcreated : sv.created k = true := by
      by_contra hno
      rw [h, if_neg hno] at hresult
      cases hresult
    have hzero := hown.only 0
    rw [pciemInitVirtualRootMode, hbridge] at hzero ⊢
    dsimp only at hzero ⊢
    have hslot : (World.getSlot (s.1.scanRootBus
        (Function.update (fun _ ↦ none) k (some s.2.address)) sv.created)
        (.root s.1.nextBus) 0).isSome = decide (k = 0) := by
      rw [World.getSlot, hzero, hcreated, Bool.and_true]
      by_cases hk : k = 0
      · simp [hk]
      · simp [hk, Ne.symm hk]
    rw [hslot]
    rfl

theorem initAttach_placed (h : (pciemInitAttachToHostMode sv k s).1 = .ok ()) :
    Bar.Register.pciemInitAttachToHostMode (hostOf sv k) k s.2.placed =
      .ok (pciemInitAttachToHostMode sv k s).2.2.placed := by
  rw [pciemInitAttachToHostMode] at h ⊢
  by_cases hbus : sv.found.bus = false
  · rw [if_pos hbus] at h
    cases h
  rw [if_neg hbus] at h ⊢
  by_cases hk : k ≠ 0
  · rw [if_pos hk] at h
    cases h
  rw [if_neg hk] at h ⊢
  obtain rfl := not_not.mp hk
  cases hslot : sv.found.slot with
  | none =>
    rw [hslot] at h
    cases h
  | some slot =>
    rw [hslot] at h
    dsimp only at h ⊢
    by_cases hscan : sv.found.scan = true
    · rw [if_pos hscan]
      rfl
    · rw [if_neg hscan] at h
      cases h

/-- A function that comes to be has the registers and BARs that the model of a single function
gives it. -/
theorem completeInit_placed (h : (pciemCompleteInit sv k s).1 = .ok ()) :
    Bar.Register.pciemCompleteInit (hostOf sv k) s.2.busMode k s.2.placed =
      .ok (pciemCompleteInit sv k s).2.2.placed := by
  obtain ⟨placed, hprepare, hmode, heq⟩ := completeInit_of_ok h
  have hplatform : (hostOf sv k).platform = .ok () := by
    rw [pciemCompleteInit] at h
    exact (andThen_ok_iff.mp h).1
  have hbars : completeInitBars (hostOf sv k).resource s.2.placed = .ok placed :=
    prepare_placed hprepare
  rw [heq, Bar.Register.pciemCompleteInit, hplatform, hbars]
  simp only [bind, Except.bind]
  cases hbusMode : s.2.busMode with
  | virtualRoot =>
    have hbusMode' : (withPlaced s placed).2.busMode = .virtualRoot := hbusMode
    rw [initMode_of_virtual hbusMode'] at hmode ⊢
    have hplaced := initVirtual_placed hmode
    exact hplaced
  | attachToHost =>
    have hbusMode' : (withPlaced s placed).2.busMode = .attachToHost := hbusMode
    rw [initMode_of_attach hbusMode'] at hmode ⊢
    have hplaced := initAttach_placed hmode
    exact hplaced

end Initialisation

section Registration

variable {sv : ℕ → Services}

theorem funcs_setFunc (us : PciemUserspaceState δ) (world : World δ) (k : ℕ) (v : RootComplex δ) :
    (placedSlot (setFunc us world k v).slot).funcs =
      Function.update (placedSlot us.slot).funcs k (some v.placed) := by
  funext j
  by_cases hj : j = k
  · subst hj
    rw [Function.update_self, placedSlot_funcs, setFunc_self]
    rfl
  · rw [Function.update_of_ne hj, placedSlot_funcs, placedSlot_funcs, setFunc_of_ne hj]

theorem funcs_of_some {v : RootComplex δ} (h : us.slot.funcs k = some v) :
    (placedSlot us.slot).funcs k = some v.placed := by
  rw [placedSlot_funcs, h]
  rfl

/-- A function that joins function 0 is not changed, and function 0 is not either. -/
theorem attachFunc_placed {sv : Services} {func0 fn : RootComplex δ}
    (h0 : us.slot.funcs 0 = some func0) (hfn : us.slot.funcs k = some fn)
    (hmode : func0.busMode = .virtualRoot) (h : (attachFunc sv k us).1 = .ok ()) :
    (placedSlot (attachFunc sv k us).2.slot).funcs = (placedSlot us.slot).funcs := by
  have hjoined := attachFunction_joined (k := k) sv fn hmode us.world
  rw [attachFunc, h0, hfn] at h ⊢
  dsimp only at h ⊢
  generalize pciemAttachFunction sv k us.world func0 fn = result at hjoined h ⊢
  cases hjoined with
  | refused => cases h
  | noDevice => cases h
  | joined =>
    dsimp only
    rw [funcs_setFunc, funcs_setFunc, ← funcs_of_some h0, Function.update_eq_self,
      ← funcs_of_some hfn, Function.update_eq_self]

theorem registerOther_placed (hwf : WellFormed us) (hk : k ≠ 0)
    (h : (registerOther sv k us).1 = .ok ()) :
    Bar.Register.registerOthers (fun k ↦ hostOf (sv k) k) us.slot.busMode
      (placedSlot us.slot).funcs k = .ok (placedSlot (registerOther sv k us).2.slot).funcs := by
  cases hfn : us.slot.funcs k with
  | none =>
    have hnone : (placedSlot us.slot).funcs k = none := by
      rw [placedSlot_funcs, hfn]
      rfl
    rw [registerOther_of_none sv hfn, Bar.Register.registerOthers, hnone]
  | some fn =>
    obtain ⟨hinit, hattach⟩ := andThen_ok_iff.mp h
    rw [registerOther, andThen_of_ok hinit]
    rw [onFunc_of_some hfn] at hinit hattach ⊢
    have hinit' : Bar.Register.pciemCompleteInit (hostOf (sv k) k) us.slot.busMode k fn.placed =
        .ok (pciemCompleteInit (sv k) k (us.world, fn)).2.2.placed := by
      rw [← hwf.mode k fn hfn]
      exact completeInit_placed (s := (us.world, fn)) hinit
    have hvirtual : us.slot.busMode = .virtualRoot := by
      rw [← hwf.mode k fn hfn]
      cases hmode : fn.busMode with
      | virtualRoot => rfl
      | attachToHost =>
        exact absurd (eq_zero_of_completeInit_attach (s := (us.world, fn)) hmode hinit) hk
    obtain ⟨func0, h0⟩ := Option.isSome_iff_exists.mp (hwf.zero k (by rw [hfn]; rfl))
    have hmode0 : func0.busMode = .virtualRoot := (hwf.mode 0 func0 h0).trans hvirtual
    generalize pciemCompleteInit (sv k) k (us.world, fn) = result at hattach hinit' ⊢
    have h0' := (setFunc_of_ne hk.symm us result.2.1 result.2.2).trans h0
    rw [attachFunc_placed h0' (setFunc_self us _ k _) hmode0 hattach, funcs_setFunc,
      Bar.Register.registerOthers, funcs_of_some hfn]
    have hjoins : ¬ (k = 0 ∨ k ≥ pciemMaxFunctions) :=
      not_or.mpr ⟨hk, Nat.not_le_of_lt (hwf.range k (by rw [hfn]; rfl))⟩
    have hattached (g : PlacedFunction) :
        Bar.Register.pciemAttachFunction (hostOf (sv k) k) us.slot.busMode k g = .ok g := by
      rw [hvirtual, Bar.Register.pciemAttachFunction.eq_def, if_neg hjoins]
      rfl
    simp only [hinit', bind, Except.bind, hattached]
    rfl

/-- What the loops of REGISTER make of the functions where they come to their end. -/
theorem registerFunctions_placed (hwf : WellFormed us) {func0 : RootComplex δ}
    (h0 : us.slot.funcs 0 = some func0) (h : (registerFunctions sv us).1 = .ok ()) :
    ∃ g, Bar.Register.pciemCompleteInit (hostOf (sv 0) 0) us.slot.busMode 0
        (buildFunction us.slot.numFuncs 0 func0.placed) = .ok g ∧
      (List.range' 1 (pciemMaxFunctions - 1)).foldlM
        (Bar.Register.registerOthers (fun k ↦ hostOf (sv k) k) us.slot.busMode)
        (Function.update (placedSlot (buildFunctions us).slot).funcs 0 (some g)) =
          .ok (placedSlot (registerFunctions sv us).2.slot).funcs := by
  obtain ⟨-, hrest⟩ := andThen_ok_iff.mp h
  obtain ⟨hinit, hothers⟩ := andThen_ok_iff.mp hrest
  have hbuilt := kept_buildFunctions us
  have hkept := hbuilt.trans
    (kept_onFunc (k := 0) (frame_completeInit (sv 0) 0) (buildFunctions us))
  have hfunc0 : (buildFunctions us).slot.funcs 0 =
      some { func0 with placed := buildFunction us.slot.numFuncs 0 func0.placed } :=
    congrArg (Option.map _) h0
  obtain ⟨hloop, -⟩ := foldlM_of_forEach (g := fun s ↦ (placedSlot s.slot).funcs)
    (f := Bar.Register.registerOthers (fun k ↦ hostOf (sv k) k) us.slot.busMode)
    (P := fun s ↦ WellFormed s ∧ s.slot.busMode = us.slot.busMode) (fun k hk s hs hok ↦ by
      have hne : k ≠ 0 := Nat.ne_of_gt (List.mem_range'_1.mp hk).1
      have hnext := kept_registerOther sv hs.1 hne
      exact ⟨⟨hnext.wellFormed hs.1, hnext.busMode.trans hs.2⟩,
        hs.2 ▸ registerOther_placed hs.1 hne hok⟩)
    ⟨hkept.wellFormed hwf, hkept.busMode⟩ hothers
  rw [registerFunctions_of_ok sv hinit]
  change (onFunc 0 (pciemCompleteInit (sv 0) 0) (buildFunctions us)).1 = .ok () at hinit
  change _ = Except.ok (placedSlot (forEach (registerOther sv)
    (List.range' 1 (pciemMaxFunctions - 1))
    (onFunc 0 (pciemCompleteInit (sv 0) 0) (buildFunctions us)).2).2.slot).funcs at hloop
  rw [onFunc_of_some hfunc0] at hinit hloop ⊢
  have hplaced := completeInit_placed hinit
  rw [← hwf.mode 0 func0 h0] at hloop ⊢
  generalize pciemCompleteInit (sv 0) 0 ((buildFunctions us).world, _) = result
    at hloop hplaced ⊢
  refine ⟨result.2.2.placed, hplaced, ?_⟩
  rw [← funcs_setFunc (buildFunctions us) result.2.1 0 result.2.2]
  exact hloop

/-- REGISTER as the model of a slot has it, where it succeeds, does to the registers and the BARs
what it does as the model of single functions has it. -/
theorem register_placed {fd : Except Errno Unit} (hwf : WellFormed us)
    (h : (pciemIoctlRegister sv fd us).1 = .ok ()) :
    Bar.Register.pciemIoctlRegister (.ok ()) (.ok ()) (fun k ↦ hostOf (sv k) k)
      (placedSlot us.slot) = .ok (placedSlot (pciemIoctlRegister sv fd us).2.slot) := by
  obtain ⟨hstart, hrest⟩ := andThen_ok_iff.mp h
  obtain ⟨hfunctions, -⟩ := andThen_ok_iff.mp hrest
  have hslot : (pciemStartRegistration us).2.slot = us.slot := by
    rw [pciemStartRegistration]
    split_ifs
    · rfl
    · split
      · rfl
      · rfl
      · rfl
  have hkept := kept_startRegistration us
  obtain ⟨func0, h0⟩ : ∃ func0, us.slot.funcs 0 = some func0 := by
    rw [pciemStartRegistration] at hstart
    split_ifs at hstart with hnone
    exact Option.ne_none_iff_exists'.mp fun hno ↦ hnone (by rw [hno]; rfl)
  rw [pciemIoctlRegister, andThen_of_ok hstart, andThen_of_ok hfunctions,
    onError_of_ok (onError_fst.symm.trans hfunctions)]
  rw [onError_fst] at hfunctions
  have hstarted : (pciemStartRegistration us).2.slot.funcs 0 = some func0 := by rw [hslot, h0]
  obtain ⟨g, hinit, hothers⟩ :=
    registerFunctions_placed (hkept.wellFormed hwf) hstarted hfunctions
  have hend := keeps_registerFunctions sv _ (hkept.wellFormed hwf)
  have hbuilt : (placedSlot (buildFunctions (pciemStartRegistration us).2).slot).funcs =
      fun k ↦ ((placedSlot us.slot).funcs k).map
        (Bar.Register.builtFunction (placedSlot us.slot) k) := by
    funext k
    rw [placedSlot_funcs, placedSlot_funcs, buildFunctions]
    dsimp only
    rw [hslot, Option.map_map, Option.map_map]
    rfl
  rw [hbuilt, hslot] at hothers
  rw [hslot] at hinit
  have hfunc0 : ((placedSlot us.slot).funcs 0).map
      (Bar.Register.builtFunction (placedSlot us.slot) 0) =
        some (buildFunction us.slot.numFuncs 0 func0.placed) := by
    rw [funcs_of_some h0]
    rfl
  have hlast : placedSlot (registerFunctions sv (pciemStartRegistration us).2).2.slot =
      { placedSlot us.slot with
        funcs :=
          (placedSlot (registerFunctions sv (pciemStartRegistration us).2).2.slot).funcs } := by
    rw [placedSlot, placedSlot, hend.busMode, hend.numFuncs, hslot]
  have hmode : (placedSlot us.slot).busMode = us.slot.busMode := rfl
  rw [Bar.Register.pciemIoctlRegister]
  simp only [bind, Except.bind, hfunc0]
  rw [hmode, hinit]
  dsimp only
  rw [hothers]
  exact congrArg Except.ok hlast.symm

/-- In a slot that has been registered, every function is one that its own calls and
`pciem_complete_init` have made. -/
theorem initialised_of_run (ops : Attach.Hijack.PciOps δ) (hostDevices : ℕ → Bool)
    (pool : PciemMempool) (cs : List (Command δ)) (hcs : ∀ c ∈ cs, Command.Configures c)
    {fd : Except Errno Unit} (hus : us = cs.foldl step (opened ops hostDevices pool))
    (h : (pciemIoctlRegister sv fd us).1 = .ok ()) {v : RootComplex δ}
    (hv : (pciemIoctlRegister sv fd us).2.slot.funcs k = some v) :
    ∃ allocated calls, Bar.Register.pciemCompleteInit (hostOf (sv k) k) us.slot.busMode k
      (Bar.Register.builtFunction (placedSlot us.slot) k (setUp allocated calls)) =
        .ok v.placed := by
  have hwf : WellFormed us := wellFormed_of_reachable ⟨ops, hostDevices, pool, cs, hus⟩
  have hsome := (keeps_register sv fd us hwf).isSome k
  rw [hv] at hsome
  obtain ⟨v₀, hv₀⟩ := Option.isSome_iff_exists.mp hsome.symm
  obtain ⟨allocated, calls, hsetUp⟩ :=
    allSetUp_run ops hostDevices pool cs hcs k v₀ (hus ▸ hv₀)
  obtain ⟨g, hg, hinit⟩ := Bar.Register.register_complete_init (register_placed hwf h)
    (hwf.range k hsome.symm) (funcs_of_some hv₀)
  rw [funcs_of_some hv] at hg
  cases hg
  exact ⟨allocated, calls, hsetUp ▸ hinit⟩

end Registration

end Pciem.Slot.Functions
