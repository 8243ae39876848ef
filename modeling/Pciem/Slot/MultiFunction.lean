import Pciem.Slot.Invariant

namespace Pciem.Slot.MultiFunction

open Kernel Library.Unwinding Bar.Placement Register Ioctl Effects Invariant
open State hiding PciemRootComplex
open Attach.Hijack (PciOps pciSlot pciFunc)
open Bar.Register (PciemBusMode)

variable {δ : Type} {us : PciemUserspaceState δ} {k : ℕ} {sv : ℕ → Services}
  {fd : Except Errno Unit}

section Attached

def vphGetRcForDevfn (funcs : ℕ → Option δ) (devfn : ℕ) : Option δ :=
  if pciSlot devfn ≠ 0 then none
  else if pciFunc devfn ≥ pciemMaxFunctions then none
  else funcs (pciFunc devfn)

/-- Configuration accesses to the device get to the function at the address, on a root bus of
the slot by way of the bridge and on the bus of the host by way of the proxy of function 0. -/
def Answers (us : PciemUserspaceState δ) (func0 : RootComplex δ) (dev : PciDev) (address : δ) :
    Prop :=
  match dev.bus with
  | .root n => vphGetRcForDevfn (us.world.priv n) dev.devfn = some address
  | .host => us.world.ops = .proxy func0.address ∧
      pciSlot dev.devfn = func0.hijack.hijackedSlot ∧
      func0.siblingFuncs (pciFunc dev.devfn) = some address

/-- Function `k` has a device beside that of function 0, and answers its accesses. -/
structure Attached (us : PciemUserspaceState δ) (func0 : RootComplex δ) (dev0 : PciDev) (k : ℕ)
    (fn : RootComplex δ) (dev : PciDev) : Prop where
  pciemPdev : fn.pciemPdev = some dev
  present : us.world.devices dev = true
  bus : dev.bus = dev0.bus
  slot : pciSlot dev.devfn = pciSlot dev0.devfn
  func : pciFunc dev.devfn = k
  answers : Answers us func0 dev fn.address

/-- REGISTER returns 0 and every function of the slot is attached. -/
def RegistersAll (sv : ℕ → Services) (us : PciemUserspaceState δ) : Prop :=
  (pciemIoctlRegister sv (.ok ()) us).1 = .ok () ∧
    ∃ func0 dev0, (pciemIoctlRegister sv (.ok ()) us).2.slot.funcs 0 = some func0 ∧
      func0.pciemPdev = some dev0 ∧
      ∀ k fn, (pciemIoctlRegister sv (.ok ()) us).2.slot.funcs k = some fn →
        ∃ dev, Attached (pciemIoctlRegister sv (.ok ()) us).2 func0 dev0 k fn dev

end Attached

/-- Only function 0 can have a device on the root bus of function 0. -/
def Alone (us : PciemUserspaceState δ) : Prop :=
  ∃ func0 n, us.slot.funcs 0 = some func0 ∧ func0.busMode = .virtualRoot ∧
    func0.rootBus = some (.root n) ∧ n < us.world.nextBus ∧
    ∀ j, j ≠ 0 → us.world.devices ⟨.root n, j⟩ = false

section VirtualRoot

theorem Alone.kept {us' : PciemUserspaceState δ} (h : Alone us) (hkept : Kept us us')
    (hfunc : us'.slot.funcs 0 = us.slot.funcs 0) : Alone us' := by
  obtain ⟨func0, n, h0, hmode, hbus, hn, habs⟩ := h
  exact ⟨func0, n, hfunc.trans h0, hmode, hbus, Nat.lt_of_lt_of_le hn hkept.nextBus,
    fun j hj ↦ hkept.absent n j hn (habs j hj)⟩

theorem alone_init (hmode : us.slot.busMode = .virtualRoot) (hwf : WellFormed us)
    (h0 : (us.slot.funcs 0).isSome)
    (hok : (onFunc 0 (pciemCompleteInit (sv 0) 0) us).1 = .ok ()) :
    Alone (onFunc 0 (pciemCompleteInit (sv 0) 0) us).2 := by
  obtain ⟨func0, h0⟩ := Option.isSome_iff_exists.mp h0
  have hmode0 : func0.busMode = .virtualRoot := (hwf.mode 0 func0 h0).trans hmode
  rw [onFunc_of_some h0] at hok ⊢
  have hown := onOwnBus_completeInit (s := (us.world, func0)) (sv 0) 0 hmode0 hok
  refine ⟨_, us.world.nextBus, setFunc_self _ _ _ _, hown.busMode.trans hmode0, hown.rootBus, ?_,
    fun j hj ↦ ?_⟩
  · exact Nat.lt_of_lt_of_eq (Nat.lt_succ_self _) hown.nextBus.symm
  · refine (hown.only j).trans ?_
    rw [decide_eq_false hj, Bool.false_and]

theorem onFunc_zero {x : FunctionCall δ} (hk : k ≠ 0) :
    (onFunc k x us).2.slot.funcs 0 = us.slot.funcs 0 := by
  cases hfn : us.slot.funcs k with
  | none => rw [onFunc_of_none hfn]
  | some fn =>
    rw [onFunc_of_some hfn]
    exact setFunc_of_ne (Ne.symm hk) _ _ _

/-- The scan of the bus of function 0 came before the function was known to the bus. -/
theorem attachFunc_ne_ok (h : Alone us) (hk : k ≠ 0) (hfn : (us.slot.funcs k).isSome) :
    (attachFunc (sv k) k us).1 ≠ .ok () := by
  obtain ⟨func0, n, h0, hmode, hbus, -, habs⟩ := h
  obtain ⟨fn, hfn⟩ := Option.isSome_iff_exists.mp hfn
  rw [attachFunc, h0, hfn]
  dsimp only
  have hjoined := attachFunction_joined (k := k) (sv k) fn hmode us.world
  generalize pciemAttachFunction (sv k) k us.world func0 fn = result at hjoined ⊢
  cases hjoined with
  | refused => simp
  | noDevice => simp
  | joined hbus' hdev =>
    rw [hbus] at hbus'
    cases hbus'
    rw [World.getSlot, habs k hk] at hdev
    cases hdev

theorem registerOther_ne_ok_of_alone (h : Alone us) (hk : k ≠ 0)
    (hfn : (us.slot.funcs k).isSome) : (registerOther sv k us).1 ≠ .ok () := by
  rw [registerOther, Ne, andThen_ok_iff, not_and]
  have hkept := kept_onFunc (k := k) (frame_completeInit (sv k) k) us
  exact fun _ ↦ attachFunc_ne_ok (h.kept hkept (onFunc_zero hk)) hk (hkept.isSome k ▸ hfn)

end VirtualRoot

theorem registerOther_ne_ok_of_attach (hwf : WellFormed us)
    (hmode : us.slot.busMode = .attachToHost)
    (hk : k ≠ 0) (hfn : (us.slot.funcs k).isSome) : (registerOther sv k us).1 ≠ .ok () := by
  obtain ⟨fn, hfn⟩ := Option.isSome_iff_exists.mp hfn
  rw [registerOther, Ne, andThen_ok_iff, onFunc_of_some hfn]
  rintro ⟨hok, -⟩
  have hattach := (hwf.mode k fn hfn).trans hmode
  exact hk (eq_zero_of_completeInit_attach (s := (us.world, fn)) hattach hok)

/-- Once function 0 is initialised, no other function gets through its turn. -/
theorem registerOther_ne_ok (sv : ℕ → Services) (hwf : WellFormed us) (hk : k ≠ 0)
    (hfn : (us.slot.funcs k).isSome)
    (hok : (onFunc 0 (pciemCompleteInit (sv 0) 0) us).1 = .ok ()) :
    (registerOther sv k (onFunc 0 (pciemCompleteInit (sv 0) 0) us).2).1 ≠ .ok () := by
  have hinit := kept_onFunc (k := 0) (frame_completeInit (sv 0) 0) us
  have hfn' := (hinit.isSome k) ▸ hfn
  cases hmode : us.slot.busMode with
  | virtualRoot =>
    exact registerOther_ne_ok_of_alone (alone_init hmode hwf (hwf.zero k hfn) hok) hk hfn'
  | attachToHost =>
    exact registerOther_ne_ok_of_attach (hinit.wellFormed hwf) (hinit.busMode.trans hmode) hk hfn'

/-- The first function after function 0 that is there. -/
structure First (us : PciemUserspaceState δ) (k : ℕ) : Prop where
  ne : k ≠ 0
  isSome : (us.slot.funcs k).isSome
  before : ∀ j, j ≠ 0 → j < k → us.slot.funcs j = none

theorem exists_first (hk : k ≠ 0) (hfn : (us.slot.funcs k).isSome) : ∃ j, First us j := by
  have hex : ∃ j, j ≠ 0 ∧ (us.slot.funcs j).isSome := ⟨k, hk, hfn⟩
  classical
  refine ⟨Nat.find hex, (Nat.find_spec hex).1, (Nat.find_spec hex).2, fun j hj hlt ↦ ?_⟩
  by_contra hsome
  exact Nat.find_min hex hlt ⟨hj, Option.isSome_iff_ne_none.mpr hsome⟩

theorem range'_eq_append : ∀ k < pciemMaxFunctions, k ≠ 0 →
    List.range' 1 (pciemMaxFunctions - 1) =
      List.range' 1 (k - 1) ++ k :: List.range' (k + 1) (pciemMaxFunctions - 1 - k) := by
  decide

/-- The loop of REGISTER ends with the first function after function 0 that is there. -/
theorem registerFunctions_first (sv : ℕ → Services) (hwf : WellFormed us) (hfirst : First us k)
    (hok : (onFunc 0 (pciemCompleteInit (sv 0) 0) (buildFunctions us)).1 = .ok ()) :
    registerFunctions sv us =
      registerOther sv k (onFunc 0 (pciemCompleteInit (sv 0) 0) (buildFunctions us)).2 := by
  have hbuilt := kept_buildFunctions us
  have hinit := kept_onFunc (k := 0) (frame_completeInit (sv 0) 0) (buildFunctions us)
  have hfn := hbuilt.isSome k ▸ hfirst.isSome
  have hne := registerOther_ne_ok sv (hbuilt.wellFormed hwf) hfirst.ne hfn hok
  rw [registerFunctions_of_ok sv hok, range'_eq_append k (hwf.range k hfirst.isSome) hfirst.ne]
  cases hresult : (registerOther sv k
      (onFunc 0 (pciemCompleteInit (sv 0) 0) (buildFunctions us)).2).1 with
  | ok _ => exact absurd hresult hne
  | error e =>
    refine forEach_of_first (fun j hj ↦ registerOther_of_none sv ?_) hresult
    obtain ⟨hle, hlt⟩ := List.mem_range'_1.mp hj
    have hnone := (hinit.isSome j).trans (hbuilt.isSome j)
    rw [hfirst.before j (by omega) (by omega)] at hnone
    exact Option.isNone_iff_eq_none.mp (Option.isSome_eq_false_iff.mp hnone)

theorem registerFunctions_ne_ok (sv : ℕ → Services) (hwf : WellFormed us) (hk : k ≠ 0)
    (hfn : (us.slot.funcs k).isSome) : (registerFunctions sv us).1 ≠ .ok () := by
  obtain ⟨j, hfirst⟩ := exists_first hk hfn
  have hbuilt := kept_buildFunctions us
  cases hok : (onFunc 0 (pciemCompleteInit (sv 0) 0) (buildFunctions us)).1 with
  | error e =>
    rw [registerFunctions_of_error sv hok]
    nofun
  | ok _ =>
    rw [registerFunctions_first sv hwf hfirst hok]
    exact registerOther_ne_ok sv (hbuilt.wellFormed hwf) hfirst.ne
      (hbuilt.isSome j ▸ hfirst.isSome) hok

/-- Whatever else happens, a slot with a function besides function 0 is not registered. -/
theorem register_ne_ok (hwf : WellFormed us) (hk : k ≠ 0) (hfn : (us.slot.funcs k).isSome)
    (sv : ℕ → Services) (fd : Except Errno Unit) : (pciemIoctlRegister sv fd us).1 ≠ .ok () := by
  have hkept := kept_startRegistration us
  rw [pciemIoctlRegister, Ne, andThen_ok_iff, andThen_ok_iff, onError_fst]
  rintro ⟨-, hok, -⟩
  exact registerFunctions_ne_ok sv (hkept.wellFormed hwf) hk (hkept.isSome k ▸ hfn) hok

theorem not_registersAll (hus : Reachable us) (hk : k ≠ 0) (hfn : (us.slot.funcs k).isSome)
    (sv : ℕ → Services) : ¬ RegistersAll sv us :=
  fun h ↦ register_ne_ok (wellFormed_of_reachable hus) hk hfn sv (.ok ()) h.1

section TwoFunctions

/-- A host on which every call succeeds. -/
def succeeding : Services where
  platform := .ok ()
  resource _ := .ok ()
  entry _ := true
  bridge := .ok ()
  created _ := true
  found := ⟨true, some 3, true⟩
  scanned := true
  scanWrites := []
  assignWrites := []

theorem allSucceed_succeeding : succeeding.AllSucceed :=
  ⟨rfl, fun _ ↦ rfl, fun _ ↦ rfl, rfl, fun _ ↦ rfl, ⟨rfl, rfl, rfl⟩, rfl⟩

def endpoint : Device.Setup.PciemConfigSpace where
  vendorId := 0x1F0C
  deviceId := 0x0001
  subsysVendorId := 0
  subsysDeviceId := 0
  revision := 0
  classCode := fun _ ↦ 0xFF
  headerType := 0

def createTwo (flags : BitVec 32) : List (Command ℕ) :=
  [.createDevice true ⟨flags, 0⟩ (some 0) true, .createDevice true ⟨flags, 1⟩ (some 1) true,
    .configure true 0 (.setConfig endpoint), .configure true 1 (.setConfig endpoint)]

/-- An fd for which functions 0 and 1 have been created and configured. -/
def twoFunctions (flags : BitVec 32) : PciemUserspaceState ℕ :=
  (createTwo flags).foldl step
    (opened .hardware (fun _ ↦ false) ⟨12, 0x1000, 0x1000, fun _ ↦ false⟩)

theorem reachable_twoFunctions (flags : BitVec 32) : Reachable (twoFunctions flags) :=
  ⟨_, _, _, createTwo flags, rfl⟩

theorem not_registersAll_two_functions : ¬ RegistersAll (fun _ ↦ succeeding) (twoFunctions 0) :=
  not_registersAll (k := 1) (reachable_twoFunctions 0) (by decide) rfl _

/-- Every call of the kernel succeeds, and REGISTER fails. -/
theorem second_function_fails : ¬ ∀ (us : PciemUserspaceState ℕ) (sv : ℕ → Services),
    Reachable us → (us.slot.funcs 0).isSome → (∃ k, k ≠ 0 ∧ (us.slot.funcs k).isSome) →
      (∀ k, (sv k).AllSucceed) → RegistersAll sv us := by
  intro h
  have hregisters := h (twoFunctions 0) (fun _ ↦ succeeding) (reachable_twoFunctions 0) rfl
    ⟨1, by decide, rfl⟩ fun _ ↦ allSucceed_succeeding
  exact register_ne_ok (k := 1) (wellFormed_of_reachable (reachable_twoFunctions 0)) (by decide)
    rfl _ _ hregisters.1

end TwoFunctions

end Pciem.Slot.MultiFunction
