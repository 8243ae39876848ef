import Pciem.Slot.Ioctl

namespace Pciem.Slot.Effects

open Kernel Library.Unwinding Bar.Table Bar.Placement Config.Capabilities Device.Setup Register
  Ioctl
open State hiding PciemRootComplex
open Attach.Hijack (PciOps)
open Bar.Register (PciemBusMode storeBars)

variable {δ : Type} {sv : Services} {k : ℕ} {s : FunctionState δ}

/-- The state with other BARs of the function. -/
def withPlaced (s : FunctionState δ) (placed : PlacedFunction) : FunctionState δ :=
  (s.1, { s.2 with placed })

section Bars

theorem forEach_prepareBar (sv : Services) (is : List ℕ) (s : FunctionState δ) : ∃ r placed,
    forEach (prepareBar sv) is s = (r, withPlaced s placed) := by
  induction is generalizing s with
  | nil => exact ⟨.ok (), s.2.placed, rfl⟩
  | cons i is ih =>
    cases h : completeInitBar sv.resource s.2.placed i with
    | ok placed =>
      have hi : prepareBar sv i s = (.ok (), withPlaced s placed) := by
        simp only [prepareBar, h, withPlaced]
      obtain ⟨r, placed', hrest⟩ := ih (withPlaced s placed)
      refine ⟨r, placed', ?_⟩
      rw [forEach, andThen_of_ok (by rw [hi]), hi, hrest]
      rfl
    | error e =>
      have hi : prepareBar sv i s = (.error e, s) := by simp only [prepareBar, h]
      refine ⟨.error e, s.2.placed, ?_⟩
      rw [forEach, andThen_of_error (by rw [hi]), hi]
      rfl

theorem forEach_reserveBar (sv : Services) (is : List ℕ) (s : FunctionState δ) : ∃ r,
    forEach (reserveBar sv) is s = (r, s) := by
  induction is with
  | nil => exact ⟨.ok (), rfl⟩
  | cons i is ih =>
    obtain ⟨r, hrest⟩ := ih
    by_cases h : Exposed s.2.placed.rc i ∧ (s.2.placed.places i).allocatedRes = true ∧
        sv.entry i = false
    · have hi : reserveBar sv i s = (.error .enomem, s) := if_pos h
      refine ⟨.error .enomem, ?_⟩
      rw [forEach, andThen_of_error (by rw [hi]), hi]
    · have hi : reserveBar sv i s = (.ok (), s) := if_neg h
      refine ⟨r, ?_⟩
      rw [forEach, andThen_of_ok (by rw [hi]), hi, hrest]

def cleanedPlace (place : PciemBarPlace) : PciemBarPlace :=
  if place.carvedStart ≠ 0 then
    { place with allocatedRes := false, carvedStart := 0, carvedEnd := 0 }
  else
    { place with allocatedRes := false }

theorem foldl_cleanupBar (s : FunctionState δ) (n : ℕ) : ∃ pool,
    (List.range n).foldl cleanupBar s = ({ s.1 with pool }, { s.2 with placed :=
      { s.2.placed with places := fun i ↦
        if i < n then cleanedPlace (s.2.placed.places i) else s.2.placed.places i } }) ∧
    ((∀ i < n, (s.2.placed.places i).carvedStart = 0) → pool = s.1.pool) := by
  induction n with
  | zero => exact ⟨s.1.pool, rfl, fun _ ↦ rfl⟩
  | succ n ih =>
    obtain ⟨pool, heq, hpool⟩ := ih
    rw [List.range_succ, List.foldl_append, heq, List.foldl_cons, List.foldl_nil, cleanupBar]
    dsimp only
    rw [if_neg (Nat.lt_irrefl n)]
    refine ⟨_, Prod.ext rfl ?_, fun hzero ↦ ?_⟩
    · have hplaces : Function.update (fun i ↦ if i < n then cleanedPlace (s.2.placed.places i)
          else s.2.placed.places i) n (pciemCleanupBar pool (s.2.placed.places n)).2 =
          fun i ↦ if i < n + 1 then cleanedPlace (s.2.placed.places i)
            else s.2.placed.places i := by
        funext i
        by_cases hi : i = n
        · subst hi
          rw [Function.update_self, if_pos (Nat.lt_succ_self i), pciemCleanupBar, cleanedPlace]
          split_ifs <;> rfl
        · rw [Function.update_of_ne hi]
          have hiff : i < n + 1 ↔ i < n := by omega
          simp only [hiff]
      rw [hplaces]
    · rw [pciemCleanupBar, if_neg (not_not.mpr (hzero n (Nat.lt_succ_self n)))]
      exact hpool fun i hi ↦ hzero i (Nat.lt_succ_of_lt hi)

def cleaned (f : PlacedFunction) : PlacedFunction :=
  { f with places := fun i ↦
      if i < pciStdNumBars then cleanedPlace (f.places i) else f.places i }

theorem cleanupBars_eq (s : FunctionState δ) : ∃ pool,
    pciemCleanupBars s = ({ s.1 with pool }, { s.2 with placed := cleaned s.2.placed }) ∧
      ((∀ i < pciStdNumBars, (s.2.placed.places i).carvedStart = 0) → pool = s.1.pool) :=
  foldl_cleanupBar s pciStdNumBars

end Bars

/-- The part of `pciem_complete_init` before the one that depends on the bus mode. -/
def prepare (sv : Services) : FunctionCall δ :=
  andThen (forEach (prepareBar sv) (List.range pciStdNumBars)) (pciemReserveBarsRes sv)

theorem prepare_eq (sv : Services) (s : FunctionState δ) : ∃ r placed,
    prepare sv s = (r, withPlaced s placed) := by
  obtain ⟨r, placed, hbars⟩ := forEach_prepareBar sv (List.range pciStdNumBars) s
  obtain ⟨r', hreserve⟩ := forEach_reserveBar sv (List.range pciStdNumBars)
    (withPlaced s placed)
  cases r with
  | ok _ =>
    refine ⟨r', placed, ?_⟩
    rw [prepare, andThen_of_ok (by rw [hbars]), hbars]
    exact hreserve
  | error e =>
    refine ⟨.error e, placed, ?_⟩
    rw [prepare, andThen_of_error (by rw [hbars]), hbars]

theorem completeInit_eq (sv : Services) (k : ℕ) : (pciemCompleteInit sv k : FunctionCall δ) =
    andThen (ofExcept sv.platform)
      (onError (andThen (prepare sv) (onError (initMode sv k) failDevice)) pciemCleanupBars) := by
  rw [prepare, andThen_assoc]
  rfl

/-- How far the initialisation of a function gets. -/
inductive Stage (sv : Services) (k : ℕ) (s : FunctionState δ) :
    Except Errno Unit × FunctionState δ → Prop
  /-- The platform device is not there. -/
  | noPlatform {e : Errno} : sv.platform = .error e → Stage sv k s (.error e, s)
  /-- A BAR cannot be prepared. -/
  | noMemory {e : Errno} {placed : PlacedFunction} : sv.platform = .ok () →
      prepare sv s = (.error e, withPlaced s placed) →
      Stage sv k s (.error e, pciemCleanupBars (withPlaced s placed))
  /-- The function gets no device. -/
  | noDevice {e : Errno} {placed : PlacedFunction} : sv.platform = .ok () →
      prepare sv s = (.ok (), withPlaced s placed) →
      (initMode sv k (withPlaced s placed)).1 = .error e →
      Stage sv k s
        (.error e, pciemCleanupBars (failDevice (initMode sv k (withPlaced s placed)).2))
  | done {placed : PlacedFunction} : sv.platform = .ok () →
      prepare sv s = (.ok (), withPlaced s placed) →
      (initMode sv k (withPlaced s placed)).1 = .ok () →
      Stage sv k s (initMode sv k (withPlaced s placed))

theorem completeInit_stage (sv : Services) (k : ℕ) (s : FunctionState δ) :
    Stage sv k s (pciemCompleteInit sv k s) := by
  rw [completeInit_eq]
  cases hplatform : sv.platform with
  | error e => exact .noPlatform hplatform
  | ok _ =>
    change Stage sv k s (onError (andThen (prepare sv) (onError (initMode sv k) failDevice))
      pciemCleanupBars s)
    obtain ⟨r, placed, hprepare⟩ := prepare_eq sv s
    cases r with
    | error e =>
      have hfail : andThen (prepare sv) (onError (initMode sv k) failDevice) s =
          (.error e, withPlaced s placed) := by
        rw [andThen_of_error (by rw [hprepare]), hprepare]
      rw [onError_of_error (by rw [hfail]), hfail]
      exact .noMemory hplatform hprepare
    | ok _ =>
      have hrest : andThen (prepare sv) (onError (initMode sv k) failDevice) s =
          onError (initMode sv k) failDevice (withPlaced s placed) := by
        rw [andThen_of_ok (by rw [hprepare]), hprepare]
      cases hmode : (initMode sv k (withPlaced s placed)).1 with
      | error e =>
        rw [onError_of_error (by rw [hrest, onError_fst, hmode]), hrest, onError_of_error hmode]
        exact .noDevice hplatform hprepare hmode
      | ok _ =>
        rw [onError_of_ok (by rw [hrest, onError_fst, hmode]), hrest, onError_of_ok hmode]
        exact .done hplatform hprepare hmode

section Mode

theorem initMode_of_virtual (h : s.2.busMode = .virtualRoot) :
    initMode sv k s = pciemInitVirtualRootMode sv k s := by
  rw [initMode, h]

theorem initMode_of_attach (h : s.2.busMode = .attachToHost) :
    initMode sv k s = pciemInitAttachToHostMode sv k s := by
  rw [initMode, h]

/-- A function on a root bus of its own, with the device that was made for it. -/
structure OnOwnBus (created : Bool) (k : ℕ) (s s' : FunctionState δ) : Prop where
  address : s'.2.address = s.2.address
  busMode : s'.2.busMode = s.2.busMode
  rootBus : s'.2.rootBus = some (.root s.1.nextBus)
  bridgePriv : s'.2.bridgePriv = some s.1.nextBus
  pciemPdev : s'.2.pciemPdev = if created then some ⟨.root s.1.nextBus, k⟩ else none
  nextBus : s'.1.nextBus = s.1.nextBus + 1
  rootBuses : s'.1.rootBuses = Function.update s.1.rootBuses s.1.nextBus true
  devices : ∀ bus, bus ≠ .root s.1.nextBus → ∀ j, s'.1.devices ⟨bus, j⟩ = s.1.devices ⟨bus, j⟩
  only : ∀ j, s'.1.devices ⟨.root s.1.nextBus, j⟩ = (decide (j = k) && created)
  ops : s'.1.ops = s.1.ops
  pool : s'.1.pool = s.1.pool
  hijack : s'.2.hijack = s.2.hijack
  priv : s'.1.priv s.1.nextBus = Function.update (fun _ ↦ none) k (some s.2.address)

theorem onOwnBus_initVirtual (hbridge : sv.bridge = .ok ()) (k : ℕ) (s : FunctionState δ) :
    OnOwnBus (sv.created k) k s (pciemInitVirtualRootMode sv k s).2 ∧
      (pciemInitVirtualRootMode sv k s).1 =
        if sv.created k then .ok () else .error .enodev := by
  have honly (j : ℕ) : (s.1.scanRootBus (Function.update (fun _ ↦ none) k (some s.2.address))
      sv.created).devices ⟨.root s.1.nextBus, j⟩ = (decide (j = k) && sv.created k) := by
    rw [World.scanRootBus]
    dsimp only
    rw [if_pos rfl]
    by_cases hj : j = k
    · simp [hj]
    · simp [hj]
  have hslot : (s.1.scanRootBus (Function.update (fun _ ↦ none) k (some s.2.address))
      sv.created).getSlot (.root s.1.nextBus) k =
        if sv.created k then some ⟨.root s.1.nextBus, k⟩ else none := by
    rw [World.getSlot, honly]
    simp
  rw [pciemInitVirtualRootMode, hbridge]
  dsimp only
  rw [hslot]
  refine ⟨⟨rfl, rfl, rfl, rfl, rfl, rfl, rfl, fun bus hbus j ↦ if_neg hbus, honly, rfl,
    rfl, rfl, Function.update_self _ _ _⟩, ?_⟩
  cases sv.created k with
  | true => rfl
  | false => rfl

theorem initVirtual_of_error {e : Errno} (hbridge : sv.bridge = .error e) :
    pciemInitVirtualRootMode sv k s = (.error e, s) := by
  rw [pciemInitVirtualRootMode, hbridge]

end Mode

/-- What no call on a function changes. -/
structure Frame (s s' : FunctionState δ) : Prop where
  address : s'.2.address = s.2.address
  busMode : s'.2.busMode = s.2.busMode
  nextBus : s.1.nextBus ≤ s'.1.nextBus
  absent : ∀ n j, n < s.1.nextBus → s.1.devices ⟨.root n, j⟩ = false →
    s'.1.devices ⟨.root n, j⟩ = false

section Frame

variable {s' s'' : FunctionState δ}

theorem Frame.refl (s : FunctionState δ) : Frame s s :=
  ⟨rfl, rfl, Nat.le_refl _, fun _ _ _ h ↦ h⟩

theorem Frame.trans (h : Frame s s') (h' : Frame s' s'') : Frame s s'' where
  address := h'.address.trans h.address
  busMode := h'.busMode.trans h.busMode
  nextBus := Nat.le_trans h.nextBus h'.nextBus
  absent n j hn habs :=
    h'.absent n j (Nat.lt_of_lt_of_le hn h.nextBus) (h.absent n j hn habs)

theorem frame_dropPdev (s : FunctionState δ) : Frame s (dropPdev s) := by
  rw [dropPdev]
  split
  · exact .refl s
  · split
    · exact ⟨rfl, rfl, Nat.le_refl _, fun _ _ _ h ↦ h⟩
    · refine ⟨rfl, rfl, Nat.le_refl _, fun n j _ h ↦ ?_⟩
      rw [World.stopAndRemove]
      dsimp only
      rw [Function.update_apply]
      split_ifs
      · rfl
      · exact h

theorem frame_dropBus (s : FunctionState δ) : Frame s (dropBus s) := by
  rw [dropBus]
  split
  · split
    · exact .refl s
    · refine ⟨rfl, rfl, Nat.le_refl _, fun n j _ h ↦ ?_⟩
      rw [World.removeRootBus]
      dsimp only
      split_ifs
      · rfl
      · exact h
  · split
    · exact .refl s
    · exact ⟨rfl, rfl, Nat.le_refl _, fun _ _ _ h ↦ h⟩

theorem frame_failDevice (s : FunctionState δ) : Frame s (failDevice s) :=
  (frame_dropPdev s).trans (frame_dropBus _)

theorem frame_cleanupBars (s : FunctionState δ) : Frame s (pciemCleanupBars s) := by
  obtain ⟨pool, heq, -⟩ := cleanupBars_eq s
  rw [heq]
  exact ⟨rfl, rfl, Nat.le_refl _, fun _ _ _ h ↦ h⟩

theorem OnOwnBus.frame {created : Bool} (h : OnOwnBus created k s s') : Frame s s' where
  address := h.address
  busMode := h.busMode
  nextBus := h.nextBus ▸ Nat.le_succ _
  absent n j hn habs := by
    rw [h.devices]
    · exact habs
    · intro heq
      exact Nat.ne_of_lt hn (PciBus.root.inj heq)

theorem frame_initVirtual (sv : Services) (k : ℕ) (s : FunctionState δ) :
    Frame s (pciemInitVirtualRootMode sv k s).2 := by
  cases hbridge : sv.bridge with
  | error e =>
    rw [initVirtual_of_error hbridge]
    exact .refl s
  | ok _ => exact (onOwnBus_initVirtual hbridge k s).1.frame

theorem frame_initAttach (sv : Services) (k : ℕ) (s : FunctionState δ) :
    Frame s (pciemInitAttachToHostMode sv k s).2 := by
  rw [pciemInitAttachToHostMode]
  split
  · exact .refl s
  · split
    · exact .refl s
    · split
      · exact .refl s
      · dsimp only
        split
        · refine ⟨rfl, rfl, Nat.le_refl _, fun n j _ h ↦ ?_⟩
          rw [World.scanSingle]
          dsimp only
          rw [Function.update_of_ne]
          · exact h
          · nofun
        · exact ⟨rfl, rfl, Nat.le_refl _, fun _ _ _ h ↦ h⟩

theorem frame_initMode (sv : Services) (k : ℕ) (s : FunctionState δ) :
    Frame s (initMode sv k s).2 := by
  rw [initMode]
  split
  · exact frame_initVirtual sv k s
  · exact frame_initAttach sv k s

theorem frame_completeInit (sv : Services) (k : ℕ) (s : FunctionState δ) :
    Frame s (pciemCompleteInit sv k s).2 := by
  have hplaced (placed : PlacedFunction) : Frame s (withPlaced s placed) :=
    ⟨rfl, rfl, Nat.le_refl _, fun _ _ _ h ↦ h⟩
  have hstage := completeInit_stage sv k s
  generalize pciemCompleteInit sv k s = result at hstage ⊢
  cases hstage with
  | noPlatform => exact .refl s
  | noMemory => exact (hplaced _).trans (frame_cleanupBars _)
  | noDevice =>
    exact (((hplaced _).trans (frame_initMode sv k _)).trans (frame_failDevice _)).trans
      (frame_cleanupBars _)
  | done => exact (hplaced _).trans (frame_initMode sv k _)

end Frame

section Ok

/-- A function that is initialised got through the calls before its mode, and its mode. -/
theorem completeInit_of_ok (h : (pciemCompleteInit sv k s).1 = .ok ()) : ∃ placed,
    prepare sv s = (.ok (), withPlaced s placed) ∧
      (initMode sv k (withPlaced s placed)).1 = .ok () ∧
      pciemCompleteInit sv k s = initMode sv k (withPlaced s placed) := by
  have hstage := completeInit_stage sv k s
  generalize pciemCompleteInit sv k s = result at h hstage
  cases hstage with
  | noPlatform => cases h
  | noMemory => cases h
  | noDevice => cases h
  | done _ hprepare hmode => exact ⟨_, hprepare, hmode, rfl⟩

theorem onOwnBus_completeInit (sv : Services) (k : ℕ) (hmode : s.2.busMode = .virtualRoot)
    (h : (pciemCompleteInit sv k s).1 = .ok ()) :
    OnOwnBus true k s (pciemCompleteInit sv k s).2 := by
  obtain ⟨placed, -, hok, heq⟩ := completeInit_of_ok h
  have hmode' : (withPlaced s placed).2.busMode = .virtualRoot := hmode
  rw [initMode_of_virtual hmode'] at hok heq
  rw [heq]
  cases hbridge : sv.bridge with
  | error e =>
    rw [initVirtual_of_error hbridge] at hok
    cases hok
  | ok _ =>
    obtain ⟨hown, hresult⟩ := onOwnBus_initVirtual hbridge k (withPlaced s placed)
    cases hcreated : sv.created k with
    | false =>
      rw [hok, hcreated] at hresult
      cases hresult
    | true =>
      rw [hcreated] at hown
      exact ⟨hown.address, hown.busMode, hown.rootBus, hown.bridgePriv, hown.pciemPdev,
        hown.nextBus, hown.rootBuses, hown.devices, hown.only, hown.ops, hown.pool, hown.hijack,
        hown.priv⟩

/-- Only function 0 can be initialised on the bus of the host. -/
theorem eq_zero_of_completeInit_attach (hmode : s.2.busMode = .attachToHost)
    (h : (pciemCompleteInit sv k s).1 = .ok ()) : k = 0 := by
  obtain ⟨placed, -, hok, -⟩ := completeInit_of_ok h
  have hmode' : (withPlaced s placed).2.busMode = .attachToHost := hmode
  rw [initMode_of_attach hmode'] at hok
  by_contra hk
  rw [pciemInitAttachToHostMode, if_pos hk] at hok
  split at hok
  · cases hok
  · cases hok

end Ok

section Slot

variable {us us' : PciemUserspaceState δ} {v func0 fn : RootComplex δ}

theorem onFunc_of_none {x : FunctionCall δ} (h : us.slot.funcs k = none) :
    onFunc k x us = (.ok (), us) := by
  rw [onFunc, h]

theorem onFunc_of_some {x : FunctionCall δ} (h : us.slot.funcs k = some v) :
    onFunc k x us = ((x (us.world, v)).1, setFunc us (x (us.world, v)).2.1 k
      (x (us.world, v)).2.2) := by
  rw [onFunc, h]

theorem attachFunc_of_none {sv : Services} (h : us.slot.funcs k = none) :
    attachFunc sv k us = (.ok (), us) := by
  rw [attachFunc, h]
  cases us.slot.funcs 0 with
  | none => rfl
  | some func0 => rfl

theorem setFunc_self (us : PciemUserspaceState δ) (world : World δ) (k : ℕ) (v : RootComplex δ) :
    (setFunc us world k v).slot.funcs k = some v := Function.update_self _ _ _

theorem setFunc_of_ne {j : ℕ} (h : j ≠ k) (us : PciemUserspaceState δ) (world : World δ)
    (v : RootComplex δ) : (setFunc us world k v).slot.funcs j = us.slot.funcs j :=
  Function.update_of_ne h _ _

/-- What is done for a function that joins function 0 on the root bus of function 0. -/
inductive Joined (k : ℕ) (world : World δ) (func0 fn : RootComplex δ) :
    Except Errno Unit × World δ × RootComplex δ × RootComplex δ → Prop
  | refused {e : Errno} : k = 0 ∨ k ≥ pciemMaxFunctions ∨ func0.bridgePriv = none ∨
      func0.rootBus = none → Joined k world func0 fn (.error e, world, func0, fn)
  | noDevice {bus : PciBus} {priv : ℕ → ℕ → Option δ} : func0.rootBus = some bus →
      world.getSlot bus k = none →
      Joined k world func0 fn (.error .enodev, { world with priv }, func0,
        { fn with rootBus := some bus, pciemPdev := none })
  | joined {bus : PciBus} {priv : ℕ → ℕ → Option δ} {dev : PciDev} :
      func0.rootBus = some bus → world.getSlot bus k = some dev →
      Joined k world func0 fn (.ok (), { world with priv }, func0,
        { fn with rootBus := some bus, pciemPdev := some dev })

theorem attachFunction_joined (sv : Services) (fn : RootComplex δ)
    (hmode : func0.busMode = .virtualRoot) (world : World δ) :
    Joined k world func0 fn (pciemAttachFunction sv k world func0 fn) := by
  rw [pciemAttachFunction]
  split
  · rename_i hk
    exact .refused (or_assoc.mp (.inl hk))
  · rw [hmode]
    dsimp only
    cases hpriv : func0.bridgePriv with
    | none => exact .refused (.inr (.inr (.inl hpriv)))
    | some n =>
      cases hbus : func0.rootBus with
      | none => exact .refused (.inr (.inr (.inr hbus)))
      | some bus =>
        dsimp only
        cases hdev : world.getSlot bus k with
        | none => exact .noDevice hbus hdev
        | some dev => exact .joined hbus hdev

end Slot

end Pciem.Slot.Effects
