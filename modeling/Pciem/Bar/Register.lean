import Pciem.Bar.Placement
import Pciem.Config.Build

namespace Pciem.Bar.Register

open Kernel Config.Capabilities Config.Access Config.Build Library.ByteMemory Registers Sizing
  Table Placement

inductive PciemBusMode
  | virtualRoot
  | attachToHost

/-- What the rest of the kernel does while a function is initialised. -/
structure Host where
  /-- The platform device. -/
  platform : Except Errno Unit
  /-- The memory resource of a BAR. -/
  resource : ℕ → Except Errno Unit
  /-- The list of the resources, and the bus of the function. -/
  bus : Except Errno Unit
  /-- The function after the PCI core has scanned its bus. -/
  scan : PciemRootComplex → PciemRootComplex
  /-- The scan has found a device at slot 0. -/
  slotZero : Bool
  /-- The function after the PCI core has assigned the resources of its bus. -/
  assign : PciemRootComplex → PciemRootComplex
  /-- The scan has found the device of the function. -/
  found : Bool
  /-- The device of the function is found on the bus of function 0. -/
  attached : Bool

/-- A turn of a loop that stores the address of a BAR again. -/
def storeAgain (selected : PlacedFunction → ℕ → Prop) [∀ f i, Decidable (selected f i)]
    (f : PlacedFunction) (i : ℕ) : PlacedFunction :=
  if selected f i then { f with rc := storeAddress f.rc i (f.places i).physAddr } else f

/-- The test of the loop of `pciem_bus_init_resources`. -/
def HasResource (f : PlacedFunction) (i : ℕ) : Prop :=
  (f.rc.bars i).size > 0 ∧ (f.places i).allocatedRes

instance (f : PlacedFunction) (i : ℕ) : Decidable (HasResource f i) :=
  inferInstanceAs (Decidable (_ ∧ _))

def pciemBusInitResources (host : Host) (f : PlacedFunction) : PlacedFunction :=
  if host.slotZero then
    let f := (List.range pciStdNumBars).foldl (storeAgain HasResource) f
    { f with rc := host.assign f.rc }
  else
    f

def pciemInitVirtualRootMode (host : Host) (f : PlacedFunction) :
    Except Errno PlacedFunction := do
  host.bus
  let f := pciemBusInitResources host { f with rc := host.scan f.rc }
  let f := { f with rc := host.assign f.rc }
  if host.found then
    return f
  else
    throw .enodev

/-- The loop over the BARs before a scan of the bus of the host. -/
def storeBars (f : PlacedFunction) : PlacedFunction :=
  (List.range pciStdNumBars).foldl (storeAgain fun f ↦ Exposed f.rc) f

def pciemInitAttachToHostMode (host : Host) (funcIndex : ℕ) (f : PlacedFunction) :
    Except Errno PlacedFunction := do
  host.bus
  if funcIndex ≠ 0 then
    throw .einval
  let f := storeBars f
  let f := { f with rc := host.scan f.rc }
  if host.found then
    return f
  else
    throw .enodev

def pciemCompleteInit (host : Host) (busMode : PciemBusMode) (funcIndex : ℕ)
    (f : PlacedFunction) : Except Errno PlacedFunction := do
  host.platform
  let f ← completeInitBars host.resource f
  match busMode with
  | .virtualRoot => pciemInitVirtualRootMode host f
  | .attachToHost => pciemInitAttachToHostMode host funcIndex f

/-- `fn` joins function 0. -/
def pciemAttachFunction (host : Host) (busMode : PciemBusMode) (funcIndex : ℕ)
    (fn : PlacedFunction) : Except Errno PlacedFunction :=
  if funcIndex = 0 ∨ funcIndex ≥ pciemMaxFunctions then
    .error .einval
  else
    match busMode with
    | .virtualRoot => if host.attached then .ok fn else .error .enodev
    | .attachToHost =>
      let fn := storeBars fn
      if host.attached then .ok { fn with rc := host.scan fn.rc } else .error .enodev

structure PciemSlot where
  funcs : ℕ → Option PlacedFunction
  numFuncs : ℕ
  busMode : PciemBusMode

def pciemSetMultifunction (func0 : PlacedFunction) (numFuncs : ℕ) : PlacedFunction :=
  if numFuncs ≤ 1 then
    func0
  else
    { func0 with rc := { func0.rc with
        space := store func0.rc.space (cfg pciHeaderType)
          [func0.rc.space (cfg pciHeaderType) ||| pciHeaderTypeMfd] } }

/-- The functions as the loops of REGISTER find them. -/
def builtFunction (slot : PciemSlot) (k : ℕ) (f : PlacedFunction) : PlacedFunction :=
  let f := { f with rc := pciemBuildConfigSpace f.rc }
  if k = 0 then pciemSetMultifunction f slot.numFuncs else f

/-- The loop over the functions after function 0. -/
def registerOthers (hosts : ℕ → Host) (busMode : PciemBusMode)
    (funcs : ℕ → Option PlacedFunction) (k : ℕ) : Except Errno (ℕ → Option PlacedFunction) :=
  match funcs k with
  | none => .ok funcs
  | some fn => do
    let fn ← pciemCompleteInit (hosts k) busMode k fn
    let fn ← pciemAttachFunction (hosts k) busMode k fn
    return Function.update funcs k (some fn)

/-- REGISTER; `started` and `fd` are the outcomes of its first step and of its last. -/
def pciemIoctlRegister (started fd : Except Errno Unit) (hosts : ℕ → Host) (slot : PciemSlot) :
    Except Errno PciemSlot := do
  started
  let funcs := fun k ↦ (slot.funcs k).map (builtFunction slot k)
  match funcs 0 with
  | none => throw .einval
  | some func0 =>
    let func0 ← pciemCompleteInit (hosts 0) slot.busMode 0 func0
    let funcs ← (List.range' 1 (pciemMaxFunctions - 1)).foldlM
      (registerOthers hosts slot.busMode) (Function.update funcs 0 (some func0))
    fd
    return { slot with funcs }

section Loops

variable {selected : PlacedFunction → ℕ → Prop} [∀ f i, Decidable (selected f i)]

theorem storeAgain_spec (hsel : ∀ (f g : PlacedFunction) i, g.places = f.places →
      (∀ j, (g.rc.bars j).size = (f.rc.bars j).size) →
      (∀ j, (g.rc.bars j).flags = (f.rc.bars j).flags) → (selected g i ↔ selected f i))
    (f : PlacedFunction) (n : ℕ) :
    Stored (selected f) (fun j ↦ (f.places j).physAddr) n f.rc
        ((List.range n).foldl (storeAgain selected) f).rc ∧
      ((List.range n).foldl (storeAgain selected) f).places = f.places := by
  induction n with
  | zero => exact ⟨.zero f.rc, rfl⟩
  | succ n ih =>
    obtain ⟨hstored, hplaces⟩ := ih
    rw [List.range_succ, List.foldl_append, List.foldl_cons, List.foldl_nil, storeAgain]
    have hiff := hsel f _ n hplaces hstored.size hstored.flags
    split_ifs with hn
    · rw [congrFun hplaces n]
      exact ⟨hstored.store (hiff.mp hn), hplaces⟩
    · exact ⟨hstored.skip fun h ↦ hn (hiff.mpr h), hplaces⟩

theorem storeBars_spec (f : PlacedFunction) :
    Stored (Exposed f.rc) (fun j ↦ (f.places j).physAddr) pciStdNumBars f.rc (storeBars f).rc ∧
      (storeBars f).places = f.places := by
  refine @storeAgain_spec (fun f ↦ Exposed f.rc) _ (fun f g i _ hsize hflags ↦ ?_) f pciStdNumBars
  rw [Exposed, Exposed, IsUpperHalf, IsUpperHalf, hsize, hflags]

theorem hasResource_loop_spec (f : PlacedFunction) :
    Stored (HasResource f) (fun j ↦ (f.places j).physAddr) pciStdNumBars f.rc
        ((List.range pciStdNumBars).foldl (storeAgain HasResource) f).rc ∧
      ((List.range pciStdNumBars).foldl (storeAgain HasResource) f).places = f.places := by
  refine storeAgain_spec (fun f g i hplaces hsize _ ↦ ?_) f pciStdNumBars
  rw [HasResource, HasResource, hplaces, hsize]

end Loops

section Results

variable {host : Host} {hosts : ℕ → Host} {busMode : PciemBusMode} {k : ℕ}
  {f g : PlacedFunction}

theorem bind_eq_ok {α β : Type} {x : Except Errno α} {step : α → Except Errno β} {b : β}
    (h : x >>= step = .ok b) : ∃ a, x = .ok a ∧ step a = .ok b := by
  cases x with
  | error e => cases h
  | ok a => exact ⟨a, rfl, h⟩

/-- The stages of a function that comes to be in virtual-root mode. -/
theorem completeInit_virtualRoot (h : pciemCompleteInit host .virtualRoot k f = .ok g) :
    ∃ f₁, completeInitBars host.resource f = .ok f₁ ∧
      g = { pciemBusInitResources host { f₁ with rc := host.scan f₁.rc } with
        rc := host.assign (pciemBusInitResources host { f₁ with rc := host.scan f₁.rc }).rc } := by
  obtain ⟨-, -, h⟩ := bind_eq_ok h
  obtain ⟨f₁, hbars, h⟩ := bind_eq_ok h
  refine ⟨f₁, hbars, ?_⟩
  obtain ⟨-, -, h⟩ := bind_eq_ok h
  dsimp only at h
  split_ifs at h
  cases h
  rfl

theorem completeInit_attachToHost (h : pciemCompleteInit host .attachToHost k f = .ok g) :
    k = 0 ∧ ∃ f₁, completeInitBars host.resource f = .ok f₁ ∧
      g = { storeBars f₁ with rc := host.scan (storeBars f₁).rc } := by
  obtain ⟨-, -, h⟩ := bind_eq_ok h
  obtain ⟨f₁, hbars, h⟩ := bind_eq_ok h
  obtain ⟨-, -, h⟩ := bind_eq_ok h
  dsimp only at h
  by_cases hk : k = 0
  · rw [if_neg (not_not.mpr hk)] at h
    split_ifs at h
    cases h
    exact ⟨hk, f₁, hbars, rfl⟩
  · rw [if_pos hk] at h
    cases h

theorem registerOthers_ok {funcs funcs' : ℕ → Option PlacedFunction}
    (h : registerOthers hosts busMode funcs k = .ok funcs') :
    (∀ j ≠ k, funcs' j = funcs j) ∧
      ∀ fn, funcs k = some fn → ∃ g, funcs' k = some g ∧
        pciemCompleteInit (hosts k) busMode k fn = .ok g := by
  rw [registerOthers] at h
  split at h
  · rename_i hnone
    cases h
    exact ⟨fun _ _ ↦ rfl, fun fn hfn ↦ absurd (hnone.symm.trans hfn) nofun⟩
  · rename_i fn hfn
    obtain ⟨g, hinit, h⟩ := bind_eq_ok h
    obtain ⟨g', hattach, h⟩ := bind_eq_ok h
    cases h
    refine ⟨fun j hj ↦ Function.update_of_ne hj _ _, fun fn' hfn' ↦ ?_⟩
    obtain rfl : fn = fn' := Option.some_injective _ (hfn.symm.trans hfn')
    refine ⟨g', Function.update_self _ _ _, ?_⟩
    cases busMode with
    | virtualRoot =>
      rw [pciemAttachFunction.eq_def] at hattach
      split_ifs at hattach
      cases hattach
      exact hinit
    | attachToHost =>
      obtain ⟨rfl, -⟩ := completeInit_attachToHost hinit
      cases hattach

theorem registerOthers_foldlM {ks : List ℕ} (hnodup : ks.Nodup)
    {funcs funcs' : ℕ → Option PlacedFunction}
    (h : ks.foldlM (registerOthers hosts busMode) funcs = .ok funcs') :
    (∀ j, j ∉ ks → funcs' j = funcs j) ∧
      ∀ j ∈ ks, ∀ fn, funcs j = some fn → ∃ g, funcs' j = some g ∧
        pciemCompleteInit (hosts j) busMode j fn = .ok g := by
  induction ks generalizing funcs with
  | nil =>
    cases h
    exact ⟨fun _ _ ↦ rfl, fun _ hj ↦ absurd hj List.not_mem_nil⟩
  | cons k ks ih =>
    rw [List.foldlM_cons] at h
    obtain ⟨funcs₁, hk, h⟩ := bind_eq_ok h
    obtain ⟨hothers, hthis⟩ := registerOthers_ok hk
    obtain ⟨hkeep, hdone⟩ := ih (List.nodup_cons.mp hnodup).2 h
    constructor
    · intro j hj
      rw [List.mem_cons, not_or] at hj
      rw [hkeep j hj.2, hothers j hj.1]
    · intro j hj fn hfn
      rcases List.mem_cons.mp hj with rfl | hj
      · rw [hkeep j (List.nodup_cons.mp hnodup).1]
        exact hthis fn hfn
      · refine hdone j hj fn ?_
        rw [hothers j fun hjk ↦ (List.nodup_cons.mp hnodup).1 (hjk ▸ hj), hfn]

/-- Every function of a registered slot has been through `pciem_complete_init`. -/
theorem register_complete_init {started fd : Except Errno Unit} {slot slot' : PciemSlot}
    (h : pciemIoctlRegister started fd hosts slot = .ok slot') (hk : k < pciemMaxFunctions)
    (hf : slot.funcs k = some f) : ∃ g, slot'.funcs k = some g ∧
      pciemCompleteInit (hosts k) slot.busMode k (builtFunction slot k f) = .ok g := by
  obtain ⟨-, -, h⟩ := bind_eq_ok h
  dsimp only at h
  split at h
  · cases h
  · rename_i func0 hfunc0
    obtain ⟨g₀, hinit, h⟩ := bind_eq_ok h
    obtain ⟨funcs, hothers, h⟩ := bind_eq_ok h
    obtain ⟨-, -, h⟩ := bind_eq_ok h
    cases h
    obtain ⟨hkeep, hdone⟩ := registerOthers_foldlM List.nodup_range' hothers
    rcases Nat.eq_zero_or_pos k with rfl | hpos
    · rw [hf] at hfunc0
      cases hfunc0
      refine ⟨g₀, ?_, hinit⟩
      dsimp only
      rw [hkeep 0 (by decide), Function.update_self]
    · refine hdone k ?_ _ ?_
      · rw [List.mem_range'_1]
        simp only [pciemMaxFunctions] at hk ⊢
        omega
      · rw [Function.update_of_ne (Nat.ne_of_gt hpos), hf]
        rfl

end Results

end Pciem.Bar.Register
