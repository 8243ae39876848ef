import Pciem.Slot.State

namespace Pciem.Slot.Register

open Kernel Library.Unwinding Bar.Table Bar.Placement Config.Access Config.Build State
open Attach.Hijack (Slot)
open Bar.Register (Host PciemBusMode pciemSetMultifunction pciemBusInitResources storeBars)

variable {δ : Type}

abbrev FunctionCall (δ : Type) := Call Errno (FunctionState δ)

section Function

variable (sv : Services)

def prepareBar (i : ℕ) : FunctionCall δ := fun s ↦
  match completeInitBar sv.resource s.2.placed i with
  | .ok placed => (.ok (), s.1, { s.2 with placed })
  | .error e => (.error e, s)

def reserveBar (i : ℕ) : FunctionCall δ := fun s ↦
  if Exposed s.2.placed.rc i ∧ (s.2.placed.places i).allocatedRes = true ∧ sv.entry i = false then
    (.error .enomem, s)
  else
    (.ok (), s)

def pciemReserveBarsRes : FunctionCall δ := forEach (reserveBar sv) (List.range pciStdNumBars)

/-- The PCI core's part in `pciem_bus_init_resources`. -/
def Services.host (slotZero : Bool) : Host where
  platform := sv.platform
  resource := sv.resource
  bus := sv.bridge
  scan rc := sv.scanWrites.foldl applyWrite rc
  slotZero
  assign rc := sv.assignWrites.foldl applyWrite rc
  found := true
  attached := true

/-- What becomes of a function's registers when its new root bus is scanned. -/
def busInit (slotZero : Bool) (f : PlacedFunction) : PlacedFunction :=
  let host := Services.host sv slotZero
  let f := pciemBusInitResources host { f with rc := host.scan f.rc }
  { f with rc := host.assign f.rc }

/-- `bridge_priv` is set before the calls that may fail, but nothing uses it unless they have
succeeded. -/
def pciemInitVirtualRootMode (k : ℕ) : FunctionCall δ := fun s ↦
  match sv.bridge with
  | .error e => (.error e, s)
  | .ok () =>
    let bus := PciBus.root s.1.nextBus
    let world := s.1.scanRootBus (Function.update (fun _ ↦ none) k (some s.2.address)) sv.created
    let pciemPdev := world.getSlot bus k
    let v := { s.2 with
      bridgePriv := some s.1.nextBus
      rootBus := some bus
      placed := busInit sv (world.getSlot bus 0).isSome s.2.placed
      pciemPdev }
    (if pciemPdev.isSome then .ok () else .error .enodev, world, v)

def pciDevfn (slot : Slot) (func : ℕ) : ℕ := 8 * slot.val + func

def pciemInitAttachToHostMode (k : ℕ) : FunctionCall δ := fun s ↦
  if sv.found.bus = false then
    (.error .enodev, s)
  else if k ≠ 0 then
    (.error .einval, s)
  else
    match sv.found.slot with
    | none => (.error .enospc, s)
    | some slot =>
      let placed := storeBars s.2.placed
      let v := { s.2 with
        siblingFuncs := Function.update s.2.siblingFuncs 0 (some s.2.address)
        hijack := ⟨slot, some s.1.ops⟩
        placed := { placed with rc := sv.scanWrites.foldl applyWrite placed.rc } }
      if sv.found.scan then
        let dev := ⟨.host, pciDevfn slot 0⟩
        (.ok (), { s.1 with ops := .proxy s.2.address }.scanSingle dev,
          { v with pciemPdev := some dev, rootBus := some .host })
      else
        -- the bus has had the proxy during the scan, and gets its ops back
        (.error .enodev, s.1, v)

def initMode (k : ℕ) : FunctionCall δ := fun s ↦
  match s.2.busMode with
  | .virtualRoot => pciemInitVirtualRootMode sv k s
  | .attachToHost => pciemInitAttachToHostMode sv k s

def dropPdev (s : FunctionState δ) : FunctionState δ :=
  match s.2.pciemPdev with
  | none => s
  | some dev =>
    (match s.2.busMode with
      | .virtualRoot => s.1
      | .attachToHost => s.1.stopAndRemove dev,
      { s.2 with pciemPdev := none })

def dropBus (s : FunctionState δ) : FunctionState δ :=
  match s.2.busMode with
  | .virtualRoot =>
    match s.2.rootBus with
    | none => s
    | some bus => (s.1.removeRootBus bus, { s.2 with rootBus := none })
  | .attachToHost =>
    match s.2.hijack.originalOps with
    | none => s
    | some ops => ({ s.1 with ops }, s.2)

/-- The label `fail_device`. -/
def failDevice (s : FunctionState δ) : FunctionState δ := dropBus (dropPdev s)

def pciemCompleteInit (k : ℕ) : FunctionCall δ :=
  andThen (ofExcept sv.platform) <|
    onError
      (andThen (forEach (prepareBar sv) (List.range pciStdNumBars)) <|
        andThen (pciemReserveBarsRes sv) <|
          onError (initMode sv k) failDevice)
      pciemCleanupBars

/-- `fn` joins function 0; the root bus of function 0 is set by its own initialisation. -/
def pciemAttachFunction (k : ℕ) (world : World δ) (func0 fn : PciemRootComplex δ) :
    Except Errno Unit × World δ × PciemRootComplex δ × PciemRootComplex δ :=
  if k = 0 ∨ k ≥ pciemMaxFunctions then
    (.error .einval, world, func0, fn)
  else
    match func0.busMode with
    | .virtualRoot =>
      match func0.bridgePriv, func0.rootBus with
      | some n, some bus =>
        let funcs := Function.update (world.priv n) k (some fn.address)
        let pciemPdev := world.getSlot bus k
        let fn := { fn with rootBus := some bus, pciemPdev }
        if pciemPdev.isSome then
          (.ok (), { world with priv := Function.update world.priv n funcs }, func0, fn)
        else
          (.error .enodev, { world with
            priv := Function.update world.priv n (Function.update funcs k none) }, func0, fn)
      | _, _ => (.error .enodev, world, func0, fn)
    | .attachToHost =>
      let bus := func0.rootBus.getD .host
      let placed := storeBars fn.placed
      let fn := { fn with
        hijack := func0.hijack
        rootBus := func0.rootBus
        placed := { placed with rc := sv.scanWrites.foldl applyWrite placed.rc } }
      let siblingFuncs := Function.update func0.siblingFuncs k (some fn.address)
      if sv.scanned then
        let dev := ⟨bus, pciDevfn func0.hijack.hijackedSlot k⟩
        (.ok (), world.scanSingle dev, { func0 with siblingFuncs },
          { fn with pciemPdev := some dev })
      else
        (.error .enodev, world,
          { func0 with siblingFuncs := Function.update siblingFuncs k none }, fn)

end Function

abbrev SlotCall (δ : Type) := Call Errno (PciemUserspaceState δ)

def setFunc (us : PciemUserspaceState δ) (world : World δ) (k : ℕ) (v : PciemRootComplex δ) :
    PciemUserspaceState δ :=
  { us with world, slot := { us.slot with funcs := Function.update us.slot.funcs k (some v) } }

/-- A call that works on function `k`, which is there. -/
def onFunc (k : ℕ) (x : FunctionCall δ) : SlotCall δ := fun us ↦
  match us.slot.funcs k with
  | none => (.ok (), us)
  | some v =>
    let (r, world, v) := x (us.world, v)
    (r, setFunc us world k v)

def attachFunc (sv : Services) (k : ℕ) : SlotCall δ := fun us ↦
  match us.slot.funcs 0, us.slot.funcs k with
  | some func0, some fn =>
    let (r, world, func0, fn) := pciemAttachFunction sv k us.world func0 fn
    (r, setFunc (setFunc us world 0 func0) world k fn)
  | _, _ => (.ok (), us)

def pciemStartRegistration : SlotCall δ := fun us ↦
  if (us.slot.funcs 0).isNone then
    (.error .einval, us)
  else
    match us.registered with
    | .unregistered => (.ok (), { us with registered := .registering })
    | .registering => (.error .ebusy, us)
    | .registered => (.error .einval, us)

def pciemCancelRegistration (us : PciemUserspaceState δ) : PciemUserspaceState δ :=
  { us with registered := .unregistered }

def pciemCompleteRegistration (us : PciemUserspaceState δ) : PciemUserspaceState δ :=
  { us with registered := .registered }

def buildFunction (numFuncs k : ℕ) (f : PlacedFunction) : PlacedFunction :=
  let f := { f with rc := pciemBuildConfigSpace f.rc }
  if k = 0 then pciemSetMultifunction f numFuncs else f

/-- The loop over the functions before anything is initialised. -/
def buildFunctions (us : PciemUserspaceState δ) : PciemUserspaceState δ :=
  { us with slot := { us.slot with
      funcs := fun k ↦ (us.slot.funcs k).map fun v ↦
        { v with placed := buildFunction us.slot.numFuncs k v.placed } } }

/-- A turn of the loop over the functions after function 0. -/
def registerOther (sv : ℕ → Services) (k : ℕ) : SlotCall δ :=
  andThen (onFunc k (pciemCompleteInit (sv k) k)) (attachFunc (sv k) k)

/-- What stands between the start of a registration and its end. -/
def registerFunctions (sv : ℕ → Services) : SlotCall δ :=
  andThen (update buildFunctions) <|
    andThen (onFunc 0 (pciemCompleteInit (sv 0) 0)) <|
      forEach (registerOther sv) (List.range' 1 (pciemMaxFunctions - 1))

/-- `fd` is the outcome of making the instance fd. -/
def pciemIoctlRegister (sv : ℕ → Services) (fd : Except Errno Unit) : SlotCall δ :=
  andThen pciemStartRegistration <|
    andThen (onError (registerFunctions sv) pciemCancelRegistration) <|
      andThen (update pciemCompleteRegistration) (ofExcept fd)

end Pciem.Slot.Register
