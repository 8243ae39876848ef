import Pciem.Attach.Hijack
import Pciem.Bar.Register
import Pciem.Dma.Indirect
import Pciem.Library.Unwinding

namespace Pciem.Slot.State

open Kernel Attach.Hijack Bar.Table Bar.Placement Bar.Register Config.Access
open Dma.Indirect (Registration)

deriving instance DecidableEq for Registration

deriving instance DecidableEq for PciemBusMode

/-- The root bus of the host, or the `n`-th root bus that was made for the slot. -/
inductive PciBus
  | host
  | root (n : ℕ)
deriving DecidableEq

structure PciDev where
  bus : PciBus
  devfn : ℕ
deriving DecidableEq

/-- The pool that the memory of BARs is taken from, by pages from its base. -/
structure PciemMempool where
  pageShift : ℕ
  base : BitVec 64
  totalSize : BitVec 64
  allocated : ℕ → Bool

/-- What the functions of a slot share with the rest of the world. -/
structure World (δ : Type) where
  ops : PciOps δ
  /-- `funcs` in the private data of the bridge of each root bus. -/
  priv : ℕ → ℕ → Option δ
  rootBuses : ℕ → Bool
  nextBus : ℕ
  devices : PciDev → Bool
  pool : PciemMempool

structure PciemRootComplex (δ : Type) where
  address : δ
  placed : PlacedFunction
  busMode : PciemBusMode
  pciemPdev : Option PciDev
  rootBus : Option PciBus
  bridgePriv : Option ℕ
  siblingFuncs : ℕ → Option δ
  hijack : PciemHijackState δ

structure PciemSlotState (δ : Type) where
  funcs : ℕ → Option (PciemRootComplex δ)
  numFuncs : ℕ
  busMode : PciemBusMode

structure PciemUserspaceState (δ : Type) where
  world : World δ
  slot : PciemSlotState δ
  registered : Registration

/-- What the rest of the kernel does while a function is initialised and attached. -/
structure Services where
  platform : Except Errno Unit
  resource : ℕ → Except Errno Unit
  /-- The resource of a BAR has an entry in the list. -/
  entry : ℕ → Bool
  bridge : Except Errno Unit
  /-- The PCI core makes a device for a function that answers the scan of its bus. -/
  created : ℕ → Bool
  found : Found
  scanned : Bool
  /-- The config writes of the PCI core: in the scan, and while it assigns resources. -/
  scanWrites : List ConfWrite
  assignWrites : List ConfWrite

structure Services.AllSucceed (sv : Services) : Prop where
  platform : sv.platform = .ok ()
  resource : ∀ i, sv.resource i = .ok ()
  entry : ∀ i, sv.entry i = true
  bridge : sv.bridge = .ok ()
  created : ∀ k, sv.created k = true
  found : sv.found.bus = true ∧ sv.found.slot.isSome ∧ sv.found.scan = true
  scanned : sv.scanned = true

variable {δ : Type}

section Pci

def World.getSlot (world : World δ) (bus : PciBus) (devfn : ℕ) : Option PciDev :=
  if world.devices ⟨bus, devfn⟩ then some ⟨bus, devfn⟩ else none

/-- A new root bus, with the devices that the scan makes for the functions that answer. -/
def World.scanRootBus (world : World δ) (funcs : ℕ → Option δ) (created : ℕ → Bool) :
    World δ where
  ops := world.ops
  priv := Function.update world.priv world.nextBus funcs
  rootBuses := Function.update world.rootBuses world.nextBus true
  nextBus := world.nextBus + 1
  devices dev :=
    if dev.bus = .root world.nextBus then (funcs dev.devfn).isSome && created dev.devfn
    else world.devices dev
  pool := world.pool

/-- `pci_remove_root_bus`, which takes the devices of the bus with it. -/
def World.removeRootBus (world : World δ) (bus : PciBus) : World δ :=
  { world with
    rootBuses := fun n ↦ if bus = .root n then false else world.rootBuses n
    devices := fun dev ↦ if dev.bus = bus then false else world.devices dev }

def World.stopAndRemove (world : World δ) (dev : PciDev) : World δ :=
  { world with devices := Function.update world.devices dev false }

/-- `pci_scan_single_device` where it makes a device, or finds that there is one. -/
def World.scanSingle (world : World δ) (dev : PciDev) : World δ :=
  { world with devices := Function.update world.devices dev true }

end Pci

section Pool

def PciemMempool.InChunk (pool : PciemMempool) (addr size : BitVec 64) (page : ℕ) : Prop :=
  (addr - pool.base).toNat / 2 ^ pool.pageShift ≤ page ∧
    page < (addr - pool.base).toNat / 2 ^ pool.pageShift +
      (size.toNat + 2 ^ pool.pageShift - 1) / 2 ^ pool.pageShift

instance (pool : PciemMempool) (addr size : BitVec 64) (page : ℕ) :
    Decidable (pool.InChunk addr size page) := inferInstanceAs (Decidable (_ ∧ _))

def PciemMempool.setChunk (pool : PciemMempool) (addr size : BitVec 64) (allocated : Bool) :
    PciemMempool :=
  { pool with
    allocated := fun page ↦
      if pool.InChunk addr size page then allocated else pool.allocated page }

def pciemPoolFree (pool : PciemMempool) (addr size : BitVec 64) : PciemMempool :=
  if addr = 0 ∨ addr < pool.base ∨ addr + size > pool.base + pool.totalSize then pool
  else pool.setChunk addr size false

def pciemCleanupBar (pool : PciemMempool) (place : PciemBarPlace) :
    PciemMempool × PciemBarPlace :=
  if place.carvedStart ≠ 0 then
    (pciemPoolFree pool place.carvedStart (place.carvedEnd - place.carvedStart + 1),
      { place with allocatedRes := false, carvedStart := 0, carvedEnd := 0 })
  else
    (pool, { place with allocatedRes := false })

end Pool

abbrev FunctionState (δ : Type) := World δ × PciemRootComplex δ

/-- A turn of the loop of `pciem_cleanup_bars`. -/
def cleanupBar (s : FunctionState δ) (i : ℕ) : FunctionState δ :=
  let (pool, place) := pciemCleanupBar s.1.pool (s.2.placed.places i)
  ({ s.1 with pool },
    { s.2 with placed := { s.2.placed with places := Function.update s.2.placed.places i place } })

def pciemCleanupBars (s : FunctionState δ) : FunctionState δ :=
  (List.range pciStdNumBars).foldl cleanupBar s

end Pciem.Slot.State
