import Pciem.Device.Setup
import Pciem.Slot.Register

namespace Pciem.Slot.Ioctl

open Kernel Library.Unwinding Bar.Table Config.Capabilities Device.Setup Register
open State hiding PciemRootComplex
open Attach.Hijack (PciOps blank)
open Bar.Register (PciemBusMode)
open Dma.Indirect (Registration ValidPageSize pciemDmaFlagWrite)

variable {δ : Type}

abbrev RootComplex := State.PciemRootComplex

structure PciemCreateDevice where
  flags : BitVec 32
  func : BitVec 8

/-- What a DMA request says of itself; `allocated` and `userCopied` are the outcomes of the
allocation of its buffer and of the copy of the data of a write. -/
structure Transfer where
  func : BitVec 8
  length : BitVec 32
  flags : BitVec 32
  allocated : Bool
  userCopied : Bool

/-- The calls of `ioctl`, each with its argument. `argCopied` tells whether that could be read,
and `rest` is what the call returns when it gets through the tests that are modelled. -/
inductive Command (δ : Type)
  | createDevice (argCopied : Bool) (req : PciemCreateDevice) (memory : Option δ)
      (capMgr : Bool)
  | configure (argCopied : Bool) (func : BitVec 8) (call : Call)
  | register (sv : ℕ → Services) (fd : Except Errno Unit)
  | start (rest : Except Errno Unit)
  | injectIrq (argCopied : Bool) (func : BitVec 8) (rest : Except Errno Unit)
  | dma (argCopied : Bool) (op : Transfer) (rest : Except Errno Unit)
  | dmaAtomic (argCopied : Bool) (func : BitVec 8) (opType : BitVec 32)
      (rest : Except Errno Unit)
  | p2p (argCopied : Bool) (op : Transfer) (rest : Except Errno Unit)
  | getBarInfo (argCopied : Bool) (func : BitVec 8) (barIndex : BitVec 32)
      (rest : Except Errno Unit)
  | setEventfd (rest : Except Errno Unit)
  | setIrqfd (rest : Except Errno Unit)
  | dmaIndirect (argCopied : Bool) (req : Transfer) (pageSize : BitVec 32)
      (rest : Except Errno Unit)
  | traceBar (argCopied : Bool) (func barIndex : BitVec 32) (rest : Except Errno Unit)

inductive Outcome
  | returned (r : Except Errno Unit)
  | nullDereference

/-- A member of what the pointer points to is used. -/
def deref {α : Type} (pointer : Option α) (next : α → Outcome) : Outcome :=
  match pointer with
  | none => .nullDereference
  | some object => next object

section Handlers

variable (us : PciemUserspaceState δ)

def usGetRc (func : ℕ) : Option (RootComplex δ) :=
  if func ≥ pciemMaxFunctions then none else us.slot.funcs func

def pciemCheckUnregistered : Except Errno Unit :=
  if (us.slot.funcs 0).isNone then
    .error .einval
  else
    match us.registered with
    | .registering => .error .ebusy
    | .registered => .error .einval
    | .unregistered => .ok ()

def pciemCheckRegistered : Except Errno Unit :=
  if (us.slot.funcs 0).isNone then
    .error .einval
  else
    match us.registered with
    | .registering => .error .ebusy
    | .unregistered => .error .einval
    | .registered => .ok ()

def pciemCreateFlagBusModeMask : BitVec 32 := 3

def pciemCreateFlagBusModeAttach : BitVec 32 := 1

def requestedMode (flags : BitVec 32) : PciemBusMode :=
  if flags &&& pciemCreateFlagBusModeMask = pciemCreateFlagBusModeAttach then .attachToHost
  else .virtualRoot

/-- The root complex of a new function. -/
def newFunction (address : δ) (busMode : PciemBusMode) (capMgr : Bool) : RootComplex δ where
  address
  placed := Device.Setup.pciemIoctlCreateDevice capMgr
  busMode
  pciemPdev := none
  rootBus := none
  bridgePriv := none
  siblingFuncs _ := none
  hijack := ⟨0, none⟩

def pciemIoctlCreateDevice (argCopied : Bool) (req : PciemCreateDevice) (memory : Option δ)
    (capMgr : Bool) : Except Errno Unit × PciemUserspaceState δ :=
  let func := req.func.toNat
  if argCopied = false then
    (.error .efault, us)
  else if func ≥ pciemMaxFunctions then
    (.error .einval, us)
  else if (us.slot.funcs func).isSome then
    (.error .ebusy, us)
  else if func > 0 ∧ (us.slot.funcs 0).isNone then
    (.error .einval, us)
  else
    match memory with
    | none => (.error .enomem, us)
    | some address =>
      let mode := if func = 0 then requestedMode req.flags else us.slot.busMode
      (.ok (), { us with slot := {
        funcs := Function.update us.slot.funcs func (some (newFunction address mode capMgr))
        numFuncs := us.slot.numFuncs + 1
        busMode := mode } })

/-- What the configuration calls do to the function that the request selects. -/
def configured (f : PlacedFunction) : Call → Except Errno PlacedFunction
  | .setConfig c => .ok { f with rc := pciemIoctlSetConfig f.rc c }
  | .addCapability req => (pciemIoctlAddCapability f.rc req).map fun rc ↦ { f with rc }
  | .addBar call => pciemIoctlAddBar f call.cfg call.phys

/-- A BAR that is accepted takes its memory out of the pool. -/
def poolAfter (pool : PciemMempool) : Call → PciemMempool
  | .addBar call => if call.cfg.size = 0 then pool else pool.setChunk call.phys call.cfg.size true
  | _ => pool

/-- ADD_BAR, ADD_CAPABILITY and SET_CONFIG. -/
def pciemIoctlConfigure (argCopied : Bool) (func : BitVec 8) (call : Call) :
    Except Errno Unit × PciemUserspaceState δ :=
  match pciemCheckUnregistered us with
  | .error e => (.error e, us)
  | .ok () =>
    if argCopied = false then
      (.error .efault, us)
    else
      match usGetRc us func.toNat with
      | none => (.error .enodev, us)
      | some v =>
        match configured v.placed call with
        | .error e => (.error e, us)
        | .ok placed =>
          (.ok (), setFunc us { us.world with pool := poolAfter us.world.pool call } func.toNat
            { v with placed })

/-- A request on a function of a registered slot; `early` is what it is turned down with before
the function is looked up. -/
def onRegistered (argCopied : Bool) (early : Option (Except Errno Unit)) (func : ℕ)
    (next : RootComplex δ → Outcome) : Outcome :=
  match pciemCheckRegistered us with
  | .error e => .returned (.error e)
  | .ok () =>
    if argCopied = false then
      .returned (.error .efault)
    else
      match early with
      | some r => .returned r
      | none =>
        match usGetRc us func with
        | none => .returned (.error .enodev)
        | some v => next v

/-- `translate_iova` and `do_atomic_op` ask for the IOMMU domain of `v->pciem_pdev`. -/
def usePdev (v : RootComplex δ) (rest : Except Errno Unit) : Outcome :=
  deref v.pciemPdev fun _ ↦ .returned rest

def Transfer.early (op : Transfer) : Option (Except Errno Unit) :=
  if op.length = 0 then some (.error .einval)
  else if op.allocated = false then some (.error .enomem)
  else none

/-- The data of a write cannot be read from userspace. -/
def Transfer.Uncopied (op : Transfer) : Prop :=
  op.flags &&& pciemDmaFlagWrite ≠ 0 ∧ op.userCopied = false

instance (op : Transfer) : Decidable op.Uncopied := inferInstanceAs (Decidable (_ ∧ _))

def Transfer.move (op : Transfer) (v : RootComplex δ) (rest : Except Errno Unit) : Outcome :=
  if op.Uncopied then .returned (.error .efault) else usePdev v rest

def pciemIoctlInjectIrq (argCopied : Bool) (func : BitVec 8) (rest : Except Errno Unit) :
    Outcome :=
  onRegistered us argCopied none func.toNat fun _ ↦ .returned rest

def pciemIoctlDma (argCopied : Bool) (op : Transfer) (rest : Except Errno Unit) : Outcome :=
  onRegistered us argCopied op.early op.func.toNat fun v ↦ op.move v rest

def pciemIoctlDmaAtomic (argCopied : Bool) (func : BitVec 8) (opType : BitVec 32)
    (rest : Except Errno Unit) : Outcome :=
  onRegistered us argCopied none func.toNat fun v ↦
    if 1 ≤ opType.toNat ∧ opType.toNat ≤ 7 then usePdev v rest else .returned (.error .einval)

def pciemIoctlP2p (argCopied : Bool) (op : Transfer) (rest : Except Errno Unit) : Outcome :=
  onRegistered us argCopied op.early op.func.toNat fun _ ↦
    if op.Uncopied then .returned (.error .efault) else .returned rest

def pciemIoctlGetBarInfo (argCopied : Bool) (func : BitVec 8) (barIndex : BitVec 32)
    (rest : Except Errno Unit) : Outcome :=
  onRegistered us argCopied
    (if barIndex.toNat ≥ pciStdNumBars then some (.error .einval) else none) func.toNat
    fun _ ↦ .returned rest

def pciemIoctlDmaIndirect (argCopied : Bool) (req : Transfer) (pageSize : BitVec 32)
    (rest : Except Errno Unit) : Outcome :=
  onRegistered us argCopied
    (if req.length = 0 then some (.ok ())
      else if ¬ ValidPageSize pageSize then some (.error .einval)
      else if req.allocated = false then some (.error .enomem)
      else none)
    req.func.toNat fun v ↦ req.move v rest

def pciemIoctlSetIrqfd (rest : Except Errno Unit) : Outcome :=
  match pciemCheckRegistered us with
  | .error e => .returned (.error e)
  | .ok () => .returned rest

def pciemIoctlStart (rest : Except Errno Unit) : Outcome :=
  match pciemCheckRegistered us with
  | .error e => .returned (.error e)
  | .ok () => deref (us.slot.funcs 0) fun _ ↦ .returned rest

/-- The lock is that of function 0, whatever the function of the request is. -/
def pciemIoctlTraceBar (argCopied : Bool) (func barIndex : BitVec 32)
    (rest : Except Errno Unit) : Outcome :=
  if argCopied = false then
    .returned (.error .efault)
  else if func.toNat ≥ pciemMaxFunctions then
    .returned (.error .einval)
  else if barIndex.toNat ≥ pciStdNumBars then
    .returned (.error .einval)
  else
    deref (us.slot.funcs 0) fun _ ↦
      match usGetRc us func.toNat with
      | none => .returned (.error .enodev)
      | some _ => .returned rest

/-- `pciem_complete_init` is called with `us->slot.funcs[0]` once the registration has begun. -/
def registerOutcome (sv : ℕ → Services) (fd : Except Errno Unit) : Outcome :=
  match (pciemStartRegistration us).1 with
  | .error e => .returned (.error e)
  | .ok () => deref (us.slot.funcs 0) fun _ ↦ .returned (pciemIoctlRegister sv fd us).1

def pciemDeviceIoctl (c : Command δ) : Outcome × PciemUserspaceState δ :=
  match c with
  | .createDevice argCopied req memory capMgr =>
    let (r, us) := pciemIoctlCreateDevice us argCopied req memory capMgr
    (.returned r, us)
  | .configure argCopied func call =>
    let (r, us) := pciemIoctlConfigure us argCopied func call
    (.returned r, us)
  | .register sv fd => (registerOutcome us sv fd, (pciemIoctlRegister sv fd us).2)
  | .start rest => (pciemIoctlStart us rest, us)
  | .injectIrq argCopied func rest => (pciemIoctlInjectIrq us argCopied func rest, us)
  | .dma argCopied op rest => (pciemIoctlDma us argCopied op rest, us)
  | .dmaAtomic argCopied func opType rest =>
    (pciemIoctlDmaAtomic us argCopied func opType rest, us)
  | .p2p argCopied op rest => (pciemIoctlP2p us argCopied op rest, us)
  | .getBarInfo argCopied func barIndex rest =>
    (pciemIoctlGetBarInfo us argCopied func barIndex rest, us)
  | .setEventfd rest => (.returned rest, us)
  | .setIrqfd rest => (pciemIoctlSetIrqfd us rest, us)
  | .dmaIndirect argCopied req pageSize rest =>
    (pciemIoctlDmaIndirect us argCopied req pageSize rest, us)
  | .traceBar argCopied func barIndex rest =>
    (pciemIoctlTraceBar us argCopied func barIndex rest, us)

end Handlers

def step (us : PciemUserspaceState δ) (c : Command δ) : PciemUserspaceState δ :=
  (pciemDeviceIoctl us c).2

/-- A newly opened fd; nothing has been made for it yet. -/
def opened (ops : PciOps δ) (hostDevices : ℕ → Bool) (pool : PciemMempool) :
    PciemUserspaceState δ where
  world := {
    ops
    priv _ _ := none
    rootBuses _ := false
    nextBus := 0
    devices dev := decide (dev.bus = .host) && hostDevices dev.devfn
    pool }
  slot := ⟨fun _ ↦ none, 0, .virtualRoot⟩
  registered := .unregistered

/-- The states that calls on an fd can lead to. -/
def Reachable (us : PciemUserspaceState δ) : Prop :=
  ∃ ops hostDevices pool, ∃ cs : List (Command δ), us = cs.foldl step (opened ops hostDevices pool)

end Pciem.Slot.Ioctl
