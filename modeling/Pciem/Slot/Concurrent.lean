import Pciem.Library.Interleaving
import Pciem.Library.Replay
import Pciem.Slot.Invariant

namespace Pciem.Slot.Concurrent

open Kernel Library.Unwinding Library.Interleaving Register Ioctl Invariant
open State hiding PciemRootComplex
open Attach.Hijack (PciOps)
open Bar.Register (PciemBusMode)
open Device.Setup (Call)

variable {δ : Type}

/-- Where a call stands between two of its steps. -/
inductive Point
  | checked
  /-- CREATE_DEVICE has a root complex in the mode, and has still to store it. -/
  | allocated (mode : PciemBusMode)
  | turn (f : ℕ)
  /-- REGISTER has failed, and has still to cancel the registration. -/
  | failed (e : Errno)
  | completed
  /-- REGISTER has returned with the outcome of making the instance fd. -/
  | registered (fd : Except Errno Unit)
  | returned (o : Outcome)

def Point.ofCheck : Except Errno Unit → Point
  | .ok () => .checked
  | .error e => .returned (.returned (.error e))

section Create

/-- The tests of CREATE_DEVICE, up to the end of its first critical section. -/
def createCheck (us : PciemUserspaceState δ) (argCopied : Bool) (req : PciemCreateDevice) :
    Except Errno Unit :=
  let func := req.func.toNat
  if argCopied = false then
    .error .efault
  else if func ≥ pciemMaxFunctions then
    .error .einval
  else if (us.slot.funcs func).isSome then
    .error .ebusy
  else if func > 0 ∧ (us.slot.funcs 0).isNone then
    .error .einval
  else
    .ok ()

/-- Function 0 writes the mode of the slot, without the lock. -/
def setMode (us : PciemUserspaceState δ) (req : PciemCreateDevice) : PciemUserspaceState δ :=
  { us with slot := { us.slot with busMode := newMode us req } }

def storeFunction (us : PciemUserspaceState δ) (func : ℕ) (v : RootComplex δ) :
    PciemUserspaceState δ :=
  { us with slot := { us.slot with
      funcs := Function.update us.slot.funcs func (some v)
      numFuncs := us.slot.numFuncs + 1 } }

def createNext (req : PciemCreateDevice) (memory : Option δ) (capMgr : Bool) (q : Point)
    (us : PciemUserspaceState δ) : Point × PciemUserspaceState δ :=
  match q, memory with
  | .checked, none => (.returned (.returned (.error .enomem)), us)
  | .checked, some _ => (.allocated (newMode us req), setMode us req)
  | .allocated mode, some address =>
    (.returned (.returned (.ok ())),
      storeFunction us req.func.toNat (newFunction address mode capMgr))
  | q, _ => (q, us)

end Create

section Configure

/-- What a configuration call does once it has got through `pciem_check_unregistered`. -/
def configureChecked (us : PciemUserspaceState δ) (argCopied : Bool) (func : BitVec 8)
    (call : Call) : Except Errno Unit × PciemUserspaceState δ :=
  if argCopied = false then
    (.error .efault, us)
  else
    match usGetRc us func.toNat with
    | none => (.error .enodev, us)
    | some v =>
      match configured v.placed call with
      | .error e => (.error e, us)
      | .ok placed =>
        (.ok (), setFunc us { us.world with pool := poolAfter us.world.pool call } func.toNat
          { v with placed })

def configureNext (argCopied : Bool) (func : BitVec 8) (call : Call) (q : Point)
    (us : PciemUserspaceState δ) : Point × PciemUserspaceState δ :=
  match q with
  | .checked =>
    let (r, us) := configureChecked us argCopied func call
    (.returned (.returned r), us)
  | q => (q, us)

end Configure

section Register

def initFunction (svs : ℕ → Services) (f : ℕ) : SlotCall δ :=
  if f = 0 then onFunc 0 (pciemCompleteInit (svs 0) 0) else registerOther svs f

def registerNext (svs : ℕ → Services) (fd : Except Errno Unit) (q : Point)
    (us : PciemUserspaceState δ) : Point × PciemUserspaceState δ :=
  match q with
  | .checked => (.turn 0, buildFunctions us)
  | .turn f =>
    if f < pciemMaxFunctions then
      let (r, us) := initFunction svs f us
      match r with
      | .ok () => (.turn (f + 1), us)
      | .error e => (.failed e, us)
    else
      (.completed, pciemCompleteRegistration us)
  | .failed e => (.returned (.returned (.error e)), pciemCancelRegistration us)
  | .completed => (.registered fd, us)
  | q => (q, us)

end Register

def registeredNext (c : Command δ) (q : Point) (us : PciemUserspaceState δ) :
    Point × PciemUserspaceState δ :=
  match q with
  | .checked => (.returned (pciemDeviceIoctl { us with registered := .registered } c).1, us)
  | q => (q, us)

/-- The ioctls, by the steps in which they use what the threads share. -/
def ioctl : Program (PciemUserspaceState δ) (Command δ) Point where
  enter c us :=
    match c with
    | .createDevice argCopied req _ _ => (.ofCheck (createCheck us argCopied req), us)
    | .configure _ _ _ => (.ofCheck (pciemCheckUnregistered us), us)
    | .register _ _ => (.ofCheck (pciemStartRegistration us).1, (pciemStartRegistration us).2)
    | .setEventfd _ | .traceBar _ _ _ _ => (.returned (pciemDeviceIoctl us c).1, us)
    | .start _ | .injectIrq _ _ _ | .dma _ _ _ | .dmaAtomic _ _ _ _ | .p2p _ _ _
      | .getBarInfo _ _ _ _ | .setIrqfd _ | .dmaIndirect _ _ _ _ =>
      (.ofCheck (pciemCheckRegistered us), us)
  next c q us :=
    match c with
    | .createDevice _ req memory capMgr => createNext req memory capMgr q us
    | .configure argCopied func call => configureNext argCopied func call q us
    | .register svs fd => registerNext svs fd q us
    | .setEventfd _ | .traceBar _ _ _ _ => (q, us)
    | .start _ | .injectIrq _ _ _ | .dma _ _ _ | .dmaAtomic _ _ _ _ | .p2p _ _ _
      | .getBarInfo _ _ _ _ | .setIrqfd _ | .dmaIndirect _ _ _ _ => registeredNext c q us

abbrev Fd (ι δ : Type) := Config (PciemUserspaceState δ) (Command δ) Point ι

def Guarded : Command δ → Prop
  | .createDevice _ _ _ _ | .configure _ _ _ | .register _ _ | .setEventfd _
    | .traceBar _ _ _ _ => False
  | .start _ | .injectIrq _ _ _ | .dma _ _ _ | .dmaAtomic _ _ _ _ | .p2p _ _ _
    | .getBarInfo _ _ _ _ | .setIrqfd _ | .dmaIndirect _ _ _ _ => True

/-- REGISTER stands between a successful `pciem_start_registration` and the step that cancels or
completes the registration. -/
def Registering : Command δ → Point → Prop
  | .register _ _, .checked | .register _ _, .turn _ | .register _ _, .failed _ => True
  | _, _ => False

def Completed : Command δ → Point → Prop
  | .register _ _, .completed | .register _ _, .registered _ => True
  | _, _ => False

end Pciem.Slot.Concurrent
