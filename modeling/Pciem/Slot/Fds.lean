import Pciem.Slot.Destroy
import Pciem.Slot.Stepwise

namespace Pciem.Slot.Fds

open Kernel Register Destroy Stepwise
open State hiding PciemRootComplex
open Dma.Indirect (Registration)

/-- What an open fd has for itself. -/
structure FdState (δ : Type) where
  slot : PciemSlotState δ
  registered : Registration

/-- The fds that are open, and the world that they share. -/
structure Machine (ι δ : Type) where
  world : World δ
  fds : ι → Option (FdState δ)

/-- `final` is the close that drops the last reference to the state of the fd. -/
inductive Action (ι δ : Type)
  | start (i : ι)
  | request (i : ι) (r : Request δ)
  | register (i : ι) (svs : ℕ → Services) (fd : Except Errno Unit)
  | final (i : ι)

variable {ι δ : Type}

def FdState.new : FdState δ := ⟨⟨fun _ ↦ none, 0, .virtualRoot⟩, .unregistered⟩

/-- The state that a call on the fd works on. -/
def Machine.state (m : Machine ι δ) (fd : FdState δ) : PciemUserspaceState δ :=
  ⟨m.world, fd.slot, fd.registered⟩

variable [DecidableEq ι]

def Machine.put (m : Machine ι δ) (i : ι) (us : PciemUserspaceState δ) : Machine ι δ :=
  ⟨us.world, Function.update m.fds i (some ⟨us.slot, us.registered⟩)⟩

def step (m : Machine ι δ) : Action ι δ → Machine ι δ
  | .start i =>
    match m.fds i with
    | none => { m with fds := Function.update m.fds i (some .new) }
    | some _ => m
  | .request i r =>
    match m.fds i with
    | none => m
    | some fd => m.put i (serve r (m.state fd)).2
  | .register i svs outcome =>
    match m.fds i with
    | none => m
    | some fd => m.put i (pciemIoctlRegister svs outcome (m.state fd)).2
  | .final i =>
    match m.fds i with
    | none => m
    | some fd =>
      ⟨(pciemUserspaceDestroy (m.state fd)).2.world, Function.update m.fds i none⟩

end Pciem.Slot.Fds
