import Pciem.Kernel.Errno
import Pciem.Kernel.PciRegs
import Pciem.Library.Loop
import Mathlib.Logic.Function.Basic

namespace Pciem.Attach.Hijack

open Kernel Library.Loop

abbrev Slot := Fin 32

instance neZeroSlots : @NeZero ℕ Zero.ofOfNat0 32 := ⟨by decide⟩

def pciSlot (devfn : ℕ) : Slot := Fin.ofNat 32 (devfn / 8)

def pciFunc (devfn : ℕ) : ℕ := devfn % 8

variable {δ : Type*}

/-- What the pointer `ops` of the bus can be: the ops that the hardware came with, or the
`proxy_ops` of a root complex. -/
inductive PciOps (δ : Type*)
  | hardware
  | proxy (owner : δ)
deriving DecidableEq

structure PciemHijackState (δ : Type*) where
  hijackedSlot : Slot
  originalOps : Option (PciOps δ)

/-- The root complex of a function 0. -/
structure PciemRootComplex (δ : Type*) where
  siblingFuncs : ℕ → Option δ
  hijack : PciemHijackState δ
  /-- `root_bus` is the bus of the host. -/
  rootBus : Bool

structure HostBus (δ : Type*) where
  ops : PciOps δ
  rc : δ → PciemRootComplex δ

/-- Who answers a configuration access on the bus. -/
inductive Answer (δ : Type*)
  | hardware
  | function (fn : δ)
  /-- `PCIBIOS_DEVICE_NOT_FOUND`, with what a read has stored. -/
  | notFound (value : Option (BitVec 32))
  /-- A pointer that is not what it is taken for is used. -/
  | wild
deriving DecidableEq

/-- What the two proxies share; the owner is taken from `bus->ops`. They hand the access to
`original_ops`, or answer it. -/
def proxyConfig (absent : Option (BitVec 32)) (host : HostBus δ) (devfn : ℕ) :
    PciOps δ ⊕ Answer δ :=
  match host.ops with
  | .hardware => .inr .wild
  | .proxy func0 =>
    if pciSlot devfn ≠ (host.rc func0).hijack.hijackedSlot then
      match (host.rc func0).hijack.originalOps with
      | some ops => .inl ops
      | none => .inr .wild
    else if pciFunc devfn ≥ pciemMaxFunctions then
      .inr (.notFound absent)
    else
      match (host.rc func0).siblingFuncs (pciFunc devfn) with
      | some fn => .inr (.function fn)
      | none => .inr (.notFound absent)

def proxyReadConfig (host : HostBus δ) (devfn : ℕ) : PciOps δ ⊕ Answer δ :=
  proxyConfig (some (BitVec.allOnes 32)) host devfn

def proxyWriteConfig (host : HostBus δ) (devfn : ℕ) : PciOps δ ⊕ Answer δ :=
  proxyConfig none host devfn

def callOps (proxy : HostBus δ → ℕ → PciOps δ ⊕ Answer δ) (host : HostBus δ) (devfn : ℕ)
    (ops : PciOps δ) : PciOps δ ⊕ Answer δ :=
  match ops with
  | .hardware => .inr .hardware
  | .proxy _ => proxy host devfn

/-- The calls of an access through `bus->ops` come to an end with the answer. -/
def Reaches (proxy : HostBus δ → ℕ → PciOps δ ⊕ Answer δ) (host : HostBus δ) (devfn : ℕ)
    (answer : Answer δ) : Prop :=
  ∃ n, run (callOps proxy host devfn) n host.ops = some answer

def answerOf (absent : Option (BitVec 32)) : Option δ → Answer δ
  | some fn => .function fn
  | none => .notFound absent

def deviceAnswer (absent : Option (BitVec 32)) (host : HostBus δ) (func0 : δ) (devfn : ℕ) :
    Answer δ :=
  answerOf absent ((host.rc func0).siblingFuncs (pciFunc devfn))

/-- Reads and writes of the slot of the device get to the device. -/
def Served (host : HostBus δ) (func0 : δ) (devfn : ℕ) : Prop :=
  Reaches proxyReadConfig host devfn
      (deviceAnswer (some (BitVec.allOnes 32)) host func0 devfn) ∧
    Reaches proxyWriteConfig host devfn (deviceAnswer none host func0 devfn)

def PassedOn (host : HostBus δ) (devfn : ℕ) : Prop :=
  Reaches proxyReadConfig host devfn .hardware ∧ Reaches proxyWriteConfig host devfn .hardware

section Access

variable {absent : Option (BitVec 32)} {host : HostBus δ} {devfn : ℕ} {func0 : δ}
  {answer answer' : Answer δ}

theorem pciFunc_lt (devfn : ℕ) : pciFunc devfn < pciemMaxFunctions :=
  Nat.mod_lt devfn (by decide)

theorem answerOf_inj {fn fn' : Option δ} : answerOf absent fn = answerOf absent fn' ↔ fn = fn' := by
  cases fn <;> cases fn' <;> simp [answerOf]

theorem Reaches.terminates {proxy : HostBus δ → ℕ → PciOps δ ⊕ Answer δ}
    (h : Reaches proxy host devfn answer) : Terminates (callOps proxy host devfn) host.ops := by
  obtain ⟨n, hn⟩ := h
  exact ⟨n, answer, hn⟩

theorem reaches_hardware {proxy : HostBus δ → ℕ → PciOps δ ⊕ Answer δ}
    (h : host.ops = .hardware) : Reaches proxy host devfn .hardware := by
  refine ⟨1, ?_⟩
  rw [h]
  rfl

theorem eq_hardware_of_reaches {proxy : HostBus δ → ℕ → PciOps δ ⊕ Answer δ}
    (h : host.ops = .hardware) (hr : Reaches proxy host devfn answer) : answer = .hardware := by
  obtain ⟨n, hn⟩ := hr
  rw [h] at hn
  cases n with
  | zero => cases hn
  | succ n => exact (Option.some.inj hn).symm

theorem proxyConfig_own (h : host.ops = .proxy func0)
    (hslot : pciSlot devfn = (host.rc func0).hijack.hijackedSlot) :
    proxyConfig absent host devfn = .inr (deviceAnswer absent host func0 devfn) := by
  rw [proxyConfig, h]
  dsimp only
  rw [if_neg (not_not.mpr hslot), if_neg (Nat.not_le.mpr (pciFunc_lt devfn)), deviceAnswer]
  cases (host.rc func0).siblingFuncs (pciFunc devfn) with
  | none => rfl
  | some fn => rfl

theorem proxyConfig_other {ops : PciOps δ} (h : host.ops = .proxy func0)
    (hslot : pciSlot devfn ≠ (host.rc func0).hijack.hijackedSlot)
    (hops : (host.rc func0).hijack.originalOps = some ops) :
    proxyConfig absent host devfn = .inl ops := by
  rw [proxyConfig, h]
  dsimp only
  rw [if_pos hslot, hops]

theorem reaches_own_iff (h : host.ops = .proxy func0)
    (hslot : pciSlot devfn = (host.rc func0).hijack.hijackedSlot) :
    Reaches (proxyConfig absent) host devfn answer ↔
      answer = deviceAnswer absent host func0 devfn := by
  have hstep : callOps (proxyConfig absent) host devfn host.ops =
      .inr (deviceAnswer absent host func0 devfn) := by
    rw [h]
    exact proxyConfig_own h hslot
  constructor
  · rintro ⟨n, hn⟩
    cases n with
    | zero => cases hn
    | succ n => exact (Option.some.inj ((run_of_inr hstep n).symm.trans hn)).symm
  · rintro rfl
    exact ⟨1, run_of_inr hstep 0⟩

theorem reaches_of_original_hardware (h : host.ops = .proxy func0)
    (hslot : pciSlot devfn ≠ (host.rc func0).hijack.hijackedSlot)
    (hops : (host.rc func0).hijack.originalOps = some .hardware) :
    Reaches (proxyConfig absent) host devfn answer ↔ answer = .hardware := by
  have hstep : callOps (proxyConfig absent) host devfn host.ops = .inl .hardware := by
    rw [h]
    exact proxyConfig_other h hslot hops
  constructor
  · rintro ⟨n, hn⟩
    cases n with
    | zero => cases hn
    | succ n =>
      rw [run_of_inl hstep] at hn
      cases n with
      | zero => cases hn
      | succ n => exact (Option.some.inj hn).symm
  · rintro rfl
    exact ⟨2, run_of_inl hstep 1⟩

/-- A proxy under another proxy is called with the bus of the other one, and calls itself. -/
theorem not_terminates_of_original_proxy {inner : δ} (h : host.ops = .proxy func0)
    (hslot : pciSlot devfn ≠ (host.rc func0).hijack.hijackedSlot)
    (hops : (host.rc func0).hijack.originalOps = some (.proxy inner)) :
    ¬ Terminates (callOps (proxyConfig absent) host devfn) host.ops := by
  refine not_terminates_of_forever (I := fun ops ↦ ∃ owner, ops = .proxy owner) ⟨func0, h⟩ ?_
  rintro _ ⟨owner, rfl⟩
  exact ⟨.proxy inner, proxyConfig_other h hslot hops, inner, rfl⟩

end Access

/-- `bus->ops = v->mode_state.hijack.original_ops`, where that pointer is not null. -/
def restore (host : HostBus δ) (v : δ) : HostBus δ :=
  match (host.rc v).hijack.originalOps with
  | some ops => { host with ops }
  | none => host

theorem restore_eq (host : HostBus δ) (v : δ) :
    restore host v = ⟨(host.rc v).hijack.originalOps.getD host.ops, host.rc⟩ := by
  rw [restore]
  cases (host.rc v).hijack.originalOps with
  | none => rfl
  | some ops => rfl

def hijackedRc (host : HostBus δ) (v : δ) (slot : Slot) (rootBus : Bool) :
    PciemRootComplex δ where
  siblingFuncs := Function.update (host.rc v).siblingFuncs 0 (some v)
  hijack := ⟨slot, some host.ops⟩
  rootBus := rootBus

theorem siblingFuncs_hijackedRc (host : HostBus δ) (v : δ) (slot : Slot) (rootBus : Bool) :
    (hijackedRc host v slot rootBus).siblingFuncs 0 = some v := by
  change Function.update (host.rc v).siblingFuncs 0 (some v) 0 = some v
  rw [Function.update_self]

variable [DecidableEq δ]

/-- What an attach gets from the PCI core. -/
structure Found where
  bus : Bool
  /-- What `pciem_find_free_slot` returns. -/
  slot : Option Slot
  scan : Bool

/-- The root complex saves the ops of the bus and puts its own in their place. -/
def hijack (host : HostBus δ) (v : δ) (slot : Slot) : HostBus δ where
  ops := .proxy v
  rc := Function.update host.rc v
    { host.rc v with
      siblingFuncs := Function.update (host.rc v).siblingFuncs 0 (some v)
      hijack := ⟨slot, some host.ops⟩ }

def pciemInitAttachToHostMode (host : HostBus δ) (v : δ) (found : Found) :
    Except Errno Unit × HostBus δ :=
  if found.bus then
    match found.slot with
    | none => (.error .enospc, host)
    | some slot =>
      let host := hijack host v slot
      if found.scan then
        (.ok (), { host with
          rc := Function.update host.rc v { host.rc v with rootBus := true } })
      else
        (.error .enodev, restore host v)
  else
    (.error .enodev, host)

/-- The mode-specific part of `pciem_complete_init`, with what follows a failure. -/
def attach (host : HostBus δ) (v : δ) (found : Found) : HostBus δ :=
  match pciemInitAttachToHostMode host v found with
  | (.ok (), host) => host
  | (.error _, host) => restore host v

def blank : PciemRootComplex δ where
  siblingFuncs _ := none
  hijack := ⟨0, none⟩
  rootBus := false

def pristine : HostBus δ where
  ops := .hardware
  rc _ := blank

/-- `pciem_teardown_device`, after which the root complex is freed. -/
def detach (host : HostBus δ) (v : δ) : HostBus δ :=
  let host := if (host.rc v).rootBus then restore host v else host
  { host with rc := Function.update host.rc v blank }

section Attach

variable {host : HostBus δ} {v : δ}

theorem attach_success (host : HostBus δ) (v : δ) (slot : Slot) :
    attach host v ⟨true, some slot, true⟩ =
      ⟨.proxy v, Function.update host.rc v (hijackedRc host v slot true)⟩ := by
  simp [attach, pciemInitAttachToHostMode, hijack, hijackedRc]

theorem attach_scan_failed (host : HostBus δ) (v : δ) (slot : Slot) :
    attach host v ⟨true, some slot, false⟩ = ⟨host.ops,
      Function.update host.rc v (hijackedRc host v slot (host.rc v).rootBus)⟩ := by
  simp [attach, pciemInitAttachToHostMode, hijack, restore, hijackedRc]

theorem attach_not_found (host : HostBus δ) (v : δ) {found : Found}
    (h : ¬ (found.bus = true ∧ found.slot.isSome)) : attach host v found = restore host v := by
  obtain ⟨bus, slot, scan⟩ := found
  cases bus with
  | false => rfl
  | true =>
    cases slot with
    | none => rfl
    | some slot => exact absurd ⟨rfl, rfl⟩ h

theorem detach_attached (h : (host.rc v).rootBus = true) : detach host v =
    ⟨(host.rc v).hijack.originalOps.getD host.ops, Function.update host.rc v blank⟩ := by
  rw [detach, if_pos h, restore_eq]

theorem detach_of_not (h : ¬ (host.rc v).rootBus = true) :
    detach host v = ⟨host.ops, Function.update host.rc v blank⟩ := by
  rw [detach, if_neg h]

end Attach

end Pciem.Attach.Hijack
