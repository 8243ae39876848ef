import Pciem.Kernel.Errno
import Pciem.Kernel.PciRegs
import Pciem.Library.ByteMemory

namespace Pciem.Config.Capabilities

open Kernel Library.ByteMemory

def maxPciCaps : ℕ := 16

structure PciemCapMsiConfig where
  has64bit : Bool
  hasPerVectorMasking : Bool
  numVectorsLog2 : BitVec 8

structure PciemCapMsixConfig where
  barIndex : BitVec 8
  tableOffset : BitVec 32
  pbaOffset : BitVec 32
  tableSize : BitVec 16

structure PciemCapPmConfig where
  d1Support : Bool
  d2Support : Bool
  pmeSupport : Bool
  version : BitVec 8

structure PciemCapPcieConfig where
  deviceType : BitVec 8
  linkWidth : BitVec 8
  linkSpeed : BitVec 8

structure PciemCapVsecConfig where
  vendorId : BitVec 16
  vsecId : BitVec 16
  vsecRev : BitVec 8
  vsecLength : BitVec 16
  data : ℕ → BitVec 8

structure PciemCapPasidConfig where
  maxPasidWidth : BitVec 8
  executePermission : Bool
  privilegedMode : Bool

structure PciemMsiState where
  control : BitVec 16
  addressLo : BitVec 32
  addressHi : BitVec 32
  data : BitVec 16
  maskBits : BitVec 32

structure PciemMsixState where
  control : BitVec 16

structure PciemPmState where
  control : BitVec 16
  status : BitVec 16

structure PciemPasidState where
  control : BitVec 16
  pasid : BitVec 32

/-- The `type`, `config` and `state` of a `struct pciem_cap_entry`: the type tells which
members of the two unions are in use. -/
inductive PciemCap
  | msi (config : PciemCapMsiConfig) (state : PciemMsiState)
  | msix (config : PciemCapMsixConfig) (state : PciemMsixState)
  | pm (config : PciemCapPmConfig) (state : PciemPmState)
  | pcie (config : PciemCapPcieConfig)
  | vsec (config : PciemCapVsecConfig)
  | pasid (config : PciemCapPasidConfig) (state : PciemPasidState)

structure PciemCapEntry where
  offset : BitVec 8
  extOffset : BitVec 16
  isExtended : Bool
  size : BitVec 8
  cap : PciemCap

/-- The `cap_base` of a capability: its place in the 4096 bytes. -/
def PciemCapEntry.base (entry : PciemCapEntry) : ℕ :=
  if entry.isExtended then entry.extOffset.toNat else entry.offset.toNat

theorem PciemCapEntry.base_of_standard {entry : PciemCapEntry} (h : entry.isExtended = false) :
    entry.base = entry.offset.toNat := by
  rw [base, h, if_neg Bool.false_ne_true]

theorem PciemCapEntry.base_of_extended {entry : PciemCapEntry} (h : entry.isExtended = true) :
    entry.base = entry.extOffset.toNat := by
  rw [base, h, if_pos rfl]

/-- The used part of the array `caps`, with its `num_caps` for length. -/
@[ext]
structure PciemCapManager where
  caps : List PciemCapEntry
  nextOffset : BitVec 8
  extNextOffset : BitVec 16
  length_le : caps.length ≤ maxPciCaps

structure PciemBarInfo where
  size : BitVec 64
  flags : BitVec 32
  baseAddrVal : BitVec 32

/-- The part of a function that config accesses touch. `space` is `cfg` followed by
`ext_cfg`, which are neighbours in the struct. -/
structure PciemRootComplex where
  space : Memory
  bars : ℕ → PciemBarInfo
  capMgr : Option PciemCapManager
  detaching : Bool

/-- The place of `cfg[i]`. -/
abbrev cfg (i : ℕ) : ℕ := i

abbrev extCfg (i : ℕ) : ℕ := pciCfgSpaceSize + i

def pciemAllocRootComplex : PciemRootComplex where
  space _ := 0
  bars _ := ⟨0, 0, 0⟩
  capMgr := none
  detaching := false

def PciemCapManager.empty : PciemCapManager where
  caps := []
  nextOffset := 0x40
  extNextOffset := BitVec.ofNat 16 pciCfgSpaceSize
  length_le := Nat.zero_le _

/-- `allocated` tells whether `kzalloc` succeeds. -/
def pciemInitCapManager (v : PciemRootComplex) (allocated : Bool) : PciemRootComplex :=
  match v.capMgr with
  | some _ => v
  | none => if allocated then { v with capMgr := some .empty } else v

def msiCapSize (cfg : PciemCapMsiConfig) : BitVec 8 :=
  let size := 10
  let size := if cfg.has64bit then size + 4 else size
  let size := size + 2
  if cfg.hasPerVectorMasking then size + 8 else size

def PciemCap.msi? : PciemCap → Option PciemCapMsiConfig
  | .msi config _ => some config
  | _ => none

def PciemCap.pcie? : PciemCap → Option PciemCapPcieConfig
  | .pcie config => some config
  | _ => none

def pciemCapManagerFind {α : Type} (mgr : PciemCapManager) (config? : PciemCap → Option α) :
    Option α :=
  mgr.caps.findSome? fun entry ↦ config? entry.cap

def pciemCheckMsiAddressWidth (deviceType : BitVec 8) (has64bit : Bool) : Except Errno Unit :=
  if deviceType = pciExpTypeEndpoint ∧ ¬ has64bit then .error .einval else .ok ()

/-- A new last capability at the running offset of its kind, which is advanced by its size. -/
def PciemCapManager.add (mgr : PciemCapManager) (h : mgr.caps.length < maxPciCaps)
    (isExtended : Bool) (size : BitVec 8) (cap : PciemCap) : PciemCapManager where
  caps := mgr.caps ++ [{
    offset := if isExtended then 0 else mgr.nextOffset
    extOffset := if isExtended then mgr.extNextOffset else 0
    isExtended, size, cap }]
  nextOffset := if isExtended then mgr.nextOffset else mgr.nextOffset + size
  extNextOffset :=
    if isExtended then mgr.extNextOffset + size.setWidth 16 else mgr.extNextOffset
  length_le := by
    rw [List.length_append]
    exact h

/-- What the `pciem_add_cap_*` functions have in common; `check` is the test of each of
its own. -/
def addCap (v : PciemRootComplex) (check : PciemCapManager → Except Errno Unit)
    (isExtended : Bool) (size : BitVec 8) (cap : PciemCap) : Except Errno PciemRootComplex :=
  match v.capMgr with
  | none => .error .enomem
  | some mgr =>
    if h : mgr.caps.length < maxPciCaps then do
      check mgr
      return { v with capMgr := some (mgr.add h isExtended size cap) }
    else
      .error .enomem

def pciemAddCapMsi (v : PciemRootComplex) (cfg : PciemCapMsiConfig) :
    Except Errno PciemRootComplex :=
  addCap v
    (fun mgr ↦ match pciemCapManagerFind mgr PciemCap.pcie? with
      | none => .error .einval
      | some pcie => pciemCheckMsiAddressWidth pcie.deviceType cfg.has64bit)
    false (msiCapSize cfg) (.msi cfg ⟨0, 0, 0, 0, 0⟩)

def pciemAddCapMsix (v : PciemRootComplex) (cfg : PciemCapMsixConfig) :
    Except Errno PciemRootComplex :=
  addCap v (fun _ ↦ .ok ()) false 12 (.msix cfg ⟨(cfg.tableSize - 1) &&& 0x7FF⟩)

def pciemAddCapPm (v : PciemRootComplex) (cfg : PciemCapPmConfig) :
    Except Errno PciemRootComplex :=
  addCap v (fun _ ↦ .ok ()) false 8 (.pm cfg ⟨0, 0⟩)

def pciemAddCapPcie (v : PciemRootComplex) (cfg : PciemCapPcieConfig) :
    Except Errno PciemRootComplex :=
  addCap v
    (fun mgr ↦ match pciemCapManagerFind mgr PciemCap.msi? with
      | none => .ok ()
      | some msi => pciemCheckMsiAddressWidth cfg.deviceType msi.has64bit)
    false 60 (.pcie cfg)

/-- `allocated` tells whether `kmalloc` gives room for the copy of the data. -/
def pciemAddCapVsec (v : PciemRootComplex) (cfg : PciemCapVsecConfig) (allocated : Bool) :
    Except Errno PciemRootComplex :=
  addCap v (fun _ ↦ if allocated then .ok () else .error .enomem)
    false (8 + cfg.vsecLength.setWidth 8) (.vsec cfg)

def pciemAddCapPasid (v : PciemRootComplex) (cfg : PciemCapPasidConfig) :
    Except Errno PciemRootComplex :=
  addCap v (fun _ ↦ .ok ()) true 8 (.pasid cfg ⟨0, 0⟩)

structure PciemCapMsiUserspace where
  numVectorsLog2 : BitVec 8
  has64bit : BitVec 8
  hasMasking : BitVec 8

structure PciemCapMsixUserspace where
  barIndex : BitVec 8
  tableOffset : BitVec 32
  pbaOffset : BitVec 32
  tableSize : BitVec 16

structure PciemCapPasidUserspace where
  maxPasidWidth : BitVec 8
  executePermission : BitVec 8
  privilegedMode : BitVec 8

/-- A `struct pciem_cap_config`, its union read by its `cap_type`. -/
inductive PciemCapConfig
  | msi (msi : PciemCapMsiUserspace)
  | msix (msix : PciemCapMsixUserspace)
  | pcie
  | pasid (pasid : PciemCapPasidUserspace)
  | pm
  | unsupported (capType : BitVec 32)

/-- ADD_CAPABILITY on the function that the request selects. -/
def pciemIoctlAddCapability (v : PciemRootComplex) :
    PciemCapConfig → Except Errno PciemRootComplex
  | .msi msiCfg => pciemAddCapMsi v {
      numVectorsLog2 := msiCfg.numVectorsLog2
      has64bit := msiCfg.has64bit ≠ 0
      hasPerVectorMasking := msiCfg.hasMasking ≠ 0 }
  | .msix msixCfg => pciemAddCapMsix v {
      barIndex := msixCfg.barIndex
      tableOffset := msixCfg.tableOffset
      pbaOffset := msixCfg.pbaOffset
      tableSize := msixCfg.tableSize }
  | .pcie => pciemAddCapPcie v ⟨0, 0, 0⟩
  | .pasid _ => pciemAddCapPasid v ⟨0, false, false⟩
  | .pm => pciemAddCapPm v ⟨false, false, false, 0⟩
  | .unsupported _ => .error .enotsupp

def PciemCap.isExtended : PciemCap → Bool
  | .pasid _ _ => true
  | _ => false

def PciemCap.size : PciemCap → BitVec 8
  | .msi config _ => msiCapSize config
  | .msix _ _ => 12
  | .pm _ _ => 8
  | .pcie _ => 60
  | .vsec config => 8 + config.vsecLength.setWidth 8
  | .pasid _ _ => 8

def PciemCap.Initial : PciemCap → Prop
  | .msi _ state => state = ⟨0, 0, 0, 0, 0⟩
  | .msix config state => state = ⟨(config.tableSize - 1) &&& 0x7FF⟩
  | .pm _ state => state = ⟨0, 0⟩
  | .pasid _ state => state = ⟨0, 0⟩
  | .pcie _ | .vsec _ => True

def PciemCapConfig.newCap : PciemCapConfig → Option PciemCap
  | .msi msiCfg => some (.msi
      ⟨msiCfg.has64bit ≠ 0, msiCfg.hasMasking ≠ 0, msiCfg.numVectorsLog2⟩ ⟨0, 0, 0, 0, 0⟩)
  | .msix msixCfg => some (.msix
      ⟨msixCfg.barIndex, msixCfg.tableOffset, msixCfg.pbaOffset, msixCfg.tableSize⟩
      ⟨(msixCfg.tableSize - 1) &&& 0x7FF⟩)
  | .pcie => some (.pcie ⟨0, 0, 0⟩)
  | .pasid _ => some (.pasid ⟨0, false, false⟩ ⟨0, 0⟩)
  | .pm => some (.pm ⟨false, false, false, 0⟩ ⟨0, 0⟩)
  | .unsupported _ => none

/-- A function whose capabilities were all added by the `pciem_add_cap_*` functions. -/
inductive Added : PciemRootComplex → Prop
  | init {v : PciemRootComplex} : v.capMgr = some .empty → Added v
  | msi {v v' : PciemRootComplex} {cfg : PciemCapMsiConfig} : Added v →
      pciemAddCapMsi v cfg = .ok v' → Added v'
  | msix {v v' : PciemRootComplex} {cfg : PciemCapMsixConfig} : Added v →
      pciemAddCapMsix v cfg = .ok v' → Added v'
  | pm {v v' : PciemRootComplex} {cfg : PciemCapPmConfig} : Added v →
      pciemAddCapPm v cfg = .ok v' → Added v'
  | pcie {v v' : PciemRootComplex} {cfg : PciemCapPcieConfig} : Added v →
      pciemAddCapPcie v cfg = .ok v' → Added v'
  | vsec {v v' : PciemRootComplex} {cfg : PciemCapVsecConfig} {allocated : Bool} : Added v →
      pciemAddCapVsec v cfg allocated = .ok v' → Added v'
  | pasid {v v' : PciemRootComplex} {cfg : PciemCapPasidConfig} : Added v →
      pciemAddCapPasid v cfg = .ok v' → Added v'

theorem addCap_eq_ok {v v' : PciemRootComplex} {check : PciemCapManager → Except Errno Unit}
    {isExtended : Bool} {size : BitVec 8} {cap : PciemCap}
    (h : addCap v check isExtended size cap = .ok v') :
    ∃ mgr, ∃ hl : mgr.caps.length < maxPciCaps, v.capMgr = some mgr ∧ check mgr = .ok () ∧
      v' = { v with capMgr := some (mgr.add hl isExtended size cap) } := by
  rw [addCap] at h
  split at h
  · cases h
  · rename_i mgr hmgr
    split at h
    · rename_i hl
      cases ha : check mgr with
      | error e =>
        rw [ha] at h
        cases h
      | ok u =>
        rw [ha] at h
        cases h
        exact ⟨mgr, hl, hmgr, ha, rfl⟩
    · cases h

/-- What holds of the empty manager and is kept by every new capability holds of the
manager of a function. -/
theorem Added.invariant {I : PciemCapManager → Prop} (hempty : I .empty)
    (hadd : ∀ mgr (hl : mgr.caps.length < maxPciCaps) cap, cap.Initial → I mgr →
      I (mgr.add hl cap.isExtended cap.size cap))
    {v : PciemRootComplex} (h : Added v) {mgr : PciemCapManager} (hm : v.capMgr = some mgr) :
    I mgr := by
  have step {v v' : PciemRootComplex} {check : PciemCapManager → Except Errno Unit}
      (cap : PciemCap) (hi : cap.Initial) (ih : ∀ {mgr}, v.capMgr = some mgr → I mgr)
      (ha : addCap v check cap.isExtended cap.size cap = .ok v') {mgr : PciemCapManager}
      (hm : v'.capMgr = some mgr) : I mgr := by
    obtain ⟨mgr', hl, hm', -, rfl⟩ := addCap_eq_ok ha
    cases hm
    exact hadd mgr' hl cap hi (ih hm')
  induction h generalizing mgr with
  | init h =>
    cases h.symm.trans hm
    exact hempty
  | msi _ ha ih => exact step (.msi _ _) rfl ih ha hm
  | msix _ ha ih => exact step (.msix _ _) rfl ih ha hm
  | pm _ ha ih => exact step (.pm _ _) rfl ih ha hm
  | pcie _ ha ih => exact step (.pcie _) trivial ih ha hm
  | vsec _ ha ih => exact step (.vsec _) trivial ih ha hm
  | pasid _ ha ih => exact step (.pasid _ _) rfl ih ha hm

/-- The test that an MSI capability has passed. -/
def Admitted (mgr : PciemCapManager) (cap : PciemCap) : Prop :=
  ∀ config state, cap = .msi config state →
    ∃ pcie, pciemCapManagerFind mgr PciemCap.pcie? = some pcie ∧
      pciemCheckMsiAddressWidth pcie.deviceType config.has64bit = .ok ()

theorem addCapability_eq_ok {v v' : PciemRootComplex} {req : PciemCapConfig}
    (h : pciemIoctlAddCapability v req = .ok v') :
    ∃ mgr, ∃ hl : mgr.caps.length < maxPciCaps, ∃ cap, v.capMgr = some mgr ∧
      req.newCap = some cap ∧ Admitted mgr cap ∧
      v' = { v with capMgr := some (mgr.add hl cap.isExtended cap.size cap) } := by
  have step {check : PciemCapManager → Except Errno Unit} (cap : PciemCap)
      (ha : addCap v check cap.isExtended cap.size cap = .ok v') (hr : req.newCap = some cap)
      (hadmitted : ∀ mgr, check mgr = .ok () → Admitted mgr cap) :
      ∃ mgr, ∃ hl : mgr.caps.length < maxPciCaps, ∃ cap, v.capMgr = some mgr ∧
        req.newCap = some cap ∧ Admitted mgr cap ∧
        v' = { v with capMgr := some (mgr.add hl cap.isExtended cap.size cap) } := by
    obtain ⟨mgr, hl, hm, hok, rfl⟩ := addCap_eq_ok ha
    exact ⟨mgr, hl, cap, hm, hr, hadmitted mgr hok, rfl⟩
  cases req with
  | msi msiCfg =>
    refine step (.msi _ _) h rfl fun mgr hok config state hcap ↦ ?_
    cases hcap
    split at hok
    · cases hok
    · rename_i pcie hfind
      exact ⟨pcie, hfind, hok⟩
  | msix msixCfg => exact step (.msix _ _) h rfl fun _ _ _ _ hcap ↦ by cases hcap
  | pcie => exact step (.pcie _) h rfl fun _ _ _ _ hcap ↦ by cases hcap
  | pasid pasidCfg => exact step (.pasid _ _) h rfl fun _ _ _ _ hcap ↦ by cases hcap
  | pm => exact step (.pm _ _) h rfl fun _ _ _ _ hcap ↦ by cases hcap
  | unsupported => cases h

theorem Added.addCapability {v v' : PciemRootComplex} {req : PciemCapConfig} (hv : Added v)
    (h : pciemIoctlAddCapability v req = .ok v') : Added v' := by
  cases req with
  | msi msi => exact .msi hv h
  | msix msix => exact .msix hv h
  | pcie => exact .pcie hv h
  | pasid pasid => exact .pasid hv h
  | pm => exact .pm hv h
  | unsupported => cases h

end Pciem.Config.Capabilities
