import Pciem.Pool.Allocate
import Pciem.Slot.Concurrent

namespace Pciem.Slot.Stepwise

open Kernel Library.Unwinding Bar.Table Config.Capabilities Device.Setup Register Ioctl Effects
  Invariant Concurrent Pool.Allocate
open State hiding PciemRootComplex

variable {δ : Type}

section Bar

/-- `pciem_pool_alloc`, before the call goes on with the address. -/
def withChunk (size : BitVec 64) (next : BitVec 64 → FunctionCall δ) : FunctionCall δ := fun s ↦
  let (phys, pool) := pciemPoolAlloc s.1.pool size
  next phys ({ s.1 with pool }, s.2)

def writeBar (i : ℕ) (f : PciemBarInfo → PciemBarInfo) : FunctionCall δ :=
  update fun s ↦ withPlaced s (s.2.placed.setBarInfo i (f (s.2.placed.rc.bars i)))

def writePlace (i : ℕ) (f : PciemBarPlace → PciemBarPlace) : FunctionCall δ :=
  update fun s ↦ withPlaced s { s.2.placed with
    places := Function.update s.2.placed.places i (f (s.2.placed.places i)) }

/-- What is written of a BAR that has its memory. -/
def writeChunk (i : ℕ) (size : BitVec 64) (flags : BitVec 32) (phys : BitVec 64) :
    FunctionCall δ :=
  andThen (writeBar i fun bar ↦ { bar with size }) <|
    andThen (writeBar i fun bar ↦ { bar with flags }) <|
      andThen (writeBar i fun bar ↦ { bar with baseAddrVal := 0 }) <|
        andThen (writePlace i fun place ↦ { place with carvedStart := phys })
          (writePlace i fun place ↦ { place with carvedEnd := phys + size - 1 })

/-- `pciem_register_bar`, by its tests and its writes. -/
def registerBar (barNum : BitVec 32) (size : BitVec 64) (flags : BitVec 32) : FunctionCall δ :=
  let i := barNum.toNat
  andThen (require (i < pciStdNumBars) .einval) <|
    if size = 0 then
      andThen (writeBar i fun bar ↦ { bar with size := 0 })
        (writeBar i fun bar ↦ { bar with flags := 0 })
    else
      andThen (require (size &&& (size - 1) = 0) .einval) <|
        withChunk size fun phys ↦
          andThen (require (phys ≠ 0) .enomem) (writeChunk i size flags phys)

def addBar (cfg : PciemBarConfig) : FunctionCall δ :=
  andThen (require (cfg.barIndex.toNat < pciStdNumBars) .einval) <|
    andThen (require (cfg.size = 0 ∨ cfg.size &&& (cfg.size - 1) = 0) .einval) <|
      registerBar cfg.barIndex cfg.size cfg.flags

end Bar

section Capability

/-- `mgr && mgr->num_caps < MAX_PCI_CAPS` -/
def hasRoom (v : Config.Capabilities.PciemRootComplex) : Bool :=
  match v.capMgr with
  | none => false
  | some mgr => decide (mgr.caps.length < maxPciCaps)

/-- The new entry, its offset and the number of capabilities are written. -/
def appendCap (v : Config.Capabilities.PciemRootComplex) (isExtended : Bool) (size : BitVec 8)
    (cap : PciemCap) : Config.Capabilities.PciemRootComplex :=
  match v.capMgr with
  | none => v
  | some mgr =>
    if h : mgr.caps.length < maxPciCaps then
      { v with capMgr := some (mgr.add h isExtended size cap) }
    else v

/-- What the `pciem_add_cap_*` functions have in common; `check` is the test of each of its
own. -/
def addCap (check : PciemCapManager → Except Errno Unit) (isExtended : Bool) (size : BitVec 8)
    (cap : PciemCap) : FunctionCall δ :=
  andThen (test (fun s ↦ hasRoom s.2.placed.rc = true) .enomem) <|
    andThen (fun s ↦ (s.2.placed.rc.capMgr.elim (.ok ()) check, s)) <|
      update fun s ↦ withPlaced s { s.2.placed with
        rc := appendCap s.2.placed.rc isExtended size cap }

def addCapMsi (cfg : PciemCapMsiConfig) : FunctionCall δ :=
  addCap
    (fun mgr ↦ match pciemCapManagerFind mgr PciemCap.pcie? with
      | none => .error .einval
      | some pcie => pciemCheckMsiAddressWidth pcie.deviceType cfg.has64bit)
    false (msiCapSize cfg) (.msi cfg ⟨0, 0, 0, 0, 0⟩)

def addCapMsix (cfg : PciemCapMsixConfig) : FunctionCall δ :=
  addCap (fun _ ↦ .ok ()) false 12 (.msix cfg ⟨(cfg.tableSize - 1) &&& 0x7FF⟩)

def addCapPm (cfg : PciemCapPmConfig) : FunctionCall δ :=
  addCap (fun _ ↦ .ok ()) false 8 (.pm cfg ⟨0, 0⟩)

def addCapPcie (cfg : PciemCapPcieConfig) : FunctionCall δ :=
  addCap
    (fun mgr ↦ match pciemCapManagerFind mgr PciemCap.msi? with
      | none => .ok ()
      | some msi => pciemCheckMsiAddressWidth cfg.deviceType msi.has64bit)
    false 60 (.pcie cfg)

def addCapPasid (cfg : PciemCapPasidConfig) : FunctionCall δ :=
  addCap (fun _ ↦ .ok ()) true 8 (.pasid cfg ⟨0, 0⟩)

def addCapability : PciemCapConfig → FunctionCall δ
  | .msi msiCfg => addCapMsi {
      numVectorsLog2 := msiCfg.numVectorsLog2
      has64bit := msiCfg.has64bit ≠ 0
      hasPerVectorMasking := msiCfg.hasMasking ≠ 0 }
  | .msix msixCfg => addCapMsix {
      barIndex := msixCfg.barIndex
      tableOffset := msixCfg.tableOffset
      pbaOffset := msixCfg.pbaOffset
      tableSize := msixCfg.tableSize }
  | .pcie => addCapPcie ⟨0, 0, 0⟩
  | .pasid _ => addCapPasid ⟨0, false, false⟩
  | .pm => addCapPm ⟨false, false, false, 0⟩
  | .unsupported _ => ofExcept (.error .enotsupp)

end Capability

def setConfig (c : PciemConfigSpace) : FunctionCall δ :=
  update fun s ↦ withPlaced s { s.2.placed with rc := pciemIoctlSetConfig s.2.placed.rc c }

/-- What ADD_BAR, ADD_CAPABILITY and SET_CONFIG begin with. -/
def onRequested (argCopied : Bool) (func : BitVec 8) (x : FunctionCall δ) : SlotCall δ :=
  andThen (fun us ↦ (pciemCheckUnregistered us, us)) <|
    andThen (require (argCopied = true) .efault) <|
      andThen (test (fun us ↦ (usGetRc us func.toNat).isSome = true) .enodev) <|
        onFunc func.toNat x

def createDevice (argCopied : Bool) (req : PciemCreateDevice) (memory : Option δ)
    (capMgr : Bool) : SlotCall δ :=
  let func := req.func.toNat
  andThen (require (argCopied = true) .efault) <|
    andThen (require (func < pciemMaxFunctions) .einval) <|
      andThen (test (fun us ↦ (us.slot.funcs func).isNone = true) .ebusy) <|
        andThen (test (fun us ↦ func > 0 → (us.slot.funcs 0).isSome = true) .einval) <|
          match memory with
          | none => ofExcept (.error .enomem)
          | some address =>
            andThen (update fun us ↦ setMode us req) <|
              update fun us ↦
                storeFunction us func (newFunction address us.slot.busMode capMgr)

/-- The calls that configure a slot. `memory` is the root complex of a new function, if there is
room for one, and `capMgr` tells whether there is room for its capability manager. -/
inductive Request (δ : Type)
  | createDevice (argCopied : Bool) (req : PciemCreateDevice) (memory : Option δ) (capMgr : Bool)
  | addBar (argCopied : Bool) (func : BitVec 8) (cfg : PciemBarConfig)
  | addCapability (argCopied : Bool) (func : BitVec 8) (cfg : PciemCapConfig)
  | setConfig (argCopied : Bool) (func : BitVec 8) (cfg : PciemConfigSpace)

def serve : Request δ → SlotCall δ
  | .createDevice argCopied req memory capMgr => createDevice argCopied req memory capMgr
  | .addBar argCopied func cfg => onRequested argCopied func (addBar cfg)
  | .addCapability argCopied func cfg => onRequested argCopied func (addCapability cfg)
  | .setConfig argCopied func cfg => onRequested argCopied func (setConfig cfg)

section Fails

variable {us : PciemUserspaceState δ} {s : FunctionState δ}

theorem withChunk_eq (size : BitVec 64) (next : BitVec 64 → FunctionCall δ) :
    withChunk size next s = next (pciemPoolAlloc s.1.pool size).1
      ({ s.1 with pool := (pciemPoolAlloc s.1.pool size).2 }, s.2) := rfl

theorem failsUnchanged_registerBar (hclaimed : Claimed s.1.pool) (hbase : s.1.pool.base ≠ 0)
    (barNum : BitVec 32) (size : BitVec 64) (flags : BitVec 32) :
    FailsUnchanged (registerBar barNum size flags) s := by
  refine .andThen_require fun _ ↦ ?_
  split_ifs
  · exact .of_ok rfl
  · refine .andThen_require fun _ e he ↦ ?_
    rw [withChunk_eq] at he ⊢
    generalize hphys : (pciemPoolAlloc s.1.pool size).1 = phys at he ⊢
    by_cases hzero : phys = 0
    · have hpool := poolAlloc_of_zero hclaimed hbase (hphys.trans hzero)
      rw [andThen_require_of_neg (not_not.mpr hzero), hpool]
    · rw [andThen_require_of_pos hzero] at he
      cases he

theorem failsUnchanged_addBar (hclaimed : Claimed s.1.pool) (hbase : s.1.pool.base ≠ 0)
    (cfg : PciemBarConfig) : FailsUnchanged (addBar cfg) s :=
  .andThen_require fun _ ↦ .andThen_require fun _ ↦ failsUnchanged_registerBar hclaimed hbase _ _ _

theorem failsUnchanged_addCap (check : PciemCapManager → Except Errno Unit) (isExtended : Bool)
    (size : BitVec 8) (cap : PciemCap) :
    FailsUnchanged (addCap check isExtended size cap) s :=
  .andThen_test fun _ ↦ .andThen rfl (.of_ok rfl)

theorem failsUnchanged_addCapability (cfg : PciemCapConfig) :
    FailsUnchanged (addCapability cfg) s := by
  cases cfg with
  | msi | msix | pcie | pasid | pm => exact failsUnchanged_addCap _ _ _ _
  | unsupported => exact fun _ _ ↦ rfl

theorem setFunc_unchanged {v : RootComplex δ} {k : ℕ} (hv : us.slot.funcs k = some v) :
    setFunc us us.world k v = us := by
  have hfuncs : Function.update us.slot.funcs k (some v) = us.slot.funcs := by
    rw [← hv, Function.update_eq_self]
  rw [setFunc, hfuncs]

theorem failsUnchanged_onFunc {x : FunctionCall δ} {k : ℕ}
    (hx : ∀ v, us.slot.funcs k = some v → FailsUnchanged x (us.world, v)) :
    FailsUnchanged (onFunc k x) us := by
  intro e he
  cases hv : us.slot.funcs k with
  | none => rw [onFunc_of_none hv]
  | some v =>
    rw [onFunc_of_some hv] at he ⊢
    have hsame := hx v hv e he
    simp only [hsame, setFunc_unchanged hv]

theorem failsUnchanged_onRequested {x : FunctionCall δ} {argCopied : Bool} {func : BitVec 8}
    (hx : ∀ v, FailsUnchanged x (us.world, v)) :
    FailsUnchanged (onRequested argCopied func x) us :=
  .andThen rfl <| .andThen_require fun _ ↦
    .andThen_test fun _ ↦ failsUnchanged_onFunc fun v _ ↦ hx v

theorem failsUnchanged_createDevice (argCopied : Bool) (req : PciemCreateDevice)
    (memory : Option δ) (capMgr : Bool) :
    FailsUnchanged (createDevice argCopied req memory capMgr) us := by
  refine .andThen_require fun _ ↦ .andThen_require fun _ ↦ .andThen_test fun _ ↦
    .andThen_test fun _ ↦ ?_
  cases memory with
  | none => exact fun _ _ ↦ rfl
  | some address => exact .of_ok rfl

/-- A call that fails leaves everything as it was. -/
theorem failed_request_changes_nothing (us : PciemUserspaceState δ)
    (hclaimed : Claimed us.world.pool) (hbase : us.world.pool.base ≠ 0) (r : Request δ) (e : Errno)
    (h : (serve r us).1 = .error e) : (serve r us).2 = us := by
  revert e
  change FailsUnchanged (serve r) us
  cases r with
  | createDevice argCopied req memory capMgr =>
    exact failsUnchanged_createDevice argCopied req memory capMgr
  | addBar argCopied func cfg =>
    exact failsUnchanged_onRequested fun _ ↦ failsUnchanged_addBar hclaimed hbase cfg
  | addCapability argCopied func cfg =>
    exact failsUnchanged_onRequested fun _ ↦ failsUnchanged_addCapability cfg
  | setConfig argCopied func cfg => exact failsUnchanged_onRequested fun _ ↦ .of_ok rfl

/-- A slot with function 0, whose pool has one page, which is in use. -/
def crowded : PciemUserspaceState ℕ :=
  step (opened .hardware (fun _ ↦ false) ⟨12, 0x1000, 0x1000, fun _ ↦ true⟩)
    (.createDevice true ⟨0, 0⟩ (some 7) true)

theorem failed_request_changes_nothing_no_memory :
    (serve (.addBar true 0 ⟨0, 0, 0x1000⟩) crowded).1 = .error .enomem ∧
      (serve (.addBar true 0 ⟨0, 0, 0x1000⟩) crowded).2 = crowded := by
  have herror : (serve (.addBar true 0 ⟨0, 0, 0x1000⟩) crowded).1 = .error .enomem := by decide
  have hclaimed : Claimed crowded.world.pool := by decide
  exact ⟨herror, failed_request_changes_nothing crowded hclaimed (by decide) _ _ herror⟩

end Fails

section Refinement

variable {us : PciemUserspaceState δ} {s : FunctionState δ}

/-- What a call leaves of the function and of the pool. -/
def outcome (s : FunctionState δ) (pool : PciemMempool) (r : Except Errno PlacedFunction) :
    Except Errno Unit × FunctionState δ :=
  match r with
  | .ok placed => (.ok (), withPlaced ({ s.1 with pool }, s.2) placed)
  | .error e => (.error e, s)

/-- The outcome of a call of the sequential model. -/
def performed (s : FunctionState δ) (call : Call) : Except Errno Unit × FunctionState δ :=
  outcome s (poolAfter s.1.pool call) (configured s.2.placed call)

theorem addCap_eq (check : PciemCapManager → Except Errno Unit) (isExtended : Bool)
    (size : BitVec 8) (cap : PciemCap) : addCap check isExtended size cap s =
      outcome s s.1.pool ((Config.Capabilities.addCap s.2.placed.rc check isExtended size cap).map
        fun rc ↦ { s.2.placed with rc }) := by
  rw [addCap, Config.Capabilities.addCap]
  cases hmgr : s.2.placed.rc.capMgr with
  | none => simp [andThen, test, hasRoom, hmgr, outcome, Except.map]
  | some mgr =>
    by_cases hl : mgr.caps.length < maxPciCaps
    · cases hcheck : check mgr with
      | error e =>
        simp [andThen, test, hasRoom, hmgr, hl, hcheck, outcome, Except.map, bind, Except.bind]
      | ok _ =>
        simp [andThen, test, hasRoom, hmgr, hl, hcheck, outcome, Except.map, bind, Except.bind,
          update, appendCap, pure, Except.pure]
    · simp [andThen, test, hasRoom, hmgr, hl, outcome, Except.map]

theorem addCapability_eq (cfg : PciemCapConfig) : addCapability cfg s =
    performed s (.addCapability cfg) := by
  cases cfg with
  | msi | msix | pcie | pasid | pm => exact addCap_eq _ _ _ _
  | unsupported => rfl

/-- ADD_BAR with the address that the pool has for it. -/
def barCall (pool : PciemMempool) (cfg : PciemBarConfig) : Call :=
  .addBar ⟨cfg, (pciemPoolAlloc pool cfg.size).1⟩

theorem poolAfter_barCall {cfg : PciemBarConfig} {pool : PciemMempool} (hsize : cfg.size ≠ 0)
    (hphys : (pciemPoolAlloc pool cfg.size).1 ≠ 0) :
    poolAfter pool (barCall pool cfg) = (pciemPoolAlloc pool cfg.size).2 := by
  rw [barCall, poolAfter, if_neg hsize]
  rcases poolAlloc_cases pool cfg.size with heq | ⟨page, -, -, heq⟩
  · exact absurd (congrArg Prod.fst heq) hphys
  · rw [heq]

theorem registerBar_eq (hclaimed : Claimed s.1.pool) (hbase : s.1.pool.base ≠ 0)
    (cfg : PciemBarConfig) : registerBar cfg.barIndex cfg.size cfg.flags s =
      outcome s (poolAfter s.1.pool (barCall s.1.pool cfg))
        (pciemRegisterBar s.2.placed cfg.barIndex cfg.size cfg.flags
          (pciemPoolAlloc s.1.pool cfg.size).1) := by
  rw [registerBar, pciemRegisterBar]
  by_cases hi : cfg.barIndex.toNat < pciStdNumBars
  case neg =>
    rw [andThen_require_of_neg hi, if_pos (Nat.not_lt.mp hi)]
    rfl
  rw [andThen_require_of_pos hi, if_neg (Nat.not_le.mpr hi)]
  by_cases hsize : cfg.size = 0
  · rw [if_pos hsize, if_pos hsize]
    simp [outcome, barCall, poolAfter, hsize, andThen, writeBar, update, withPlaced,
      PlacedFunction.setBarInfo]
  rw [if_neg hsize, if_neg hsize]
  by_cases hpow : cfg.size &&& (cfg.size - 1) = 0
  case neg =>
    rw [andThen_require_of_neg hpow, if_pos hpow]
    rfl
  rw [andThen_require_of_pos hpow, if_neg (not_not.mpr hpow), withChunk_eq]
  by_cases hphys : (pciemPoolAlloc s.1.pool cfg.size).1 = 0
  · have hpool := poolAlloc_of_zero hclaimed hbase hphys
    simp [hphys, hpool, andThen_require_of_neg, outcome]
  · have hpool := poolAfter_barCall hsize hphys
    rw [andThen_require_of_pos hphys, if_neg hphys]
    simp [hpool, andThen, outcome, writeChunk, writeBar, writePlace, update, withPlaced,
      PlacedFunction.setBarInfo]

theorem addBar_eq (hclaimed : Claimed s.1.pool) (hbase : s.1.pool.base ≠ 0)
    (cfg : PciemBarConfig) : addBar cfg s = performed s (barCall s.1.pool cfg) := by
  rw [addBar, performed, configured.eq_def, barCall]
  dsimp only
  rw [pciemIoctlAddBar]
  by_cases hi : cfg.barIndex.toNat < pciStdNumBars
  case neg =>
    rw [andThen_require_of_neg hi, if_pos (Nat.not_lt.mp hi)]
    rfl
  rw [andThen_require_of_pos hi, if_neg (Nat.not_le.mpr hi)]
  by_cases hpow : cfg.size = 0 ∨ cfg.size &&& (cfg.size - 1) = 0
  case neg =>
    rw [andThen_require_of_neg hpow, if_pos (not_or.mp hpow)]
    rfl
  have hno : ¬ (cfg.size ≠ 0 ∧ cfg.size &&& (cfg.size - 1) ≠ 0) := by
    rwa [not_and_or, not_not, not_not]
  rw [andThen_require_of_pos hpow, if_neg hno, registerBar_eq hclaimed hbase, barCall]

/-- The ioctl that the request is. -/
def Request.command (pool : PciemMempool) : Request δ → Command δ
  | .createDevice argCopied req memory capMgr => .createDevice argCopied req memory capMgr
  | .addBar argCopied func cfg => .configure argCopied func (barCall pool cfg)
  | .addCapability argCopied func cfg => .configure argCopied func (.addCapability cfg)
  | .setConfig argCopied func cfg => .configure argCopied func (.setConfig cfg)

theorem onRequested_eq {x : FunctionCall δ} {argCopied : Bool} {func : BitVec 8} {call : Call}
    (hx : ∀ v, x (us.world, v) = performed (us.world, v) call) :
    onRequested argCopied func x us = pciemIoctlConfigure us argCopied func call := by
  rw [onRequested, pciemIoctlConfigure, andThen]
  dsimp only
  cases hcheck : pciemCheckUnregistered us with
  | error e => rfl
  | ok _ =>
    dsimp only
    by_cases hcopied : argCopied = true
    case neg =>
      rw [andThen_require_of_neg hcopied, if_pos (Bool.not_eq_true _ ▸ hcopied)]
    rw [andThen_require_of_pos hcopied, if_neg (by simp [hcopied])]
    cases hv : usGetRc us func.toNat with
    | none =>
      exact andThen_test_of_neg (by simp [hv])
    | some v =>
      rw [andThen_test_of_pos (by simp [hv])]
      have hfunc : us.slot.funcs func.toNat = some v := by
        rw [usGetRc] at hv
        split_ifs at hv
        exact hv
      rw [onFunc_of_some hfunc, hx, performed]
      dsimp only
      cases configured v.placed call with
      | ok placed => rfl
      | error e => simp [outcome, setFunc_unchanged hfunc]

theorem createDevice_eq (argCopied : Bool) (req : PciemCreateDevice) (memory : Option δ)
    (capMgr : Bool) : createDevice argCopied req memory capMgr us =
      pciemIoctlCreateDevice us argCopied req memory capMgr := by
  unfold createDevice Ioctl.pciemIoctlCreateDevice
  dsimp only
  by_cases hcopied : argCopied = true
  case neg =>
    rw [andThen_require_of_neg hcopied, if_pos (Bool.not_eq_true _ ▸ hcopied)]
  rw [andThen_require_of_pos hcopied, if_neg (by simp [hcopied])]
  by_cases hfunc : req.func.toNat < pciemMaxFunctions
  case neg =>
    rw [andThen_require_of_neg hfunc, if_pos (Nat.not_lt.mp hfunc)]
  rw [andThen_require_of_pos hfunc, if_neg (Nat.not_le.mpr hfunc)]
  by_cases hempty : (us.slot.funcs req.func.toNat).isSome = true
  · rw [andThen_test_of_neg (by simpa [Option.isSome_iff_ne_none] using hempty), if_pos hempty]
  rw [andThen_test_of_pos (by simpa using hempty), if_neg hempty]
  by_cases hzero : req.func.toNat > 0 ∧ (us.slot.funcs 0).isNone = true
  · rw [andThen_test_of_neg (by simpa using hzero), if_pos hzero]
  rw [andThen_test_of_pos (by simpa [Option.isSome_iff_ne_none] using hzero), if_neg hzero]
  cases memory with
  | none => rfl
  | some address => rfl

/-- The calls by their steps are the calls of the sequential model, with the address that the
pool has for a BAR. -/
theorem serve_eq (hclaimed : Claimed us.world.pool) (hbase : us.world.pool.base ≠ 0)
    (r : Request δ) : pciemDeviceIoctl us (r.command us.world.pool) =
      (.returned (serve r us).1, (serve r us).2) := by
  cases r with
  | createDevice argCopied req memory capMgr =>
    rw [serve, createDevice_eq]
    rfl
  | addBar argCopied func cfg =>
    have heq (v : RootComplex δ) : addBar cfg (us.world, v) =
        performed (us.world, v) (barCall us.world.pool cfg) := addBar_eq hclaimed hbase cfg
    rw [serve, onRequested_eq heq]
    rfl
  | addCapability argCopied func cfg =>
    rw [serve, onRequested_eq fun v ↦ addCapability_eq cfg]
    rfl
  | setConfig argCopied func cfg =>
    have heq (v : RootComplex δ) : setConfig cfg (us.world, v) =
        performed (us.world, v) (.setConfig cfg) := rfl
    rw [serve, onRequested_eq heq]
    rfl

end Refinement

end Pciem.Slot.Stepwise
