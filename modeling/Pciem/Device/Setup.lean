import Pciem.Bar.Table
import Pciem.Config.Build

namespace Pciem.Device.Setup

open Kernel Library.ByteMemory Config.Capabilities Config.Layout Config.Build
  Bar.Table

structure PciemConfigSpace where
  vendorId : BitVec 16
  deviceId : BitVec 16
  subsysVendorId : BitVec 16
  subsysDeviceId : BitVec 16
  revision : BitVec 8
  classCode : Fin 3 → BitVec 8
  headerType : BitVec 8

/-- SET_CONFIG on the function that the request selects. -/
def pciemIoctlSetConfig (v : PciemRootComplex) (c : PciemConfigSpace) : PciemRootComplex :=
  let config := v.space
  let config := store config (cfg pciVendorId) (bytes c.vendorId 2)
  let config := store config (cfg pciDeviceId) (bytes c.deviceId 2)
  let config := store config (cfg pciSubsystemVendorId) (bytes c.subsysVendorId 2)
  let config := store config (cfg pciSubsystemId) (bytes c.subsysDeviceId 2)
  let config := store config (cfg pciRevisionId) [c.revision]
  let config := store config (cfg pciClassProg) [c.classCode 0]
  let config := store config (cfg pciClassDevice) [c.classCode 1]
  let config := store config (cfg (pciClassDevice + 1)) [c.classCode 2]
  let config := store config (cfg pciHeaderType) [c.headerType]
  let config := store config (cfg pciCommand) (bytes pciCommandMemory 2)
  let config := store config (cfg pciStatus) (bytes pciStatusCapList 2)
  let config := store config (cfg pciInterruptPin) [1]
  { v with space := config }

/-- The calls that change a function between CREATE_DEVICE and REGISTER. -/
inductive Call
  | setConfig (c : PciemConfigSpace)
  | addCapability (req : PciemCapConfig)
  | addBar (call : AddBar)

def Call.isSetConfig : Call → Bool
  | .setConfig _ => true
  | _ => false

/-- The function that CREATE_DEVICE makes; `allocated` tells whether there is room for its
capability manager. -/
def pciemIoctlCreateDevice (allocated : Bool) : PlacedFunction :=
  { PlacedFunction.alloc with rc := pciemInitCapManager PlacedFunction.alloc.rc allocated }

/-- A call that fails leaves the function as it was. -/
def perform (f : PlacedFunction) : Call → PlacedFunction
  | .setConfig c => { f with rc := pciemIoctlSetConfig f.rc c }
  | .addCapability req =>
    match pciemIoctlAddCapability f.rc req with
    | .ok rc => { f with rc }
    | .error _ => f
  | .addBar call => addBar f call

def setUp (allocated : Bool) (calls : List Call) : PlacedFunction :=
  calls.foldl perform (pciemIoctlCreateDevice allocated)

/-- The capabilities of a function are those that some requests have asked for. -/
def Asked (v : PciemRootComplex) : Prop :=
  ∀ mgr, v.capMgr = some mgr → ∃ reqs, Requested reqs mgr

section Calls

variable {f : PlacedFunction} {allocated : Bool}

theorem addBar_rest (f : PlacedFunction) (call : AddBar) :
    (addBar f call).rc.capMgr = f.rc.capMgr ∧
      (addBar f call).rc.space = f.rc.space ∧
      (addBar f call).rc.detaching = f.rc.detaching := by
  rw [addBar]
  split
  · rename_i f' h
    rw [pciemIoctlAddBar, pciemRegisterBar] at h
    split_ifs at h <;> cases h <;> exact ⟨rfl, rfl, rfl⟩
  · exact ⟨rfl, rfl, rfl⟩

theorem Asked.congr {v v' : PciemRootComplex} (h : Asked v) (hm : v'.capMgr = v.capMgr) :
    Asked v' :=
  fun mgr hmgr ↦ h mgr (hm.symm.trans hmgr)

theorem Asked.perform (h : Asked f.rc) (call : Call) : Asked (perform f call).rc := by
  cases call with
  | setConfig c => exact h.congr rfl
  | addCapability req =>
    rw [Setup.perform]
    split
    · rename_i rc hadd
      obtain ⟨mgr, hl, cap, hm, hcap, -, rfl⟩ := addCapability_eq_ok hadd
      intro mgr' hmgr'
      cases hmgr'
      obtain ⟨reqs, hreqs⟩ := h mgr hm
      refine ⟨reqs ++ [req], { hreqs.toLaid.add hl cap with caps := ?_ }⟩
      rw [List.filterMap_append, List.filterMap_cons_some hcap, List.filterMap_nil, ← hreqs.caps]
      simp [PciemCapManager.add]
    · exact h
  | addBar call => exact h.congr (addBar_rest f call).1

theorem asked_createDevice (allocated : Bool) : Asked (pciemIoctlCreateDevice allocated).rc := by
  intro mgr hm
  cases allocated with
  | false => cases hm
  | true =>
    cases hm
    exact ⟨[], { laid_empty with caps := rfl }⟩

theorem asked_setUp (allocated : Bool) (calls : List Call) : Asked (setUp allocated calls).rc := by
  induction calls using List.reverseRecOn with
  | nil => exact asked_createDevice allocated
  | append_singleton calls call ih =>
    rw [setUp, List.foldl_append]
    exact ih.perform call

theorem detaching_perform (f : PlacedFunction) (call : Call) :
    (perform f call).rc.detaching = f.rc.detaching := by
  cases call with
  | setConfig c => rfl
  | addCapability req =>
    rw [perform]
    split
    · rename_i rc hadd
      obtain ⟨mgr, hl, cap, -, -, -, rfl⟩ := addCapability_eq_ok hadd
      rfl
    · rfl
  | addBar call => exact (addBar_rest f call).2.2

theorem detaching_setUp (allocated : Bool) (calls : List Call) :
    (setUp allocated calls).rc.detaching = false := by
  induction calls using List.reverseRecOn with
  | nil => cases allocated <;> rfl
  | append_singleton calls call ih =>
    rw [setUp, List.foldl_append]
    exact (detaching_perform _ call).trans ih

theorem initial_of_requested {reqs : List PciemCapConfig} {mgr : PciemCapManager}
    (h : Requested reqs mgr) {entry : PciemCapEntry} (he : entry ∈ mgr.caps) :
    entry.cap.Initial := by
  obtain ⟨req, -, hcap⟩ := h.newCap he
  cases req with
  | msi | msix | pcie | pasid | pm =>
    rw [← Option.some.inj hcap]
    first | rfl | trivial
  | unsupported => cases hcap

theorem Asked.exists_requested {v : PciemRootComplex} (h : Asked v) {entry : PciemCapEntry}
    (he : entry ∈ capsOf v) : ∃ reqs mgr, Requested reqs mgr ∧ entry ∈ mgr.caps := by
  rw [capsOf] at he
  split at he
  · rename_i mgr hm
    obtain ⟨reqs, hreqs⟩ := h mgr hm
    exact ⟨reqs, mgr, hreqs, he⟩
  · cases he

theorem Asked.extended_base_ge {v : PciemRootComplex} (h : Asked v) :
    ∀ entry ∈ capsOf v, entry.isExtended = true → pciCfgSpaceSize ≤ entry.base := by
  intro entry he hk
  obtain ⟨reqs, mgr, hreqs, he⟩ := h.exists_requested he
  exact hreqs.extended_base_ge he hk

theorem Asked.contained {v : PciemRootComplex} (h : Asked v) :
    ∀ entry ∈ capsOf v, Contained entry := by
  intro entry he
  obtain ⟨reqs, mgr, hreqs, he⟩ := h.exists_requested he
  exact contained_of_requested hreqs he

theorem capsOf_perform (f : PlacedFunction) (call : Call) :
    ∃ post, capsOf (perform f call).rc = capsOf f.rc ++ post := by
  cases call with
  | setConfig c => exact ⟨[], (List.append_nil _).symm⟩
  | addCapability req =>
    rw [perform]
    split
    · rename_i rc hadd
      obtain ⟨mgr, hl, cap, hm, -, -, rfl⟩ := addCapability_eq_ok hadd
      have hcaps : capsOf f.rc = mgr.caps := by rw [capsOf, hm]
      rw [hcaps]
      exact ⟨_, rfl⟩
    · exact ⟨[], (List.append_nil _).symm⟩
  | addBar call =>
    refine ⟨[], ?_⟩
    rw [List.append_nil, capsOf, capsOf, perform, (addBar_rest f call).1]

theorem capsOf_foldl_perform (f : PlacedFunction) (calls : List Call) :
    ∃ post, capsOf (calls.foldl perform f).rc = capsOf f.rc ++ post := by
  induction calls generalizing f with
  | nil => exact ⟨[], (List.append_nil _).symm⟩
  | cons call calls ih =>
    obtain ⟨post, hpost⟩ := capsOf_perform f call
    obtain ⟨post', hpost'⟩ := ih (perform f call)
    exact ⟨post ++ post', by rw [List.foldl_cons, hpost', hpost, List.append_assoc]⟩

end Calls

section Status

/-- Whether SET_CONFIG has been called shows in the low byte of the status register. -/
theorem status_perform (f : PlacedFunction) (call : Call) :
    (perform f call).rc.space (cfg pciStatus) =
      if call.isSetConfig then 0x10 else f.rc.space (cfg pciStatus) := by
  cases call with
  | setConfig c =>
    have hbyte : bytes pciStatusCapList 2 = [0x10, 0] := by decide
    rw [perform, pciemIoctlSetConfig]
    dsimp only
    rw [store_singleton_of_ne (by decide), hbyte]
    rfl
  | addCapability req =>
    rw [perform]
    split
    · rename_i rc hadd
      obtain ⟨mgr, hl, cap, -, -, -, rfl⟩ := addCapability_eq_ok hadd
      rfl
    · rfl
  | addBar call => exact congrFun (addBar_rest f call).2.1 _

theorem status_setUp (allocated : Bool) (calls : List Call) :
    (setUp allocated calls).rc.space (cfg pciStatus) =
      if calls.any Call.isSetConfig then 0x10 else 0 := by
  induction calls using List.reverseRecOn with
  | nil => cases allocated <;> rfl
  | append_singleton calls call ih =>
    rw [setUp, List.foldl_append]
    refine (status_perform _ call).trans ?_
    rw [List.any_append, List.any_cons, List.any_nil, Bool.or_false]
    cases hcall : call.isSetConfig with
    | true => simp
    | false => simpa [setUp] using ih

end Status

end Pciem.Device.Setup
