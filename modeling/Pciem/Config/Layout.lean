import Pciem.Config.Capabilities
import Pciem.Library.BumpAllocator
import Mathlib

namespace Pciem.Config.Layout

open Kernel Library.BumpAllocator Capabilities

def fin (entry : PciemCapEntry) : ℕ := entry.base + entry.size.toNat

def Apart (a b : PciemCapEntry) : Prop := fin a ≤ b.base ∨ fin b ≤ a.base

instance (a b : PciemCapEntry) : Decidable (Apart a b) := inferInstanceAs (Decidable (_ ∨ _))

/-- What a capability layout has to be for config space to show every capability. -/
structure ValidLayout (mgr : PciemCapManager) : Prop where
  standard : ∀ entry ∈ mgr.caps, entry.isExtended = false →
    0x40 ≤ entry.base ∧ fin entry ≤ pciCfgSpaceSize
  extended : ∀ entry ∈ mgr.caps, entry.isExtended = true →
    pciCfgSpaceSize ≤ entry.base ∧ fin entry ≤ pciCfgSpaceExpSize
  disjoint : mgr.caps.Pairwise Apart
  aligned : ∀ entry ∈ mgr.caps, 4 ∣ entry.base

/-- The capability ranges fit in their spaces and are disjoint. -/
structure Separate (mgr : PciemCapManager) : Prop where
  standard : ∀ entry ∈ mgr.caps, entry.isExtended = false → fin entry ≤ pciCfgSpaceSize
  extended : ∀ entry ∈ mgr.caps, entry.isExtended = true →
    pciCfgSpaceSize ≤ entry.base ∧ fin entry ≤ pciCfgSpaceExpSize
  disjoint : mgr.caps.Pairwise Apart

theorem ValidLayout.separate {mgr : PciemCapManager} (h : ValidLayout mgr) : Separate mgr where
  standard entry he hk := (h.standard entry he hk).2
  extended := h.extended
  disjoint := h.disjoint

/-- The first place that capabilities of a kind may take. -/
def start (isExtended : Bool) : ℕ := if isExtended then 256 else 0x40

/-- The values that the running offset of a kind can count. -/
def span (isExtended : Bool) : ℕ := if isExtended then 65536 else 256

def running (mgr : PciemCapManager) (isExtended : Bool) : ℕ :=
  if isExtended then mgr.extNextOffset.toNat else mgr.nextOffset.toNat

def room (isExtended : Bool) (caps : List PciemCapEntry) : ℕ :=
  total (·.isExtended) (·.size.toNat) isExtended caps

def placed (caps : List PciemCapEntry) : List (ℕ × PciemCapEntry) :=
  place (·.isExtended) (·.size.toNat) start caps

/-- Every capability sits where a bump allocator puts it, as far as its running offset
can count. -/
structure Laid (mgr : PciemCapManager) : Prop where
  kind : ∀ entry ∈ mgr.caps, entry.isExtended = entry.cap.isExtended
  size : ∀ entry ∈ mgr.caps, entry.size = entry.cap.size
  base : ∀ x ∈ placed mgr.caps, x.2.base = x.1 % span x.2.isExtended
  next : ∀ k, running mgr k = (start k + room k mgr.caps) % span k

theorem laid_empty : Laid .empty where
  kind := by simp [PciemCapManager.empty]
  size := by simp [PciemCapManager.empty]
  base := by simp [PciemCapManager.empty, placed, place]
  next k := by cases k <;> decide

theorem running_add {mgr : PciemCapManager} (hl : mgr.caps.length < maxPciCaps)
    (isExtended : Bool) (size : BitVec 8) (cap : PciemCap) (k : Bool) :
    running (mgr.add hl isExtended size cap) k =
      (running mgr k + if isExtended = k then size.toNat else 0) % span k := by
  have h8 := mgr.nextOffset.isLt
  have h16 := mgr.extNextOffset.isLt
  have hsize := size.isLt
  cases isExtended <;> cases k <;>
    simp [running, PciemCapManager.add, span, BitVec.toNat_add] <;> omega

theorem base_add (mgr : PciemCapManager) (isExtended : Bool) (size : BitVec 8)
    (cap : PciemCap) :
    (PciemCapEntry.mk (if isExtended then 0 else mgr.nextOffset)
      (if isExtended then mgr.extNextOffset else 0) isExtended size cap).base =
        running mgr isExtended := by
  cases isExtended <;> rfl

theorem Laid.add {mgr : PciemCapManager} (h : Laid mgr) (hl : mgr.caps.length < maxPciCaps)
    (cap : PciemCap) : Laid (mgr.add hl cap.isExtended cap.size cap) where
  kind entry he := by
    rcases List.mem_append.mp he with he | he
    · exact h.kind entry he
    · rw [List.mem_singleton.mp he]
  size entry he := by
    rcases List.mem_append.mp he with he | he
    · exact h.size entry he
    · rw [List.mem_singleton.mp he]
  base x hx := by
    rw [placed, PciemCapManager.add, place_append] at hx
    rcases List.mem_append.mp hx with hx | hx
    · exact h.base x hx
    · rw [List.mem_singleton.mp hx, base_add]
      exact h.next cap.isExtended
  next k := by
    have hroom : room k (mgr.add hl cap.isExtended cap.size cap).caps =
        room k mgr.caps + if cap.isExtended = k then cap.size.toNat else 0 := by
      rw [room, PciemCapManager.add, total_append]
      rfl
    rw [running_add, h.next k, hroom, Nat.mod_add_mod, Nat.add_assoc]

theorem Laid.of_added {v : PciemRootComplex} (hv : Added v) {mgr : PciemCapManager}
    (hm : v.capMgr = some mgr) : Laid mgr :=
  hv.invariant laid_empty (fun _ hl cap _ h ↦ h.add hl cap) hm

/-- The capabilities that the requests of ADD_CAPABILITY, all returning 0, leave on a
function. -/
def addCapabilities (v : PciemRootComplex) (reqs : List PciemCapConfig) :
    Except Errno PciemRootComplex :=
  reqs.foldlM pciemIoctlAddCapability v

def stdSize : PciemCapConfig → ℕ
  | .msi msiCfg => 12 + (if msiCfg.has64bit ≠ 0 then 4 else 0) +
      (if msiCfg.hasMasking ≠ 0 then 8 else 0)
  | .msix _ => 12
  | .pcie => 60
  | .pm => 8
  | .pasid _ | .unsupported _ => 0

/-- The standard capabilities that the requests ask for fit between 0x40 and 0x100. -/
def Fits (reqs : List PciemCapConfig) : Prop := 0x40 + (reqs.map stdSize).sum ≤ pciCfgSpaceSize

instance (reqs : List PciemCapConfig) : Decidable (Fits reqs) := inferInstanceAs (Decidable (_ ≤ _))

theorem addCapabilities_eq_ok {v v' : PciemRootComplex} {reqs : List PciemCapConfig}
    {mgr : PciemCapManager} (hm : v.capMgr = some mgr) (hv : Added v)
    (h : addCapabilities v reqs = .ok v') :
    ∃ mgr', v' = { v with capMgr := some mgr' } ∧ Added v' ∧
      mgr'.caps.map (·.cap) = mgr.caps.map (·.cap) ++ reqs.filterMap (·.newCap) := by
  induction reqs generalizing v mgr with
  | nil =>
    cases h
    refine ⟨mgr, ?_, hv, by simp⟩
    rw [← hm]
  | cons req reqs ih =>
    rw [addCapabilities, List.foldlM_cons] at h
    cases hreq : pciemIoctlAddCapability v req with
    | error e =>
      rw [hreq] at h
      cases h
    | ok w =>
      rw [hreq] at h
      have hw := hv.addCapability hreq
      obtain ⟨mgr₁, hl, cap, hm₁, hcap, -, rfl⟩ := addCapability_eq_ok hreq
      cases hm.symm.trans hm₁
      obtain ⟨mgr', rfl, hv', hcaps⟩ := ih rfl hw h
      refine ⟨mgr', rfl, hv', ?_⟩
      rw [hcaps, List.filterMap_cons_some hcap]
      simp [PciemCapManager.add]

theorem toNat_msiCapSize (cfg : PciemCapMsiConfig) : (msiCapSize cfg).toNat =
    12 + (if cfg.has64bit then 4 else 0) + (if cfg.hasPerVectorMasking then 8 else 0) := by
  obtain ⟨has64bit, hasPerVectorMasking, -⟩ := cfg
  cases has64bit <;> cases hasPerVectorMasking <;> rfl

theorem newCap_size {req : PciemCapConfig} {cap : PciemCap} (h : req.newCap = some cap) :
    0 < cap.size.toNat ∧ 4 ∣ cap.size.toNat ∧
      stdSize req = if cap.isExtended = false then cap.size.toNat else 0 := by
  cases req with
  | msi msiCfg =>
    cases h
    simp only [PciemCap.size, PciemCap.isExtended, toNat_msiCapSize, stdSize, decide_eq_true_eq,
      if_true, and_true]
    split_ifs <;> decide
  | msix | pcie | pasid | pm =>
    cases h
    simp [PciemCap.size, PciemCap.isExtended, stdSize]
  | unsupported => cases h

theorem sum_stdSize (reqs : List PciemCapConfig) :
    ((reqs.filterMap (·.newCap)).map fun cap ↦
      if cap.isExtended = false then cap.size.toNat else 0).sum = (reqs.map stdSize).sum := by
  induction reqs with
  | nil => rfl
  | cons req reqs ih =>
    cases h : req.newCap with
    | none =>
      have hs : stdSize req = 0 := by
        cases req with
        | unsupported => rfl
        | msi | msix | pcie | pasid | pm => cases h
      rw [List.filterMap_cons_none h, ih, List.map_cons, List.sum_cons, hs, Nat.zero_add]
    | some cap =>
      rw [List.filterMap_cons_some h, List.map_cons, List.sum_cons, ih, List.map_cons,
        List.sum_cons, (newCap_size h).2.2]

theorem room_standard {caps : List PciemCapEntry}
    (hkind : ∀ entry ∈ caps, entry.isExtended = entry.cap.isExtended)
    (hsize : ∀ entry ∈ caps, entry.size = entry.cap.size) :
    room false caps = ((caps.map (·.cap)).map fun cap ↦
      if cap.isExtended = false then cap.size.toNat else 0).sum := by
  induction caps with
  | nil => rfl
  | cons entry caps ih =>
    have h := ih (fun e he ↦ hkind e (List.mem_cons_of_mem _ he))
      (fun e he ↦ hsize e (List.mem_cons_of_mem _ he))
    rw [room, total, ← room, h, hkind entry List.mem_cons_self, hsize entry List.mem_cons_self]
    simp

theorem room_extended {caps : List PciemCapEntry}
    (hkind : ∀ entry ∈ caps, entry.isExtended = entry.cap.isExtended)
    (hsize : ∀ entry ∈ caps, entry.size = entry.cap.size) :
    room true caps ≤ 8 * caps.length := by
  induction caps with
  | nil => exact Nat.le_refl 0
  | cons entry caps ih =>
    have h := ih (fun e he ↦ hkind e (List.mem_cons_of_mem _ he))
      (fun e he ↦ hsize e (List.mem_cons_of_mem _ he))
    have hentry : (if entry.isExtended = true then entry.size.toNat else 0) ≤ 8 := by
      rw [hkind entry List.mem_cons_self, hsize entry List.mem_cons_self]
      cases entry.cap <;> simp [PciemCap.isExtended, PciemCap.size]
    rw [room, total, ← room, List.length_cons]
    omega

theorem added_of_requests {v v' : PciemRootComplex} {reqs : List PciemCapConfig}
    (hnew : v.capMgr = some .empty) (h : addCapabilities v reqs = .ok v') : Added v' := by
  obtain ⟨_, -, hadded, -⟩ := addCapabilities_eq_ok hnew (.init hnew) h
  exact hadded

/-- Every PCIe capability is an endpoint's, and every MSI capability a 64-bit one. -/
structure Endpoint (mgr : PciemCapManager) : Prop where
  pcie : ∀ entry ∈ mgr.caps, ∀ config, entry.cap = .pcie config →
    config.deviceType = pciExpTypeEndpoint
  msi : ∀ entry ∈ mgr.caps, ∀ config state, entry.cap = .msi config state →
    config.has64bit = true

theorem Endpoint.add {mgr : PciemCapManager} (h : Endpoint mgr)
    (hl : mgr.caps.length < maxPciCaps) {req : PciemCapConfig} {cap : PciemCap}
    (hreq : req.newCap = some cap) (hadmitted : Admitted mgr cap) :
    Endpoint (mgr.add hl cap.isExtended cap.size cap) where
  pcie entry he config hcap := by
    rcases List.mem_append.mp he with he | he
    · exact h.pcie entry he config hcap
    · rw [List.mem_singleton.mp he] at hcap
      subst hcap
      cases req with
      | pcie =>
        cases hreq
        rfl
      | msi | msix | pasid | pm | unsupported => cases hreq
  msi entry he config state hcap := by
    rcases List.mem_append.mp he with he | he
    · exact h.msi entry he config state hcap
    · rw [List.mem_singleton.mp he] at hcap
      obtain ⟨pcie, hfind, hcheck⟩ := hadmitted config state hcap
      obtain ⟨entry', he', hpcie⟩ := List.exists_of_findSome?_eq_some hfind
      have htype : pcie.deviceType = pciExpTypeEndpoint := by
        refine h.pcie entry' he' pcie ?_
        cases hc : entry'.cap with
        | pcie config' =>
          rw [hc] at hpcie
          rw [Option.some.inj hpcie]
        | msi | msix | pm | vsec | pasid =>
          rw [hc] at hpcie
          cases hpcie
      by_contra h64
      rw [pciemCheckMsiAddressWidth, if_pos ⟨htype, h64⟩] at hcheck
      cases hcheck

theorem endpoint_of_requests {v v' : PciemRootComplex} {reqs : List PciemCapConfig}
    {mgr mgr' : PciemCapManager} (hm : v.capMgr = some mgr) (hmgr : Endpoint mgr)
    (h : addCapabilities v reqs = .ok v') (hm' : v'.capMgr = some mgr') : Endpoint mgr' := by
  induction reqs generalizing v mgr with
  | nil =>
    cases h
    cases hm.symm.trans hm'
    exact hmgr
  | cons req reqs ih =>
    rw [addCapabilities, List.foldlM_cons] at h
    cases hreq : pciemIoctlAddCapability v req with
    | error e =>
      rw [hreq] at h
      cases h
    | ok w =>
      rw [hreq] at h
      obtain ⟨mgr₁, hl, cap, hm₁, hcap, hadmitted, rfl⟩ := addCapability_eq_ok hreq
      cases hm.symm.trans hm₁
      exact ih rfl (hmgr.add hl hcap hadmitted) h

theorem endpoint_empty : Endpoint .empty where
  pcie := by simp [PciemCapManager.empty]
  msi := by simp [PciemCapManager.empty]

structure Requested (reqs : List PciemCapConfig) (mgr : PciemCapManager) : Prop
    extends Laid mgr where
  caps : mgr.caps.map (·.cap) = reqs.filterMap (·.newCap)

theorem requested {v v' : PciemRootComplex} {reqs : List PciemCapConfig}
    (hnew : v.capMgr = some .empty) (h : addCapabilities v reqs = .ok v') :
    ∃ mgr, v' = { v with capMgr := some mgr } ∧ Requested reqs mgr := by
  obtain ⟨mgr, rfl, hadded, hcaps⟩ := addCapabilities_eq_ok hnew (.init hnew) h
  exact ⟨mgr, rfl, .of_added hadded rfl, hcaps⟩

namespace Requested

variable {reqs : List PciemCapConfig} {mgr : PciemCapManager} (h : Requested reqs mgr)
include h

theorem newCap {entry : PciemCapEntry} (he : entry ∈ mgr.caps) :
    ∃ req ∈ reqs, req.newCap = some entry.cap := by
  have hmem : entry.cap ∈ reqs.filterMap (·.newCap) := h.caps ▸ List.mem_map_of_mem he
  exact List.mem_filterMap.mp hmem

theorem size_pos {entry : PciemCapEntry} (he : entry ∈ mgr.caps) : 0 < entry.size.toNat := by
  obtain ⟨req, -, hreq⟩ := h.newCap he
  rw [h.size entry he]
  exact (newCap_size hreq).1

theorem size_dvd {entry : PciemCapEntry} (he : entry ∈ mgr.caps) : 4 ∣ entry.size.toNat := by
  obtain ⟨req, -, hreq⟩ := h.newCap he
  rw [h.size entry he]
  exact (newCap_size hreq).2.1

theorem room_false : room false mgr.caps = (reqs.map stdSize).sum := by
  rw [room_standard h.kind h.size, h.caps, sum_stdSize]

/-- The running offset of the extended capabilities never wraps. -/
theorem extended_base_eq {p : ℕ} {entry : PciemCapEntry} (hx : (p, entry) ∈ placed mgr.caps)
    (hk : entry.isExtended = true) : entry.base = p ∧ pciCfgSpaceSize ≤ p ∧
      p + entry.size.toNat ≤ pciCfgSpaceExpSize := by
  have hbase := h.base _ hx
  have hbounds := mem_place_bounds hx
  simp only [hk, start, span] at hbase hbounds
  have hroom := room_extended h.kind h.size
  have hlen := mgr.length_le
  simp only [room] at hroom
  simp [pciCfgSpaceSize, pciCfgSpaceExpSize, maxPciCaps] at hbase hbounds hlen ⊢
  omega

theorem extended_base_ge {entry : PciemCapEntry} (he : entry ∈ mgr.caps)
    (hk : entry.isExtended = true) : pciCfgSpaceSize ≤ entry.base := by
  obtain ⟨p, hp⟩ := exists_mem_place start he
  obtain ⟨hbase, hle, -⟩ := h.extended_base_eq hp hk
  rw [hbase]
  exact hle

/-- When the standard capabilities fit, no running offset wraps. -/
theorem base_eq (hfits : Fits reqs) {p : ℕ} {entry : PciemCapEntry}
    (hx : (p, entry) ∈ placed mgr.caps) : entry.base = p ∧
      if entry.isExtended then pciCfgSpaceSize ≤ p ∧ p + entry.size.toNat ≤ pciCfgSpaceExpSize
      else 0x40 ≤ p ∧ p + entry.size.toNat ≤ pciCfgSpaceSize := by
  cases hk : entry.isExtended with
  | false =>
    have hbase := h.base _ hx
    have hbounds := mem_place_bounds hx
    have hpos := h.size_pos (mem_of_mem_place hx)
    simp only [hk, start, span] at hbase hbounds
    have hroom : room false mgr.caps ≤ 192 := by
      rw [h.room_false]
      simp only [Fits, pciCfgSpaceSize] at hfits
      omega
    simp only [room] at hroom
    simp [pciCfgSpaceSize] at hbase hbounds ⊢
    omega
  | true => exact h.extended_base_eq hx hk

theorem validLayout (hfits : Fits reqs) : ValidLayout mgr where
  standard entry he hk := by
    obtain ⟨p, hp⟩ := exists_mem_place start he
    have hb := h.base_eq hfits hp
    simp only [hk] at hb
    rw [fin, hb.1]
    exact hb.2
  extended entry he hk := by
    obtain ⟨p, hp⟩ := exists_mem_place start he
    have hb := h.base_eq hfits hp
    simp only [hk] at hb
    rw [fin, hb.1]
    exact hb.2
  disjoint := by
    rw [← map_snd_place (·.isExtended) (·.size.toNat) start mgr.caps,
      List.pairwise_map]
    refine (pairwise_place start mgr.caps).imp_of_mem fun {x y} hx hy hxy ↦ ?_
    have hbx := h.base_eq hfits hx
    have hby := h.base_eq hfits hy
    rw [Apart, fin, fin, hbx.1, hby.1]
    rcases hkx : x.2.isExtended <;> rcases hky : y.2.isExtended <;>
      simp [hkx, hky] at hxy hbx hby <;> omega
  aligned entry he := by
    obtain ⟨p, hp⟩ := exists_mem_place start he
    rw [(h.base_eq hfits hp).1]
    exact dvd_of_mem_place (fun k ↦ by cases k <;> decide) (fun _ ↦ h.size_dvd) hp

theorem base_ge (hfits : Fits reqs) {entry : PciemCapEntry} (he : entry ∈ mgr.caps) :
    0x40 ≤ entry.base := by
  have hvalid := h.validLayout hfits
  cases hk : entry.isExtended with
  | false => exact (hvalid.standard entry he hk).1
  | true =>
    have := (hvalid.extended entry he hk).1
    rw [pciCfgSpaceSize] at this
    omega

theorem exists_outside (hfits : ¬ Fits reqs) : ∃ entry ∈ mgr.caps, entry.isExtended = false ∧
    (pciCfgSpaceSize < fin entry ∨ entry.base = 0) := by
  have hroom := h.room_false
  simp only [Fits, pciCfgSpaceSize, not_le] at hfits
  obtain ⟨p, entry, hx, hk, hp, hlt⟩ : ∃ p entry, (p, entry) ∈ placed mgr.caps ∧
      entry.isExtended = false ∧ p ≤ 256 ∧ 256 < p + entry.size.toNat :=
    exists_crossing 256 (by decide) (by rw [← room, hroom]; exact hfits)
  have hbase := h.base _ hx
  simp only [hk, span] at hbase
  refine ⟨entry, mem_of_mem_place hx, hk, ?_⟩
  rw [fin, hbase, pciCfgSpaceSize]
  simp only [Bool.false_eq_true, if_false]
  omega

end Requested

theorem validLayout_of_fits {v v' : PciemRootComplex} {reqs : List PciemCapConfig}
    {mgr : PciemCapManager} (hnew : v.capMgr = some .empty)
    (h : addCapabilities v reqs = .ok v') (hm : v'.capMgr = some mgr) (hfits : Fits reqs) :
    ValidLayout mgr := by
  obtain ⟨mgr', rfl, hreq⟩ := requested hnew h
  cases hm
  exact hreq.validLayout hfits

/-- The layout is valid exactly when the standard capabilities fit: no function checks the
running offset, and it wraps at 256. -/
theorem valid_layout_iff_fits {v v' : PciemRootComplex} {reqs : List PciemCapConfig}
    {mgr : PciemCapManager} (hnew : v.capMgr = some .empty)
    (h : addCapabilities v reqs = .ok v') (hm : v'.capMgr = some mgr) :
    ValidLayout mgr ↔ Fits reqs := by
  obtain ⟨mgr', rfl, hreq⟩ := requested hnew h
  cases hm
  refine ⟨fun hvalid ↦ ?_, hreq.validLayout⟩
  by_contra hfits
  obtain ⟨entry, he, hk, hout⟩ := hreq.exists_outside hfits
  have hstd := hvalid.standard entry he hk
  omega

/-- A function that is new, whatever its header and its BARs have been set to. -/
structure Fresh (v : PciemRootComplex) : Prop where
  capMgr : v.capMgr = some .empty
  extCfg : ∀ p, pciCfgSpaceSize ≤ p → v.space p = 0
  attached : v.detaching = false

def created : PciemRootComplex := pciemInitCapManager pciemAllocRootComplex true

theorem fresh_created : Fresh created := ⟨rfl, fun _ _ ↦ rfl, rfl⟩

def threeRequests : List PciemCapConfig := [.pcie, .pasid ⟨20, 0, 0⟩, .msi ⟨3, 1, 1⟩]

theorem valid_layout_iff_fits_three : ∃ v mgr, addCapabilities created threeRequests = .ok v ∧
    v.capMgr = some mgr ∧ ValidLayout mgr := by
  have h : addCapabilities created threeRequests = .ok _ := rfl
  exact ⟨_, _, h, rfl, (valid_layout_iff_fits rfl h rfl).mpr (by decide)⟩

/-- The fourth of four PCIe capabilities has the range 0xF4..0x12F. -/
theorem fourth_pcie_crosses : ¬ ∀ (reqs : List PciemCapConfig) (v : PciemRootComplex)
    (mgr : PciemCapManager), addCapabilities created reqs = .ok v → v.capMgr = some mgr →
      ValidLayout mgr := by
  intro h
  have hvalid := h [.pcie, .pcie, .pcie, .pcie] _ _ rfl rfl
  have hlast := hvalid.standard _ (List.mem_of_getElem? (i := 3) rfl) rfl
  exact absurd hlast.2 (by decide)

end Pciem.Config.Layout
