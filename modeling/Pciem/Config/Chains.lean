import Pciem.Config.Build
import Pciem.Library.PointerChain

namespace Pciem.Config.Chains

open Kernel Library.ByteMemory Library.BumpAllocator Library.PointerChain
open Capabilities Layout Build

def standardNext (mem : Memory) (p : ℕ) : ℕ := (mem (cfg (p + 1))).toNat

/-- The walk from the list pointer visits exactly these standard capabilities and stops. -/
def StandardWalk (mem : Memory) (ps : List ℕ) : Prop :=
  Chain (standardNext mem) (mem (cfg pciCapabilityList)).toNat ps

def extendedHeader (mem : Memory) (p : ℕ) : BitVec 32 := load mem p 4

def extendedNext (mem : Memory) (p : ℕ) : ℕ := (extendedHeader mem p >>> 20).toNat

/-- The walk from 0x100, where a zero header means that there is nothing to visit. -/
def ExtendedWalk (mem : Memory) (ps : List ℕ) : Prop :=
  Chain (extendedNext mem) (if extendedHeader mem (extCfg 0) = 0 then 0 else extCfg 0) ps

def places (kind : Bool) (caps : List PciemCapEntry) : List ℕ :=
  (caps.filter (·.isExtended = kind)).map (·.base)

/-- The two walks visit exactly the capabilities, in the order they were added. -/
structure Linked (mem : Memory) (caps : List PciemCapEntry) : Prop where
  standard : StandardWalk mem (places false caps)
  ids : ∀ entry ∈ caps, entry.isExtended = false → mem (cfg entry.base) = capId entry.cap
  extended : ExtendedWalk mem (places true caps)
  none : (∀ entry ∈ caps, entry.isExtended = false) → extendedHeader mem (extCfg 0) = 0

section Walks

variable {mem : Memory} {caps : List PciemCapEntry}

theorem chain_standard (h : Image false mem caps)
    (hkind : ∀ entry ∈ caps, entry.isExtended = entry.cap.isExtended)
    (hpos : ∀ entry ∈ caps, entry.isExtended = false → entry.base ≠ 0) :
    Chain (standardNext mem) (nextStandard caps).toNat (places false caps) := by
  induction caps with
  | nil => exact .stop
  | cons entry caps ih =>
    have hrest := ih h.2 (fun e he ↦ hkind e (List.mem_cons_of_mem _ he))
      fun e he ↦ hpos e (List.mem_cons_of_mem _ he)
    cases hk : entry.isExtended with
    | true => simpa [nextStandard, places, hk] using hrest
    | false =>
      have hheader := header_of_holds hk (hkind entry List.mem_cons_self) (h.1 hk)
      have hbase := PciemCapEntry.base_of_standard hk
      have hvisit : Chain (standardNext mem) entry.base (entry.base :: places false caps) := by
        refine .visit (hpos entry List.mem_cons_self hk) ?_
        rw [standardNext, hheader.2]
        exact hrest
      rw [hbase] at hvisit
      simpa [nextStandard, places, hk, hbase] using hvisit

theorem extendedHeader_next {p : BitVec 16} (hp : p.toNat < pciCfgSpaceExpSize) :
    ((pciExtCapIdPasid ||| (1#32 <<< 16) ||| (p.setWidth 32 <<< 20)) >>> 20).toNat = p.toNat := by
  have hlow : (pciExtCapIdPasid ||| (1#32 <<< 16)) >>> 20 = 0#32 := by decide
  have hhigh : (p.setWidth 32 <<< 20) >>> 20 = p.setWidth 32 := by
    apply BitVec.eq_of_toNat_eq
    simp only [pciCfgSpaceExpSize] at hp
    simp only [BitVec.toNat_ushiftRight, BitVec.toNat_shiftLeft, BitVec.toNat_setWidth,
      Nat.shiftLeft_eq, Nat.shiftRight_eq_div_pow]
    omega
  rw [BitVec.ushiftRight_or_distrib, hlow, hhigh, BitVec.zero_or, BitVec.toNat_setWidth]
  omega

theorem nextExtended_toNat_lt
    (hb : ∀ entry ∈ caps, entry.isExtended = true → entry.base < pciCfgSpaceExpSize) :
    (nextExtended caps).toNat < pciCfgSpaceExpSize := by
  rw [nextExtended]
  split
  · rename_i entry hf
    have hk : entry.isExtended = true := by simpa using List.find?_some hf
    have hlt := hb entry (List.mem_of_find?_eq_some hf) hk
    rwa [PciemCapEntry.base, hk] at hlt
  · decide

theorem chain_extended (h : Image true mem caps)
    (hkind : ∀ entry ∈ caps, entry.isExtended = entry.cap.isExtended)
    (hb : ∀ entry ∈ caps, entry.isExtended = true →
      entry.base ≠ 0 ∧ entry.base < pciCfgSpaceExpSize) :
    Chain (extendedNext mem) (nextExtended caps).toNat (places true caps) := by
  induction caps with
  | nil => exact .stop
  | cons entry caps ih =>
    have hb' : ∀ e ∈ caps, e.isExtended = true → e.base ≠ 0 ∧ e.base < pciCfgSpaceExpSize :=
      fun e he ↦ hb e (List.mem_cons_of_mem _ he)
    have hrest := ih h.2 (fun e he ↦ hkind e (List.mem_cons_of_mem _ he)) hb'
    cases hk : entry.isExtended with
    | false => simpa [nextExtended, places, hk] using hrest
    | true =>
      have hheader := header_of_holds_extended hk (hkind entry List.mem_cons_self) (h.1 hk)
      have hbase := PciemCapEntry.base_of_extended hk
      have hvisit : Chain (extendedNext mem) entry.base (entry.base :: places true caps) := by
        refine .visit (hb entry List.mem_cons_self hk).1 ?_
        rw [extendedNext, extendedHeader, hheader,
          extendedHeader_next (nextExtended_toNat_lt fun e he hk ↦ (hb' e he hk).2)]
        exact hrest
      rw [hbase] at hvisit
      simpa [nextExtended, places, hk, hbase] using hvisit

end Walks

section Requests

variable {reqs : List PciemCapConfig} {mgr : PciemCapManager} (h : Requested reqs mgr)
  (hfits : Fits reqs)
include h hfits

theorem nextExtended_eq {entry : PciemCapEntry}
    (hf : mgr.caps.find? (·.isExtended = true) = some entry) :
    (nextExtended mgr.caps).toNat = extCfg 0 := by
  have hk : entry.isExtended = true := by simpa using List.find?_some hf
  have hbase := (h.base_eq hfits (mem_place_of_find start hf)).1
  rw [PciemCapEntry.base, hk, if_pos rfl] at hbase
  rw [nextExtended, hf]
  exact hbase

theorem linked {v : PciemRootComplex} (hm : v.capMgr = some mgr)
    (hzero : ∀ p, pciCfgSpaceSize ≤ p → v.space p = 0) :
    Linked (pciemBuildConfigSpace v).space mgr.caps := by
  have hvalid := h.validLayout hfits
  have hbuilt := built hm hvalid fun entry he ↦ contained_of_requested h he
  have hnone : (∀ entry ∈ mgr.caps, entry.isExtended = false) →
      extendedHeader (pciemBuildConfigSpace v).space (extCfg 0) = 0 := by
    intro hall
    refine (load_eq_iff 0#32 rfl (Nat.le_refl 32)).mpr fun k hk ↦ ?_
    have hplace : pciCfgSpaceSize ≤ extCfg 0 + k := Nat.le_add_right pciCfgSpaceSize k
    have hlist : extCfg 0 + k ≠ cfg pciCapabilityList := by
      simp only [pciCfgSpaceSize] at hplace
      simp only [cfg, pciCapabilityList]
      omega
    rw [hbuilt.frame _ hlist
      (fun entry he hk ↦ .inr ((hvalid.standard entry he hk).2.trans hplace))
      (fun entry he hk ↦ absurd (hk.symm.trans (hall entry he)) (by decide)), hzero _ hplace]
    simp [byte]
  have hfirst : (if extendedHeader (pciemBuildConfigSpace v).space (extCfg 0) = 0 then 0
      else extCfg 0) = (nextExtended mgr.caps).toNat := by
    cases hf : mgr.caps.find? (·.isExtended = true) with
    | some entry =>
      have hk : entry.isExtended = true := by simpa using List.find?_some hf
      have he := List.mem_of_find?_eq_some hf
      obtain ⟨post, hpost⟩ := hbuilt.extended.holds he hk
      have hbase := (h.base_eq hfits (mem_place_of_find start hf)).1
      have hheader := header_of_holds_extended hk (h.kind entry he) hpost
      rw [hbase] at hheader
      rw [nextExtended_eq h hfits hf, if_neg]
      intro hz
      exact absurd (BitVec.or_eq_zero_iff.mp (hheader.symm.trans hz)).1 (by decide)
    | none =>
      rw [hnone, if_pos rfl, nextExtended, hf]
      · rfl
      · intro entry he
        simpa using List.find?_eq_none.mp hf entry he
  refine ⟨?_, fun entry he hk ↦ ?_, ?_, hnone⟩
  · rw [StandardWalk, hbuilt.capList]
    refine chain_standard hbuilt.standard h.kind fun entry he hk ↦ ?_
    have := (hvalid.standard entry he hk).1
    omega
  · obtain ⟨post, hpost⟩ := hbuilt.standard.holds he hk
    exact (header_of_holds hk (h.kind entry he) hpost).1
  · rw [ExtendedWalk, hfirst]
    refine chain_extended hbuilt.extended h.kind fun entry he hk ↦ ?_
    have hlo := (hvalid.extended entry he hk).1
    have hhi := (hvalid.extended entry he hk).2
    have hpos := h.size_pos he
    rw [fin] at hhi
    simp only [pciCfgSpaceSize] at hlo
    omega

end Requests

/-- On a new function whose standard ranges end at or below 0x100, the two walks visit
exactly the capabilities that were added if and only if the ranges fit one after another:
past a range that ends at 0x100, the running offset starts again at 0, where a walk stops. -/
theorem linked_iff_fits {v v' : PciemRootComplex} {reqs : List PciemCapConfig}
    {mgr : PciemCapManager} (hfresh : Fresh v) (h : addCapabilities v reqs = .ok v')
    (hm : v'.capMgr = some mgr)
    (hends : ∀ entry ∈ mgr.caps, entry.isExtended = false →
      entry.offset.toNat + entry.size.toNat ≤ pciCfgSpaceSize) :
    Linked (pciemBuildConfigSpace v').space mgr.caps ↔ Fits reqs := by
  obtain ⟨mgr', rfl, hreq⟩ := requested hfresh.capMgr h
  cases hm
  refine ⟨fun hlinked ↦ ?_, fun hfits ↦ linked hreq hfits rfl hfresh.extCfg⟩
  by_contra hfits
  obtain ⟨entry, he, hk, hout⟩ := hreq.exists_outside hfits
  have hend := hends entry he hk
  have hbase := PciemCapEntry.base_of_standard hk
  rw [fin, hbase] at hout
  refine hlinked.standard.zero_notMem (List.mem_map.mpr ⟨entry, ?_, by omega⟩)
  exact List.mem_filter.mpr ⟨he, by simpa using hk⟩

theorem linked_iff_fits_three : ∃ v mgr, addCapabilities created threeRequests = .ok v ∧
    v.capMgr = some mgr ∧ Linked (pciemBuildConfigSpace v).space mgr.caps := by
  have h : addCapabilities created threeRequests = .ok _ := rfl
  exact ⟨_, _, h, rfl, (linked_iff_fits fresh_created h rfl (by decide)).mpr (by decide)⟩

/-- Three PCIe capabilities and an MSI-X one end at 0x100 exactly; the PM capability added
after them is built at 0, and no walk can visit it. -/
theorem capability_at_zero : ¬ ∀ (reqs : List PciemCapConfig) (v : PciemRootComplex)
    (mgr : PciemCapManager), addCapabilities created reqs = .ok v → v.capMgr = some mgr →
      (∀ entry ∈ mgr.caps, entry.isExtended = false →
        entry.offset.toNat + entry.size.toNat ≤ pciCfgSpaceSize) →
      Linked (pciemBuildConfigSpace v).space mgr.caps := by
  intro h
  have hlinked := h [.pcie, .pcie, .pcie, .msix ⟨0, 0, 0, 1⟩, .pm] _ _ rfl rfl (by decide)
  exact hlinked.standard.zero_notMem (by decide)

end Pciem.Config.Chains
