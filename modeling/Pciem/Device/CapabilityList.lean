import Pciem.Config.Build
import Pciem.Device.Setup

namespace Pciem.Device.CapabilityList

open Kernel Library.ByteMemory Library.BumpAllocator Config.Capabilities Config.Layout Config.Build
  Bar.Table Setup

def firstStandard (caps : List PciemCapEntry) : Option PciemCapEntry :=
  caps.find? (·.isExtended = false)

/-- What config space tells about the list of the standard capabilities. -/
structure Advertised (mem : Memory) (caps : List PciemCapEntry) : Prop where
  status : (mem (cfg pciStatus)).getLsbD 4 = true ↔
    ∃ entry ∈ caps, entry.isExtended = false
  pointer : mem (cfg pciCapabilityList) =
    match firstStandard caps with
    | some entry => entry.offset
    | none => 0

/-- The last standard capability whose range has a byte of the header, because its offset has
wrapped. -/
def covering (q : ℕ) (caps : List PciemCapEntry) : Option PciemCapEntry :=
  (caps.filter fun entry ↦ entry.isExtended = false ∧ entry.base ≤ q ∧ q < fin entry).getLast?

/-- What a capability makes of bit 4 of the status register, at offset 0 or 4. -/
def statusBit (entry : PciemCapEntry) : Bool :=
  match entry.cap with
  | .msi config _ => entry.base = 4 && config.numVectorsLog2.getLsbD 3
  | .msix config _ =>
    if entry.base = 4 then (config.tableSize - 1).getLsbD 4 else config.tableOffset.getLsbD 20
  | _ => false

/-- The low byte of the word that a table of MSI-X has, which tells its place and its BAR. -/
def tableByte (offset : BitVec 32) (barIndex : BitVec 8) : BitVec 8 :=
  (offset.setWidth 8 &&& 0xF8) ||| (barIndex &&& 0x7)

/-- A capability has the first offset where the pointer is, as a field of its own. -/
def PointsToFirst (entry : PciemCapEntry) : Prop :=
  match entry.cap with
  | .msix config _ =>
    (entry.base = 0x30 ∧ tableByte config.tableOffset config.barIndex = 0x40) ∨
      (entry.base = 0x2C ∧ tableByte config.pbaOffset config.barIndex = 0x40)
  | _ => False

/-- SET_CONFIG has been called exactly where there is a standard capability. Where one has wrapped
over the status register or the pointer, it has fields there that are what the list needs. -/
structure Lists (calls : List Call) (caps : List PciemCapEntry) : Prop where
  status : (match covering pciStatus caps with
    | some entry => statusBit entry
    | none => calls.any Call.isSetConfig) = (firstStandard caps).isSome
  pointer : ∀ entry, covering pciCapabilityList caps = some entry → PointsToFirst entry

section Covering

variable {q : ℕ} {entry : PciemCapEntry} {caps : List PciemCapEntry}

/-- The byte that a capability has at a place does not depend on the next one. -/
def Fixed (q : ℕ) (entry : PciemCapEntry) (b : BitVec 8) : Prop :=
  ∀ nextPtr, (encodeStandard nextPtr entry.cap)[q - entry.base]? = some b

theorem covering_cons (q : ℕ) (entry : PciemCapEntry) (caps : List PciemCapEntry) :
    covering q (entry :: caps) = (covering q caps).or
      (if entry.isExtended = false ∧ entry.base ≤ q ∧ q < fin entry then some entry else none) := by
  unfold covering
  rw [List.filter_cons]
  by_cases h : entry.isExtended = false ∧ entry.base ≤ q ∧ q < fin entry
  · rw [if_pos (by simpa using h), if_pos h, List.getLast?_cons]
    cases (caps.filter _).getLast? with
    | none => rfl
    | some last => rfl
  · rw [if_neg (by simpa using h), if_neg h, Option.or_none]

/-- Of the capabilities that are built, the last one to cover a byte leaves it. -/
theorem lastOver_stores (hcontained : ∀ entry ∈ caps, Contained entry)
    (h : ∀ entry ∈ caps, entry.isExtended = false → entry.base ≤ q → q < fin entry →
      ∃ b, Fixed q entry b) :
    match covering q caps with
    | none => lastOver q (stores false caps) = none
    | some entry => entry ∈ caps ∧ entry.isExtended = false ∧ entry.base ≤ q ∧ q < fin entry ∧
        ∃ b, Fixed q entry b ∧ lastOver q (stores false caps) = some b := by
  induction caps with
  | nil => rfl
  | cons entry caps ih =>
    have ih := ih (fun e he ↦ hcontained e (List.mem_cons_of_mem entry he))
      fun e he ↦ h e (List.mem_cons_of_mem entry he)
    have hstores : lastOver q (stores false (entry :: caps)) = (lastOver q (stores false caps)).or
        (if entry.isExtended = false ∧ entry.base ≤ q then
          (encodeStandard (nextStandard caps) entry.cap)[q - entry.base]? else none) := by
      by_cases hk : entry.isExtended = false
      · rw [stores_cons hk, lastOver, encode_of_standard hk]
        simp only [hk, true_and]
      · rw [stores_cons_of_ne hk, if_neg fun hand ↦ hk hand.1, Option.or_none]
    rw [covering_cons, hstores]
    cases hcovering : covering q caps with
    | some last =>
      rw [hcovering] at ih
      obtain ⟨hmem, hk, hlo, hhi, b, hb, hlast⟩ := ih
      rw [hlast]
      exact ⟨List.mem_cons_of_mem entry hmem, hk, hlo, hhi, b, hb, rfl⟩
    | none =>
      rw [hcovering] at ih
      dsimp only at ih
      rw [ih, Option.none_or, Option.none_or]
      by_cases hcover : entry.isExtended = false ∧ entry.base ≤ q ∧ q < fin entry
      · obtain ⟨hk, hlo, hhi⟩ := id hcover
        obtain ⟨b, hb⟩ := h entry List.mem_cons_self hk hlo hhi
        rw [if_pos hcover, if_pos ⟨hk, hlo⟩]
        exact ⟨List.mem_cons_self, hk, hlo, hhi, b, hb, hb _⟩
      · rw [if_neg hcover]
        dsimp only
        split_ifs with hlo
        · have hlength := hcontained entry List.mem_cons_self caps
          rw [encode_of_standard hlo.1] at hlength
          refine List.getElem?_eq_none ?_
          have hhi : ¬ q < fin entry := fun hhi ↦ hcover ⟨hlo.1, hlo.2, hhi⟩
          unfold fin at hhi
          omega
        · rfl

end Covering

section Fields

variable {entry : PciemCapEntry} {req : PciemCapConfig}

/-- The control word that MSI is built with. -/
def msiControl (msi : PciemCapMsiConfig) : BitVec 16 :=
  let control : BitVec 16 := 0
  let control := if msi.has64bit then control ||| pciMsiFlags64bit else control
  let control := if msi.hasPerVectorMasking then control ||| pciMsiFlagsMaskbit else control
  control ||| (msi.numVectorsLog2.setWidth 16 <<< 1)

theorem getLsbD_msiControl (msi : PciemCapMsiConfig) :
    (byte (msiControl msi) 0).getLsbD 4 = msi.numVectorsLog2.getLsbD 3 := by
  obtain ⟨has64bit, hasPerVectorMasking, numVectorsLog2⟩ := msi
  cases has64bit with
  | false | true =>
    cases hasPerVectorMasking with
    | false | true => simp [msiControl, byte, pciMsiFlags64bit, pciMsiFlagsMaskbit]

theorem getLsbD_tableSize (tableSize : BitVec 16) :
    (byte ((tableSize - 1) &&& 0x7FF) 0).getLsbD 4 = (tableSize - 1).getLsbD 4 := by
  simp [byte]

theorem getLsbD_tableWord (offset : BitVec 32) (barIndex : BitVec 8) :
    (byte ((offset &&& ~~~0x7) ||| (barIndex.setWidth 32 &&& 0x7)) 2).getLsbD 4 =
      offset.getLsbD 20 := by
  simp [byte]

theorem byte_tableWord (offset : BitVec 32) (barIndex : BitVec 8) :
    byte ((offset &&& ~~~0x7) ||| (barIndex.setWidth 32 &&& 0x7)) 0 =
      tableByte offset barIndex := by
  apply BitVec.eq_of_getLsbD_eq
  intro i hi
  have hmask : ∀ i < 8, (~~~0x7 : BitVec 32).getLsbD i = (0xF8 : BitVec 8).getLsbD i ∧
      (0x7 : BitVec 32).getLsbD i = (0x7 : BitVec 8).getLsbD i := by decide
  obtain ⟨hhigh, hlow⟩ := hmask i hi
  simp only [byte, tableByte, BitVec.getLsbD_extractLsb', BitVec.getLsbD_or, BitVec.getLsbD_and,
    BitVec.getLsbD_setWidth, Nat.mul_zero, Nat.zero_add, hhigh, hlow, hi, show i < 32 by omega,
    decide_true, Bool.true_and]

/-- A standard capability at offset 0 or 4 has a field at the status register. -/
theorem fixed_status (hreq : req.newCap = some entry.cap) (hk : entry.cap.isExtended = false)
    (hbase : entry.base = 0 ∨ entry.base = 4) :
    ∃ b, Fixed pciStatus entry b ∧ b.getLsbD 4 = statusBit entry := by
  unfold Fixed statusBit
  generalize entry.base = base at hbase
  generalize entry.cap = cap at hreq hk
  cases req with
  | pasid =>
    cases hreq
    cases hk
  | unsupported => cases hreq
  | msi msiCfg =>
    cases hreq
    rcases hbase with rfl | rfl
    · exact ⟨0, fun nextPtr ↦ rfl, rfl⟩
    · exact ⟨byte (msiControl _) 0, fun nextPtr ↦ rfl, getLsbD_msiControl _⟩
  | msix msixCfg =>
    cases hreq
    rcases hbase with rfl | rfl
    · exact ⟨_, fun nextPtr ↦ rfl, getLsbD_tableWord ..⟩
    · exact ⟨_, fun nextPtr ↦ rfl, getLsbD_tableSize ..⟩
  | pm | pcie =>
    cases hreq
    rcases hbase with rfl | rfl
    · exact ⟨_, fun nextPtr ↦ rfl, by decide⟩
    · exact ⟨_, fun nextPtr ↦ rfl, by decide⟩

theorem fixed_pointer (hreq : req.newCap = some entry.cap) (hk : entry.cap.isExtended = false)
    (hdvd : 4 ∣ entry.base) (hlo : entry.base ≤ pciCapabilityList)
    (hhi : pciCapabilityList < entry.base + entry.cap.size.toNat) :
    ∃ b, Fixed pciCapabilityList entry b ∧ (b = 0x40 ↔ PointsToFirst entry) := by
  unfold Fixed PointsToFirst
  generalize entry.base = base at hdvd hlo hhi
  generalize entry.cap = cap at hreq hk hhi
  obtain ⟨j, rfl⟩ := hdvd
  simp only [pciCapabilityList] at hlo hhi ⊢
  cases req with
  | pasid =>
    cases hreq
    cases hk
  | unsupported => cases hreq
  | msi msiCfg =>
    cases hreq
    have hsize := toNat_msiCapSize
      ⟨msiCfg.has64bit ≠ 0, msiCfg.hasMasking ≠ 0, msiCfg.numVectorsLog2⟩
    simp only [PciemCap.size, hsize] at hhi
    generalize decide (msiCfg.has64bit ≠ 0) = has64bit at hhi ⊢
    generalize decide (msiCfg.hasMasking ≠ 0) = hasMasking at hhi ⊢
    have hj : j ≤ 13 := by omega
    cases has64bit with
    | false | true =>
      cases hasMasking with
      | false | true =>
        simp only [if_true, Bool.false_eq_true, if_false] at hhi
        have hj' : 8 ≤ j := by omega
        interval_cases j
        all_goals first
          | omega
          | exact ⟨_, fun nextPtr ↦ rfl, iff_of_false (by decide) id⟩
  | msix msixCfg =>
    cases hreq
    have hsize : 52 < 4 * j + 12 := hhi
    obtain rfl | rfl | rfl : j = 11 ∨ j = 12 ∨ j = 13 := by omega
    · refine ⟨_, fun nextPtr ↦ rfl, ?_⟩
      rw [byte_tableWord]
      simp
    · refine ⟨_, fun nextPtr ↦ rfl, ?_⟩
      rw [byte_tableWord]
      simp
    · exact ⟨_, fun nextPtr ↦ rfl, iff_of_false (by decide) (by simp)⟩
  | pm =>
    cases hreq
    have hsize : 52 < 4 * j + 8 := hhi
    obtain rfl | rfl : j = 12 ∨ j = 13 := by omega
    · exact ⟨_, fun nextPtr ↦ rfl, by decide⟩
    · exact ⟨_, fun nextPtr ↦ rfl, by decide⟩
  | pcie =>
    cases hreq
    have hj : j ≤ 13 := by omega
    interval_cases j
    all_goals exact ⟨_, fun nextPtr ↦ rfl, by decide⟩

end Fields

section Build

variable {v : PciemRootComplex} {q : ℕ} {entry : PciemCapEntry}

/-- What the requests tell about a capability, wherever its offset has wrapped to. -/
theorem asked_entry (h : Asked v) (he : entry ∈ capsOf v) (hk : entry.isExtended = false) :
    (∃ req : PciemCapConfig, req.newCap = some entry.cap) ∧ entry.cap.isExtended = false ∧
      fin entry = entry.base + entry.cap.size.toNat ∧ 4 ∣ entry.base := by
  obtain ⟨reqs, mgr, hreqs, he⟩ := h.exists_requested he
  obtain ⟨req, -, hreq⟩ := hreqs.newCap he
  obtain ⟨p, hp⟩ := exists_mem_place start he
  have hdvd : 4 ∣ p := dvd_of_mem_place (fun k ↦ by cases k <;> decide)
    (fun _ ↦ hreqs.size_dvd) hp
  have hbase : entry.base = p % span entry.isExtended := hreqs.base _ hp
  refine ⟨⟨req, hreq⟩, (hreqs.kind entry he).symm.trans hk, ?_, ?_⟩
  · rw [fin, hreqs.size entry he]
  · rw [hbase, hk, span, if_neg Bool.false_ne_true]
    omega

theorem firstStandard_offset (h : Asked v) (hfirst : firstStandard (capsOf v) = some entry) :
    entry.offset = 0x40 := by
  have he : entry ∈ capsOf v := List.mem_of_find?_eq_some hfirst
  have hk : entry.isExtended = false := by simpa using List.find?_some hfirst
  unfold capsOf at he hfirst
  cases hm : v.capMgr with
  | none =>
    rw [hm] at he
    cases he
  | some mgr =>
    rw [hm] at hfirst
    obtain ⟨reqs, hreqs⟩ := h mgr hm
    have hp : (start false, entry) ∈ placed mgr.caps := mem_place_of_find start hfirst
    have hbase := hreqs.base _ hp
    rw [PciemCapEntry.base_of_standard hk, hk] at hbase
    exact BitVec.eq_of_toNat_eq hbase

theorem build_header (h : Asked v) (hq : q < pciCfgSpaceSize) :
    (pciemBuildConfigSpace v).space q = (lastOver q (stores false (capsOf v))).getD
      (store v.space (cfg pciCapabilityList) [nextStandard (capsOf v)] q) := by
  have hext (s : ℕ × List (BitVec 8)) (hs : s ∈ stores true (capsOf v)) :
      q < s.1 ∨ s.1 + s.2.length ≤ q := by
    obtain ⟨entry, he, hk, post, rfl⟩ := mem_stores hs
    exact .inl (Nat.lt_of_lt_of_le hq (h.extended_base_ge entry he hk))
  rw [space_build h.extended_base_ge, storeAll_append,
    storeAll_outside hext, storeAll_apply]

theorem firstStandard_isSome_iff {caps : List PciemCapEntry} :
    (firstStandard caps).isSome = true ↔ ∃ entry ∈ caps, entry.isExtended = false := by
  rw [firstStandard, List.find?_isSome]
  simp

theorem status_build (h : Asked v) : ((pciemBuildConfigSpace v).space (cfg pciStatus)).getLsbD 4 =
    match covering pciStatus (capsOf v) with
    | some entry => statusBit entry
    | none => (v.space (cfg pciStatus)).getLsbD 4 := by
  have hlast := lastOver_stores (q := pciStatus) h.contained fun entry he hk hlo hhi ↦ by
    obtain ⟨⟨req, hreq⟩, hcap, -, hdvd⟩ := asked_entry h he hk
    have hbase : entry.base = 0 ∨ entry.base = 4 := by
      rw [pciStatus] at hlo
      omega
    obtain ⟨b, hb, -⟩ := fixed_status hreq hcap hbase
    exact ⟨b, hb⟩
  rw [build_header h (by decide), store_singleton_of_ne (by decide)]
  cases hcovering : covering pciStatus (capsOf v) with
  | none =>
    rw [hcovering] at hlast
    exact congrArg (fun b : Option (BitVec 8) ↦ (b.getD _).getLsbD 4) hlast
  | some entry =>
    rw [hcovering] at hlast
    obtain ⟨he, hk, hlo, -, b, hb, hlast⟩ := hlast
    obtain ⟨⟨req, hreq⟩, hcap, -, hdvd⟩ := asked_entry h he hk
    have hbase : entry.base = 0 ∨ entry.base = 4 := by
      rw [pciStatus] at hlo
      omega
    obtain ⟨b', hb', hbit⟩ := fixed_status hreq hcap hbase
    obtain rfl : b = b' := Option.some_inj.mp ((hb 0).symm.trans (hb' 0))
    rw [show lastOver (cfg pciStatus) _ = some b from hlast]
    exact hbit

theorem pointer_build (h : Asked v) :
    (pciemBuildConfigSpace v).space (cfg pciCapabilityList) = nextStandard (capsOf v) ↔
      ∀ entry, covering pciCapabilityList (capsOf v) = some entry → PointsToFirst entry := by
  have hcase (entry : PciemCapEntry) (he : entry ∈ capsOf v) (hk : entry.isExtended = false)
      (hlo : entry.base ≤ pciCapabilityList) (hhi : pciCapabilityList < fin entry) :
      ∃ b, Fixed pciCapabilityList entry b ∧ (b = 0x40 ↔ PointsToFirst entry) := by
    obtain ⟨⟨req, hreq⟩, hcap, hfin, hdvd⟩ := asked_entry h he hk
    exact fixed_pointer hreq hcap hdvd hlo (hfin ▸ hhi)
  have hlast := lastOver_stores (q := pciCapabilityList) h.contained fun entry he hk hlo hhi ↦ by
    obtain ⟨b, hb, -⟩ := hcase entry he hk hlo hhi
    exact ⟨b, hb⟩
  rw [build_header h (by decide), store_singleton]
  cases hcovering : covering pciCapabilityList (capsOf v) with
  | none =>
    rw [hcovering] at hlast
    have hnone : lastOver (cfg pciCapabilityList) (stores false (capsOf v)) = none := hlast
    simp [hnone]
  | some entry =>
    rw [hcovering] at hlast
    obtain ⟨he, hk, hlo, hhi, b, hb, hlast⟩ := hlast
    obtain ⟨b', hb', hpoints⟩ := hcase entry he hk hlo hhi
    obtain rfl : b = b' := Option.some_inj.mp ((hb 0).symm.trans (hb' 0))
    obtain ⟨first, hfirst⟩ := Option.isSome_iff_exists.mp
      (firstStandard_isSome_iff.mpr ⟨entry, he, hk⟩)
    have hnext : nextStandard (capsOf v) = 0x40 := by
      rw [nextStandard, show (capsOf v).find? _ = some first from hfirst]
      exact firstStandard_offset h hfirst
    rw [show lastOver (cfg pciCapabilityList) _ = some b from hlast, Option.getD_some, hnext,
      hpoints]
    simp

end Build

section Advertisement

variable {allocated : Bool} {calls : List Call}

/-- The list of the standard capabilities is advertised exactly when SET_CONFIG has been called
and there is one, or neither: the build changes another bit than that of the list. -/
theorem cap_list_advertised_iff :
    Advertised (pciemBuildConfigSpace (setUp allocated calls).rc).space
        (capsOf (setUp allocated calls).rc) ↔
      Lists calls (capsOf (setUp allocated calls).rc) := by
  have hasked := asked_setUp allocated calls
  have hstatus := status_setUp allocated calls
  generalize (setUp allocated calls).rc = v at *
  have hbit : (v.space (cfg pciStatus)).getLsbD 4 = calls.any Call.isSetConfig := by
    rw [hstatus]
    cases calls.any Call.isSetConfig <;> rfl
  have hiff : (((pciemBuildConfigSpace v).space (cfg pciStatus)).getLsbD 4 = true ↔
      ∃ entry ∈ capsOf v, entry.isExtended = false) ↔
      (match covering pciStatus (capsOf v) with
        | some entry => statusBit entry
        | none => calls.any Call.isSetConfig) = (firstStandard (capsOf v)).isSome := by
    rw [← firstStandard_isSome_iff, ← Bool.eq_iff_iff, status_build hasked, hbit]
  exact ⟨fun h ↦ ⟨hiff.mp h.status, (pointer_build hasked).mp h.pointer⟩,
    fun h ↦ ⟨hiff.mpr h.status, (pointer_build hasked).mpr h.pointer⟩⟩

/-- As long as no offset has wrapped, only the calls matter. -/
theorem lists_iff_of_not_wrapped {caps : List PciemCapEntry}
    (h : ∀ entry ∈ caps, entry.isExtended = false → 0x40 ≤ entry.base) :
    Lists calls caps ↔ calls.any Call.isSetConfig = (firstStandard caps).isSome := by
  have hnone (q : ℕ) (hq : q < 0x40) : covering q caps = none := by
    refine List.getLast?_eq_none_iff.mpr (List.filter_eq_nil_iff.mpr fun entry he hand ↦ ?_)
    obtain ⟨hk, hlo, -⟩ := of_decide_eq_true hand
    have := h entry he hk
    omega
  constructor
  · intro hlists
    have hstatus := hlists.status
    rwa [hnone _ (by decide)] at hstatus
  · intro hcalls
    refine ⟨?_, fun entry hentry ↦ ?_⟩
    · rw [hnone _ (by decide)]
      exact hcalls
    · rw [hnone _ (by decide)] at hentry
      cases hentry

/-- Without SET_CONFIG a standard capability stays hidden. -/
theorem cap_list_hidden_without_set_config : ¬ ∀ (allocated : Bool) (calls : List Call),
    Advertised (pciemBuildConfigSpace (setUp allocated calls).rc).space
      (capsOf (setUp allocated calls).rc) := by
  intro h
  have hstatus := (h true [.addCapability .pcie]).status.mpr ⟨_, List.mem_singleton_self _, rfl⟩
  exact absurd hstatus (by decide)

end Advertisement

end Pciem.Device.CapabilityList
