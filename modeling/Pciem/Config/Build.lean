import Pciem.Config.Layout

namespace Pciem.Config.Build

open Kernel Library.ByteMemory Capabilities Layout

def encodeMsi (msi : PciemCapMsiConfig) (nextPtr : BitVec 8) : List (BitVec 8) :=
  let control : BitVec 16 := 0
  let control := if msi.has64bit then control ||| pciMsiFlags64bit else control
  let control := if msi.hasPerVectorMasking then control ||| pciMsiFlagsMaskbit else control
  let control := control ||| (msi.numVectorsLog2.setWidth 16 <<< 1)
  [pciCapIdMsi, nextPtr] ++ bytes control 2 ++ bytes (0 : BitVec 32) 4 ++
    (if msi.has64bit then bytes (0 : BitVec 32) 4 else []) ++ bytes (0 : BitVec 16) 2 ++
    (if msi.hasPerVectorMasking then bytes (0 : BitVec 32) 4 ++ bytes (0 : BitVec 32) 4 else [])

def encodeMsix (msix : PciemCapMsixConfig) (nextPtr : BitVec 8) : List (BitVec 8) :=
  [pciCapIdMsix, nextPtr] ++ bytes ((msix.tableSize - 1) &&& 0x7FF) 2 ++
    bytes ((msix.tableOffset &&& ~~~0x7) ||| (msix.barIndex.setWidth 32 &&& 0x7)) 4 ++
    bytes ((msix.pbaOffset &&& ~~~0x7) ||| (msix.barIndex.setWidth 32 &&& 0x7)) 4

def encodePm (pm : PciemCapPmConfig) (nextPtr : BitVec 8) : List (BitVec 8) :=
  let pmc : BitVec 16 := pm.version.setWidth 16 &&& 0x3
  let pmc := if pm.d1Support then pmc ||| pciPmCapD1 else pmc
  let pmc := if pm.d2Support then pmc ||| pciPmCapD2 else pmc
  let pmc :=
    if pm.pmeSupport then pmc ||| (pciPmCapPmeD0 ||| pciPmCapPmeD3hot ||| pciPmCapPmeD3cold)
    else pmc
  [pciCapIdPm, nextPtr] ++ bytes pmc 2 ++ bytes (0 : BitVec 16) 2 ++ [0, 0]

def encodePcie (pcie : PciemCapPcieConfig) (nextPtr : BitVec 8) : List (BitVec 8) :=
  let link : BitVec 32 :=
    (pcie.linkSpeed.setWidth 32 &&& 0xF) ||| ((pcie.linkWidth.setWidth 32 &&& 0x3F) <<< 4)
  [pciCapIdExp, nextPtr] ++ bytes ((pcie.deviceType.setWidth 16 <<< 4) ||| 2) 2 ++
    bytes (0x00008000 : BitVec 32) 4 ++ bytes (0 : BitVec 32) 4 ++ bytes link 4 ++
    bytes (link <<< 16) 4 ++ List.replicate 40 0

def encodeVsec (vsec : PciemCapVsecConfig) (nextPtr : BitVec 8) : List (BitVec 8) :=
  [pciCapIdVndr, nextPtr, (8 + vsec.vsecLength).setWidth 8, 0] ++ bytes vsec.vendorId 2 ++
    [vsec.vsecId.setWidth 8,
      ((vsec.vsecId >>> 8).setWidth 8 &&& 0xF) ||| ((vsec.vsecRev &&& 0xF) <<< 4)] ++
    (List.range vsec.vsecLength.toNat).map vsec.data

def encodePasid (pasid : PciemCapPasidConfig) (nextExt : BitVec 16) : List (BitVec 8) :=
  let capReg : BitVec 16 := 0
  let capReg := if pasid.executePermission then capReg ||| (1#16 <<< 1) else capReg
  let capReg := if pasid.privilegedMode then capReg ||| (1#16 <<< 2) else capReg
  let capReg :=
    if pasid.maxPasidWidth > 0 then capReg ||| ((pasid.maxPasidWidth.setWidth 16 - 1) <<< 8)
    else capReg
  bytes (pciExtCapIdPasid ||| (1#32 <<< 16) ||| (nextExt.setWidth 32 <<< 20)) 4 ++
    bytes capReg 2 ++ bytes (0 : BitVec 16) 2

/-- The bytes that the switch of the standard loop writes from the capability's offset on. -/
def encodeStandard (nextPtr : BitVec 8) : PciemCap → List (BitVec 8)
  | .msi config _ => encodeMsi config nextPtr
  | .msix config _ => encodeMsix config nextPtr
  | .pm config _ => encodePm config nextPtr
  | .pcie config => encodePcie config nextPtr
  | .vsec config => encodeVsec config nextPtr
  | .pasid _ _ => []

def encodeExtended (nextExt : BitVec 16) : PciemCap → List (BitVec 8)
  | .pasid config _ => encodePasid config nextExt
  | _ => []

/-- The `next_ptr` of a capability that the given ones follow. -/
def nextStandard (caps : List PciemCapEntry) : BitVec 8 :=
  match caps.find? (·.isExtended = false) with
  | some entry => entry.offset
  | none => 0

def nextExtended (caps : List PciemCapEntry) : BitVec 16 :=
  match caps.find? (·.isExtended = true) with
  | some entry => entry.extOffset
  | none => 0

def advertiseCapList (mem : Memory) (offset : BitVec 8) : Memory :=
  let mem := store mem (cfg pciCapabilityList) [offset]
  store mem (cfg pciStatus) [mem (cfg pciStatus) ||| (pciStatusCapList >>> 8).setWidth 8]

def clearCapList (mem : Memory) : Memory :=
  let mem := store mem (cfg pciCapabilityList) [0]
  store mem (cfg pciStatus) [mem (cfg pciStatus) &&& ~~~(pciStatusCapList >>> 8).setWidth 8]

/-- The loop over the standard capabilities, with its `has_std`. -/
def buildStandard (hasStd : Bool) (mem : Memory) : List PciemCapEntry → Bool × Memory
  | [] => (hasStd, mem)
  | entry :: caps =>
    if entry.isExtended then
      buildStandard hasStd mem caps
    else
      let mem := if hasStd then mem else advertiseCapList mem entry.offset
      buildStandard true
        (store mem (cfg entry.offset.toNat) (encodeStandard (nextStandard caps) entry.cap)) caps

def buildExtended (mem : Memory) : List PciemCapEntry → Memory
  | [] => mem
  | entry :: caps =>
    if entry.isExtended then
      buildExtended (store mem (extCfg (entry.extOffset.toNat - pciCfgSpaceSize))
        (encodeExtended (nextExtended caps) entry.cap)) caps
    else
      buildExtended mem caps

def pciemBuildConfigSpace (v : PciemRootComplex) : PciemRootComplex :=
  match v.capMgr with
  | none => { v with space := clearCapList v.space }
  | some mgr =>
    if mgr.caps.length = 0 then
      { v with space := clearCapList v.space }
    else
      let (hasStd, mem) := buildStandard false v.space mgr.caps
      let mem := if hasStd then mem else clearCapList mem
      { v with space := buildExtended mem mgr.caps }

def capId : PciemCap → BitVec 8
  | .msi _ _ => pciCapIdMsi
  | .msix _ _ => pciCapIdMsix
  | .pm _ _ => pciCapIdPm
  | .pcie _ => pciCapIdExp
  | .vsec _ => pciCapIdVndr
  | .pasid _ _ => 0

theorem encodeStandard_header {cap : PciemCap} (h : cap.isExtended = false)
    (nextPtr : BitVec 8) : ∃ rest, encodeStandard nextPtr cap = [capId cap, nextPtr] ++ rest := by
  cases cap with
  | pasid => cases h
  | msi => simp only [encodeStandard, encodeMsi, List.append_assoc]; exact ⟨_, rfl⟩
  | msix => simp only [encodeStandard, encodeMsix, List.append_assoc]; exact ⟨_, rfl⟩
  | pm => simp only [encodeStandard, encodePm, List.append_assoc]; exact ⟨_, rfl⟩
  | pcie => simp only [encodeStandard, encodePcie, List.append_assoc]; exact ⟨_, rfl⟩
  | vsec => exact ⟨_, rfl⟩

/-- What the build writes for a capability that the given ones follow. -/
def encode (entry : PciemCapEntry) (caps : List PciemCapEntry) : List (BitVec 8) :=
  if entry.isExtended then encodeExtended (nextExtended caps) entry.cap
  else encodeStandard (nextStandard caps) entry.cap

theorem encode_of_standard {entry : PciemCapEntry} (h : entry.isExtended = false)
    (caps : List PciemCapEntry) :
    encode entry caps = encodeStandard (nextStandard caps) entry.cap := by
  rw [encode, h, if_neg Bool.false_ne_true]

theorem encode_of_extended {entry : PciemCapEntry} (h : entry.isExtended = true)
    (caps : List PciemCapEntry) :
    encode entry caps = encodeExtended (nextExtended caps) entry.cap := by
  rw [encode, h, if_pos rfl]

def Contained (entry : PciemCapEntry) : Prop :=
  ∀ caps, (encode entry caps).length ≤ entry.size.toNat

/-- The memory holds the encoding of every capability of a kind. -/
def Image (kind : Bool) (mem : Memory) : List PciemCapEntry → Prop
  | [] => True
  | entry :: caps =>
    (entry.isExtended = kind → Holds mem entry.base (encode entry caps)) ∧ Image kind mem caps

theorem advertiseCapList_eq (mem : Memory) (offset : BitVec 8) :
    advertiseCapList mem offset = store mem (cfg pciCapabilityList) [offset] := by
  have hbit : (pciStatusCapList >>> 8).setWidth 8 = 0#8 := by decide
  simp only [advertiseCapList, hbit, BitVec.or_zero, store_self]

theorem clearCapList_eq (mem : Memory) :
    clearCapList mem = store mem (cfg pciCapabilityList) [0] := by
  have hbit : ~~~(pciStatusCapList >>> 8).setWidth 8 = BitVec.allOnes 8 := by decide
  simp only [clearCapList, hbit, BitVec.and_allOnes, store_self]

theorem length_encodeMsi (msi : PciemCapMsiConfig) (nextPtr : BitVec 8) :
    (encodeMsi msi nextPtr).length =
      10 + (if msi.has64bit then 4 else 0) + if msi.hasPerVectorMasking then 8 else 0 := by
  obtain ⟨has64bit, hasPerVectorMasking, -⟩ := msi
  cases has64bit <;> cases hasPerVectorMasking <;> simp [encodeMsi]

theorem contained_of_requested {reqs : List PciemCapConfig} {mgr : PciemCapManager}
    (h : Requested reqs mgr) {entry : PciemCapEntry} (he : entry ∈ mgr.caps) :
    Contained entry := by
  intro caps
  obtain ⟨req, -, hreq⟩ := h.newCap he
  rw [encode, h.kind entry he, h.size entry he]
  cases req with
  | msi msiCfg =>
    rw [← Option.some.inj hreq]
    simp only [PciemCap.isExtended, encodeStandard, length_encodeMsi, PciemCap.size,
      toNat_msiCapSize, Bool.false_eq_true, if_false]
    omega
  | msix | pcie | pasid | pm =>
    rw [← Option.some.inj hreq]
    simp [PciemCap.isExtended, PciemCap.size, encodeStandard, encodeExtended, encodeMsix,
      encodePcie, encodePasid, encodePm]
  | unsupported => cases hreq

def Outside (kind : Bool) (q : ℕ) (caps : List PciemCapEntry) : Prop :=
  ∀ entry ∈ caps, entry.isExtended = kind → q < entry.base ∨ fin entry ≤ q

def capsOf (v : PciemRootComplex) : List PciemCapEntry :=
  match v.capMgr with
  | some mgr => mgr.caps
  | none => []

/-- The capabilities of a kind at their places, with the bytes that they are built with. -/
def stores (kind : Bool) : List PciemCapEntry → List (ℕ × List (BitVec 8))
  | [] => []
  | entry :: caps =>
    if entry.isExtended = kind then (entry.base, encode entry caps) :: stores kind caps
    else stores kind caps

section Stores

variable {caps : List PciemCapEntry} {entry : PciemCapEntry} {kind : Bool}

theorem nextStandard_cons_extended (hk : entry.isExtended = true) :
    nextStandard (entry :: caps) = nextStandard caps := by
  rw [nextStandard, List.find?_cons_of_neg (by simp [hk]), nextStandard]

theorem nextStandard_cons (hk : entry.isExtended = false) :
    nextStandard (entry :: caps) = entry.offset := by
  rw [nextStandard, List.find?_cons_of_pos (by simp [hk])]

theorem stores_cons (hk : entry.isExtended = kind) (caps : List PciemCapEntry) :
    stores kind (entry :: caps) = (entry.base, encode entry caps) :: stores kind caps :=
  if_pos hk

theorem stores_cons_of_ne (hk : entry.isExtended ≠ kind) (caps : List PciemCapEntry) :
    stores kind (entry :: caps) = stores kind caps := if_neg hk

theorem exists_stores_append (kind : Bool) (pre caps : List PciemCapEntry) :
    ∃ front, stores kind (pre ++ caps) = front ++ stores kind caps := by
  induction pre with
  | nil => exact ⟨[], rfl⟩
  | cons entry pre ih =>
    obtain ⟨front, hfront⟩ := ih
    by_cases hk : entry.isExtended = kind
    · exact ⟨_ :: front, by rw [List.cons_append, stores_cons hk, hfront, List.cons_append]⟩
    · exact ⟨front, by rw [List.cons_append, stores_cons_of_ne hk, hfront]⟩

theorem mem_stores {s : ℕ × List (BitVec 8)} (h : s ∈ stores kind caps) :
    ∃ entry ∈ caps, entry.isExtended = kind ∧ ∃ post, s = (entry.base, encode entry post) := by
  induction caps with
  | nil => cases h
  | cons entry caps ih =>
    by_cases hk : entry.isExtended = kind
    · rw [stores_cons hk] at h
      rcases List.mem_cons.mp h with rfl | h
      · exact ⟨entry, List.mem_cons_self, hk, caps, rfl⟩
      · obtain ⟨e, he, hs⟩ := ih h
        exact ⟨e, List.mem_cons_of_mem entry he, hs⟩
    · rw [stores_cons_of_ne hk] at h
      obtain ⟨e, he, hs⟩ := ih h
      exact ⟨e, List.mem_cons_of_mem entry he, hs⟩

theorem stores_contained (hc : ∀ entry ∈ caps, Contained entry) {s : ℕ × List (BitVec 8)}
    (h : s ∈ stores kind caps) : ∃ entry ∈ caps, entry.isExtended = kind ∧ s.1 = entry.base ∧
      s.1 + s.2.length ≤ fin entry := by
  obtain ⟨entry, he, hk, post, rfl⟩ := mem_stores h
  exact ⟨entry, he, hk, rfl, Nat.add_le_add_left (hc entry he post) _⟩

end Stores

section Build

theorem buildStandard_fst (hasStd : Bool) (mem : Memory) (caps : List PciemCapEntry) :
    (buildStandard hasStd mem caps).1 =
      (hasStd || (caps.find? (·.isExtended = false)).isSome) := by
  induction caps generalizing hasStd mem with
  | nil => simp [buildStandard]
  | cons entry caps ih =>
    rw [buildStandard]
    cases hk : entry.isExtended with
    | true => simp [hk, ih]
    | false => simp [hk, ih]

theorem buildStandard_true (mem : Memory) (caps : List PciemCapEntry) :
    (buildStandard true mem caps).2 = storeAll mem (stores false caps) := by
  induction caps generalizing mem with
  | nil => rfl
  | cons entry caps ih =>
    rw [buildStandard]
    cases hk : entry.isExtended with
    | true =>
      rw [if_pos rfl, stores_cons_of_ne (by simp [hk])]
      exact ih mem
    | false =>
      rw [stores_cons hk, PciemCapEntry.base_of_standard hk, encode_of_standard hk]
      exact ih _

/-- The loop over the standard capabilities and the branch after it: the pointer is stored, and
then every capability. -/
theorem standardPass_eq (mem : Memory) (caps : List PciemCapEntry) :
    (if (buildStandard false mem caps).1 then (buildStandard false mem caps).2
      else clearCapList (buildStandard false mem caps).2) =
    storeAll (store mem (cfg pciCapabilityList) [nextStandard caps]) (stores false caps) := by
  induction caps with
  | nil => exact clearCapList_eq mem
  | cons entry caps ih =>
    cases hk : entry.isExtended with
    | true =>
      rw [buildStandard, if_pos hk, stores_cons_of_ne (by simp [hk]),
        nextStandard_cons_extended hk]
      exact ih
    | false =>
      have hloop : buildStandard false mem (entry :: caps) =
          buildStandard true (advertiseCapList mem entry.offset) (entry :: caps) := by
        rw [buildStandard, buildStandard, hk]
        rfl
      rw [hloop, buildStandard_fst, Bool.true_or, if_pos rfl, buildStandard_true,
        advertiseCapList_eq, nextStandard_cons hk]

theorem buildExtended_eq {caps : List PciemCapEntry}
    (hb : ∀ entry ∈ caps, entry.isExtended = true → pciCfgSpaceSize ≤ entry.base)
    (mem : Memory) : buildExtended mem caps = storeAll mem (stores true caps) := by
  induction caps generalizing mem with
  | nil => rfl
  | cons entry caps ih =>
    have hb' := fun e he ↦ hb e (List.mem_cons_of_mem entry he)
    rw [buildExtended]
    cases hk : entry.isExtended with
    | false =>
      rw [if_neg Bool.false_ne_true, stores_cons_of_ne (by simp [hk])]
      exact ih hb' mem
    | true =>
      have hlo := hb entry List.mem_cons_self hk
      have hplace : extCfg (entry.extOffset.toNat - pciCfgSpaceSize) = entry.base := by
        rw [PciemCapEntry.base_of_extended hk] at hlo ⊢
        rw [extCfg]
        omega
      rw [if_pos rfl, stores_cons hk, hplace, encode_of_extended hk]
      exact ih hb' _

/-- What the build does to config space: the pointer to the first standard capability is stored,
then the standard capabilities, then the extended ones. -/
theorem space_build {v : PciemRootComplex}
    (hb : ∀ entry ∈ capsOf v, entry.isExtended = true → pciCfgSpaceSize ≤ entry.base) :
    (pciemBuildConfigSpace v).space =
      storeAll (store v.space (cfg pciCapabilityList) [nextStandard (capsOf v)])
        (stores false (capsOf v) ++ stores true (capsOf v)) := by
  rw [pciemBuildConfigSpace]
  cases hm : v.capMgr with
  | none =>
    have hnil : capsOf v = [] := by rw [capsOf, hm]
    rw [hnil]
    exact clearCapList_eq v.space
  | some mgr =>
    have hcaps : capsOf v = mgr.caps := by rw [capsOf, hm]
    rw [hcaps] at hb ⊢
    dsimp only
    split
    · rename_i hnil
      rw [List.length_eq_zero_iff.mp hnil]
      exact clearCapList_eq v.space
    · dsimp only
      rw [buildExtended_eq hb, standardPass_eq, storeAll_append]

/-- No capability that is built later reaches into the range of `entry`. -/
structure Undisturbed (pre post : List PciemCapEntry) (entry : PciemCapEntry) : Prop where
  later : ∀ e ∈ post, e.isExtended = entry.isExtended → Apart entry e
  extended : entry.isExtended = false → ∀ e ∈ pre ++ post, e.isExtended = true → Apart entry e

theorem undisturbed_of_disjoint {pre post : List PciemCapEntry} {entry : PciemCapEntry}
    (h : (pre ++ entry :: post).Pairwise Apart) : Undisturbed pre post entry := by
  obtain ⟨-, hpost, hpre⟩ := List.pairwise_append.mp h
  have hlater (e : PciemCapEntry) (he : e ∈ post) : Apart entry e :=
    List.rel_of_pairwise_cons hpost he
  refine ⟨fun e he _ ↦ hlater e he, fun _ e he _ ↦ ?_⟩
  rcases List.mem_append.mp he with he | he
  · exact (hpre e he entry List.mem_cons_self).symm
  · exact hlater e he

/-- The registers of such a capability are as it was built. -/
theorem holds_build {v : PciemRootComplex}
    (hb : ∀ entry ∈ capsOf v, entry.isExtended = true → pciCfgSpaceSize ≤ entry.base)
    (hc : ∀ entry ∈ capsOf v, Contained entry) {pre post : List PciemCapEntry}
    {entry : PciemCapEntry} (hcaps : capsOf v = pre ++ entry :: post)
    (h : Undisturbed pre post entry) :
    Holds (pciemBuildConfigSpace v).space entry.base (encode entry post) := by
  have hlen := hc entry (by simp [hcaps]) post
  have happly {e : PciemCapEntry} {s : ℕ × List (BitVec 8)} (hapart : Apart entry e)
      (hs : s.1 = e.base) (hs' : s.1 + s.2.length ≤ fin e) :
      entry.base + (encode entry post).length ≤ s.1 ∨ s.1 + s.2.length ≤ entry.base := by
    rw [Apart, fin] at hapart
    omega
  rw [space_build hb]
  rw [hcaps] at hc ⊢
  have hmem {e : PciemCapEntry} (he : e ∈ post) : e ∈ pre ++ entry :: post :=
    List.mem_append_right pre (List.mem_cons_of_mem entry he)
  cases hk : entry.isExtended with
  | false =>
    obtain ⟨front, hfront⟩ := exists_stores_append false pre (entry :: post)
    rw [hfront, stores_cons hk, List.append_assoc, List.cons_append]
    refine holds_storeAll fun s hs ↦ ?_
    rcases List.mem_append.mp hs with hs | hs
    · obtain ⟨e, he, hke, hbase, hfin⟩ := stores_contained (fun e he ↦ hc e (hmem he)) hs
      exact happly (h.later e he (hke.trans hk.symm)) hbase hfin
    · obtain ⟨e, he, hke, hbase, hfin⟩ := stores_contained hc hs
      refine happly (h.extended hk e ?_ hke) hbase hfin
      rcases List.mem_append.mp he with he | he
      · exact List.mem_append_left post he
      · rcases List.mem_cons.mp he with rfl | he
        · exact absurd (hk.symm.trans hke) Bool.false_ne_true
        · exact List.mem_append_right pre he
  | true =>
    obtain ⟨front, hfront⟩ := exists_stores_append true pre (entry :: post)
    rw [hfront, stores_cons hk, ← List.append_assoc]
    refine holds_storeAll fun s hs ↦ ?_
    obtain ⟨e, he, hke, hbase, hfin⟩ := stores_contained (fun e he ↦ hc e (hmem he)) hs
    exact happly (h.later e he (hke.trans hk.symm)) hbase hfin

end Build

section Image

variable {caps : List PciemCapEntry} {mem : Memory} {kind : Bool}

theorem Image.holds (h : Image kind mem caps) {entry : PciemCapEntry} (he : entry ∈ caps)
    (hk : entry.isExtended = kind) : ∃ post, Holds mem entry.base (encode entry post) := by
  induction caps with
  | nil => cases he
  | cons e caps ih =>
    rcases List.mem_cons.mp he with rfl | he
    · exact ⟨caps, h.1 hk⟩
    · exact ih h.2 he

theorem image_of_holds (pre : List PciemCapEntry)
    (h : ∀ front entry post, pre ++ caps = front ++ entry :: post → entry.isExtended = kind →
      Holds mem entry.base (encode entry post)) : Image kind mem caps := by
  induction caps generalizing pre with
  | nil => trivial
  | cons entry caps ih =>
    refine ⟨h pre entry caps rfl, ih (pre ++ [entry]) fun front e post hcaps ↦ h front e post ?_⟩
    rw [← hcaps, List.append_assoc]
    rfl

theorem header_of_holds {entry : PciemCapEntry} (hk : entry.isExtended = false)
    (hkind : entry.isExtended = entry.cap.isExtended)
    (h : Holds mem entry.base (encode entry caps)) :
    mem (cfg entry.base) = capId entry.cap ∧ mem (cfg (entry.base + 1)) = nextStandard caps := by
  obtain ⟨rest, hrest⟩ := encodeStandard_header (hkind.symm.trans hk) (nextStandard caps)
  rw [encode_of_standard hk, hrest] at h
  exact ⟨h 0 (by simp), h 1 (by simp)⟩

theorem header_of_holds_extended {entry : PciemCapEntry} (hk : entry.isExtended = true)
    (hkind : entry.isExtended = entry.cap.isExtended)
    (h : Holds mem entry.base (encode entry caps)) : (load mem entry.base 4 : BitVec 32) =
      pciExtCapIdPasid ||| (1#32 <<< 16) ||| ((nextExtended caps).setWidth 32 <<< 20) := by
  rw [hkind] at hk
  rw [encode, hkind, hk, if_pos rfl] at h
  cases hcap : entry.cap with
  | pasid config state =>
    rw [hcap, encodeExtended, encodePasid, List.append_assoc] at h
    rw [(holds_append.mp h).1.load_eq rfl (by decide), BitVec.setWidth_eq]
  | msi | msix | pm | pcie | vsec =>
    rw [hcap] at hk
    cases hk

end Image

/-- What `pciem_build_config_space` leaves in config space when the layout is valid and
every encoding stays in its range. -/
structure Built (before after : Memory) (caps : List PciemCapEntry) : Prop where
  standard : Image false after caps
  extended : Image true after caps
  capList : after (cfg pciCapabilityList) = nextStandard caps
  frame : ∀ q, q ≠ cfg pciCapabilityList → Outside false q caps → Outside true q caps →
    after q = before q

theorem built {v : PciemRootComplex} {mgr : PciemCapManager} (hm : v.capMgr = some mgr)
    (hv : ValidLayout mgr) (hc : ∀ entry ∈ mgr.caps, Contained entry) :
    Built v.space (pciemBuildConfigSpace v).space mgr.caps := by
  have hcaps : capsOf v = mgr.caps := by rw [capsOf, hm]
  have hb : ∀ entry ∈ capsOf v, entry.isExtended = true → pciCfgSpaceSize ≤ entry.base := by
    rw [hcaps]
    exact fun entry he hk ↦ (hv.extended entry he hk).1
  have himage (kind : Bool) : Image kind (pciemBuildConfigSpace v).space mgr.caps := by
    refine image_of_holds [] fun front entry post hsplit _ ↦ ?_
    rw [List.nil_append] at hsplit
    refine holds_build hb (by rwa [hcaps]) (hcaps.trans hsplit) ?_
    exact undisturbed_of_disjoint (hsplit ▸ hv.disjoint)
  have hframe {q : ℕ} (hout : Outside false q mgr.caps) (hout' : Outside true q mgr.caps) :
      (pciemBuildConfigSpace v).space q =
        store v.space (cfg pciCapabilityList) [nextStandard mgr.caps] q := by
    rw [space_build hb, hcaps]
    refine storeAll_outside fun s hs ↦ ?_
    rcases List.mem_append.mp hs with hs | hs
    · obtain ⟨entry, he, hk, hbase, hfin⟩ := stores_contained hc hs
      have := hout entry he hk
      omega
    · obtain ⟨entry, he, hk, hbase, hfin⟩ := stores_contained hc hs
      have := hout' entry he hk
      omega
  refine ⟨himage false, himage true, ?_, fun q hq hout hout' ↦ ?_⟩
  · rw [hframe, store_singleton]
    · intro entry he hk
      have := (hv.standard entry he hk).1
      simp only [cfg, pciCapabilityList]
      omega
    · intro entry he hk
      have := (hv.extended entry he hk).1
      simp only [cfg, pciCapabilityList, pciCfgSpaceSize] at this ⊢
      omega
  · rw [hframe hout hout', store_singleton_of_ne hq]

theorem pciemBuildConfigSpace_eq (v : PciemRootComplex) :
    ∃ space, pciemBuildConfigSpace v = { v with space } := by
  rw [pciemBuildConfigSpace]
  split
  · exact ⟨_, rfl⟩
  · split
    · exact ⟨_, rfl⟩
    · exact ⟨_, rfl⟩

end Pciem.Config.Build
