import Pciem.Config.Build
import Pciem.Device.Setup

namespace Pciem.Device.Fidelity

open Kernel Library.ByteMemory Config.Capabilities Config.Layout Config.Build
  Bar.Table Setup

/-- The fields of the Message Control word of an MSI capability. -/
structure MsiFields where
  multipleMessageCapable : BitVec 3
  address64 : Bool
  perVectorMasking : Bool

def decodeMsi (control : BitVec 16) : MsiFields where
  multipleMessageCapable := control.extractLsb' 1 3
  address64 := control.getLsbD 7
  perVectorMasking := control.getLsbD 8

/-- The fields of an MSI-X capability: `table` and `pba` are a BIR and an offset. -/
structure MsixFields where
  tableSize : ℕ
  table : BitVec 3 × ℕ
  pba : BitVec 3 × ℕ

def decodeBir (dword : BitVec 32) : BitVec 3 × ℕ :=
  (dword.extractLsb' 0 3, (dword.extractLsb' 3 29).toNat * 8)

def decodeMsix (control : BitVec 16) (table pba : BitVec 32) : MsixFields where
  tableSize := (control.extractLsb' 0 11).toNat + 1
  table := decodeBir table
  pba := decodeBir pba

/-- The fields of the capability register of a PASID capability. -/
structure PasidFields where
  executePermission : Bool
  privilegedMode : Bool
  maxPasidWidth : BitVec 5

def decodePasid (capReg : BitVec 16) : PasidFields where
  executePermission := capReg.getLsbD 1
  privilegedMode := capReg.getLsbD 2
  maxPasidWidth := capReg.extractLsb' 8 5

def pciMsixTable : ℕ := 4
def pciMsixPba : ℕ := 8
def pciPasidCap : ℕ := 4

/-- The flags in the registers are those that the size of the capability has been computed with
and that its handlers go by. -/
def LayoutAgrees (fields : MsiFields) (entry : PciemCapEntry) : Prop :=
  ∃ config state, entry.cap = .msi config state ∧ config.has64bit = fields.address64 ∧
    config.hasPerVectorMasking = fields.perVectorMasking ∧
    entry.size = msiCapSize { config with
      has64bit := fields.address64, hasPerVectorMasking := fields.perVectorMasking }

/-- The registers of a capability decode to the fields of the request for it. -/
def Faithful (mem : Memory) (entry : PciemCapEntry) : PciemCapConfig → Prop
  | .msi msi =>
    let fields := decodeMsi (load mem (entry.base + pciMsiFlags) 2)
    fields.multipleMessageCapable.toNat = msi.numVectorsLog2.toNat ∧
      (fields.address64 = true ↔ msi.has64bit ≠ 0) ∧
      (fields.perVectorMasking = true ↔ msi.hasMasking ≠ 0) ∧ LayoutAgrees fields entry
  | .msix msix =>
    let fields := decodeMsix (load mem (entry.base + pciMsixFlags) 2)
      (load mem (entry.base + pciMsixTable) 4) (load mem (entry.base + pciMsixPba) 4)
    fields.tableSize = msix.tableSize.toNat ∧
      (fields.table.1.toNat = msix.barIndex.toNat ∧ fields.table.2 = msix.tableOffset.toNat) ∧
      fields.pba.1.toNat = msix.barIndex.toNat ∧ fields.pba.2 = msix.pbaOffset.toNat
  | .pasid pasid =>
    let fields := decodePasid (load mem (entry.base + pciPasidCap) 2)
    (fields.executePermission = true ↔ pasid.executePermission ≠ 0) ∧
      (fields.privilegedMode = true ↔ pasid.privilegedMode ≠ 0) ∧
      fields.maxPasidWidth.toNat = pasid.maxPasidWidth.toNat
  | .pcie | .pm | .unsupported _ => True

/-- A request whose fields the registers have room for; of a PASID request only the one without
any feature. -/
def Expressible : PciemCapConfig → Prop
  | .msi msi => msi.numVectorsLog2.toNat < 8
  | .msix msix => (1 ≤ msix.tableSize.toNat ∧ msix.tableSize.toNat ≤ 2048) ∧
      msix.barIndex.toNat < 8 ∧ 8 ∣ msix.tableOffset.toNat ∧ 8 ∣ msix.pbaOffset.toNat
  | .pasid pasid => pasid.executePermission = 0 ∧ pasid.privilegedMode = 0 ∧
      pasid.maxPasidWidth = 0
  | .pcie | .pm | .unsupported _ => True

instance : (req : PciemCapConfig) → Decidable (Expressible req)
  | .msi _ => inferInstanceAs (Decidable (_ < _))
  | .msix _ => inferInstanceAs (Decidable ((_ ∧ _) ∧ _ ∧ _ ∧ _))
  | .pasid _ => inferInstanceAs (Decidable (_ ∧ _ ∧ _))
  | .pcie | .pm | .unsupported _ => inferInstanceAs (Decidable True)

section Fields

def msiControl (msi : PciemCapMsiConfig) : BitVec 16 :=
  let control : BitVec 16 := 0
  let control := if msi.has64bit then control ||| pciMsiFlags64bit else control
  let control := if msi.hasPerVectorMasking then control ||| pciMsiFlagsMaskbit else control
  control ||| (msi.numVectorsLog2.setWidth 16 <<< 1)

theorem getLsbD_msiControl (msi : PciemCapMsiConfig) {k : ℕ} (hk : k < 16) :
    (msiControl msi).getLsbD k = (msi.has64bit && decide (k = 7) ||
      msi.hasPerVectorMasking && decide (k = 8) ||
      decide (1 ≤ k) && msi.numVectorsLog2.getLsbD (k - 1)) := by
  have h64 : pciMsiFlags64bit.getLsbD k = decide (k = 7) := by
    interval_cases k <;> rfl
  have hmask : pciMsiFlagsMaskbit.getLsbD k = decide (k = 8) := by
    interval_cases k <;> rfl
  obtain ⟨has64bit, hasPerVectorMasking, n⟩ := msi
  have hshift : (n.setWidth 16 <<< 1).getLsbD k = (decide (1 ≤ k) && n.getLsbD (k - 1)) := by
    have hlt : k - 1 < 16 := by omega
    rw [BitVec.getLsbD_shiftLeft, BitVec.getLsbD_setWidth]
    by_cases h1 : 1 ≤ k
    · simp [hk, hlt, h1, Nat.not_lt.mpr h1]
    · simp [Nat.lt_one_iff.mp (Nat.not_le.mp h1)]
  cases has64bit <;> cases hasPerVectorMasking <;>
    simp [msiControl, BitVec.getLsbD_or, h64, hmask, hshift]

theorem decodeMsi_msiControl (msi : PciemCapMsiConfig) : decodeMsi (msiControl msi) =
    ⟨msi.numVectorsLog2.setWidth 3, msi.has64bit || msi.numVectorsLog2.getLsbD 6,
      msi.hasPerVectorMasking || msi.numVectorsLog2.getLsbD 7⟩ := by
  have hexponent : (msiControl msi).extractLsb' 1 3 = msi.numVectorsLog2.setWidth 3 := by
    apply BitVec.eq_of_getLsbD_eq
    intro k hk
    rw [BitVec.getLsbD_extractLsb', getLsbD_msiControl msi (by omega), BitVec.getLsbD_setWidth]
    have h7 : 1 + k ≠ 7 := by omega
    have h8 : 1 + k ≠ 8 := by omega
    simp [h7, h8]
  rw [decodeMsi, hexponent, getLsbD_msiControl msi (by decide), getLsbD_msiControl msi (by decide)]
  simp

theorem decodeBir_eq (offset : BitVec 32) (bir : BitVec 8) :
    decodeBir ((offset &&& ~~~0x7) ||| (bir.setWidth 32 &&& 0x7)) =
      (bir.setWidth 3, offset.toNat / 8 * 8) := by
  have hmask (k : ℕ) (hk : k < 32) : (0x7 : BitVec 32).getLsbD k = decide (k < 3) := by
    interval_cases k <;> rfl
  have hbir : ((offset &&& ~~~0x7) ||| (bir.setWidth 32 &&& 0x7)).extractLsb' 0 3 =
      bir.setWidth 3 := by
    apply BitVec.eq_of_getLsbD_eq
    intro k hk
    have hk32 : k < 32 := by omega
    rw [BitVec.getLsbD_extractLsb', Nat.zero_add, BitVec.getLsbD_or, BitVec.getLsbD_and,
      BitVec.getLsbD_not, BitVec.getLsbD_and, hmask k hk32]
    simp [hk, hk32]
  have hoffset : ((offset &&& ~~~0x7) ||| (bir.setWidth 32 &&& 0x7)).extractLsb' 3 29 =
      offset.extractLsb' 3 29 := by
    apply BitVec.eq_of_getLsbD_eq
    intro k hk
    have hk32 : 3 + k < 32 := by omega
    rw [BitVec.getLsbD_extractLsb', BitVec.getLsbD_or, BitVec.getLsbD_and, BitVec.getLsbD_not,
      BitVec.getLsbD_and, hmask _ hk32, BitVec.getLsbD_extractLsb']
    simp [hk32]
  have hlt : offset.toNat / 8 < 2 ^ 29 := by
    have := offset.isLt
    omega
  rw [decodeBir, hbir, hoffset, BitVec.extractLsb'_toNat, Nat.shiftRight_eq_div_pow,
    Nat.mod_eq_of_lt hlt]

theorem tableSize_eq (tableSize : BitVec 16) :
    (((tableSize - 1) &&& 0x7FF).extractLsb' 0 11).toNat = (tableSize - 1).toNat % 2048 := by
  rw [BitVec.extractLsb'_toNat, Nat.shiftRight_zero, BitVec.toNat_and]
  exact (congrArg (· % 2 ^ 11) (Nat.and_two_pow_sub_one_eq_mod _ 11)).trans
    (Nat.mod_mod _ _)

variable {mem : Memory} {p : ℕ}

theorem load_of_holds {w : ℕ} {value : BitVec w} {front back : List (BitVec 8)} {n k : ℕ}
    (h : Holds mem p (front ++ (bytes value n ++ back))) (hn : w = 8 * n)
    (hk : front.length = k) : (load mem (p + k) n : BitVec w) = value := by
  obtain ⟨-, hrest⟩ := holds_append.mp h
  rw [hk] at hrest
  exact ((holds_append.mp hrest).1.load_eq hn (Nat.le_refl w)).trans (BitVec.setWidth_eq value)

theorem load_msiControl {msi : PciemCapMsiConfig} {nextPtr : BitVec 8}
    (h : Holds mem p (encodeMsi msi nextPtr)) :
    (load mem (p + pciMsiFlags) 2 : BitVec 16) = msiControl msi := by
  rw [encodeMsi, List.append_assoc, List.append_assoc, List.append_assoc, List.append_assoc] at h
  exact load_of_holds h rfl rfl

theorem load_msix {msix : PciemCapMsixConfig} {nextPtr : BitVec 8}
    (h : Holds mem p (encodeMsix msix nextPtr)) :
    (load mem (p + pciMsixFlags) 2 : BitVec 16) = (msix.tableSize - 1) &&& 0x7FF ∧
      (load mem (p + pciMsixTable) 4 : BitVec 32) =
        (msix.tableOffset &&& ~~~0x7) ||| (msix.barIndex.setWidth 32 &&& 0x7) ∧
      (load mem (p + pciMsixPba) 4 : BitVec 32) =
        (msix.pbaOffset &&& ~~~0x7) ||| (msix.barIndex.setWidth 32 &&& 0x7) := by
  rw [encodeMsix] at h
  obtain ⟨hfront, -⟩ := holds_append.mp h
  obtain ⟨hcontrol, -⟩ := holds_append.mp hfront
  refine ⟨?_, ?_, ?_⟩
  · rw [← List.append_nil (bytes ((msix.tableSize - 1) &&& 0x7FF) 2)] at hcontrol
    exact load_of_holds hcontrol rfl rfl
  · rw [List.append_assoc] at h
    exact load_of_holds h rfl rfl
  · rw [← List.append_nil (bytes _ 4)] at h
    exact load_of_holds h rfl rfl

theorem load_pasid {nextExt : BitVec 16}
    (h : Holds mem p (encodePasid ⟨0, false, false⟩ nextExt)) :
    (load mem (p + pciPasidCap) 2 : BitVec 16) = 0 := by
  rw [encodePasid, List.append_assoc] at h
  exact load_of_holds h rfl rfl

end Fields

section Faithful

variable {mem : Memory} {entry : PciemCapEntry} {req : PciemCapConfig} {caps : List PciemCapEntry}

theorem toNat_eq_zero_iff {w : ℕ} (x : BitVec w) : 0 = x.toNat ↔ x = 0 := by
  rw [eq_comm, ← BitVec.toNat_inj]
  exact Iff.rfl

/-- The registers of a capability as it is built are faithful exactly when the request fits in
their fields. -/
theorem faithful_of_holds (hcap : req.newCap = some entry.cap)
    (hkind : entry.isExtended = entry.cap.isExtended) (hsize : entry.size = entry.cap.size)
    (h : Holds mem entry.base (encode entry caps)) : Faithful mem entry req ↔ Expressible req := by
  cases req with
  | msi msi =>
    have hentry := (Option.some.inj hcap).symm
    rw [encode, hkind, hentry] at h
    change Holds mem entry.base (encodeMsi _ (nextStandard caps)) at h
    rw [Faithful, load_msiControl h, decodeMsi_msiControl, Expressible]
    dsimp only
    rw [BitVec.toNat_setWidth]
    constructor
    · rintro ⟨hexponent, -⟩
      rw [← hexponent]
      exact Nat.mod_lt _ (by decide)
    · intro hlt
      have hbit (k : ℕ) (hk : 3 ≤ k) : msi.numVectorsLog2.getLsbD k = false := by
        rw [← BitVec.testBit_toNat]
        exact Nat.testBit_lt_two_pow
          (Nat.lt_of_lt_of_le hlt (Nat.pow_le_pow_right Nat.two_pos hk))
      rw [hbit 6 (by decide), hbit 7 (by decide), Bool.or_false, Bool.or_false]
      refine ⟨Nat.mod_eq_of_lt hlt, by simp, by simp, _, _, hentry, rfl, rfl, ?_⟩
      rw [hsize, hentry]
      rfl
  | msix msix =>
    have hentry := (Option.some.inj hcap).symm
    rw [encode, hkind, hentry] at h
    change Holds mem entry.base (encodeMsix _ (nextStandard caps)) at h
    obtain ⟨hcontrol, htable, hpba⟩ := load_msix h
    rw [Faithful, hcontrol, htable, hpba, Expressible, decodeMsix]
    dsimp only
    rw [decodeBir_eq, decodeBir_eq, tableSize_eq, BitVec.toNat_setWidth]
    have hone : (msix.tableSize - 1).toNat = (msix.tableSize.toNat + 65535) % 65536 := by
      rw [BitVec.toNat_sub, Nat.add_comm]
      rfl
    have hlt := msix.tableSize.isLt
    rw [hone]
    dsimp only
    omega
  | pasid pasid =>
    have hentry := (Option.some.inj hcap).symm
    rw [encode, hkind, hentry] at h
    change Holds mem entry.base (encodePasid _ (nextExtended caps)) at h
    rw [Faithful, load_pasid h, Expressible]
    have hdecode : decodePasid 0 = ⟨false, false, 0⟩ := rfl
    rw [hdecode]
    simp [toNat_eq_zero_iff]
  | pcie | pm => exact Iff.rfl
  | unsupported => cases hcap

/-- A request that has returned 0 has a capability of its own, whatever calls come before and
after it. -/
theorem exists_entry {allocated : Bool} {before : List Call} (after : List Call)
    {rc : PciemRootComplex}
    (h : pciemIoctlAddCapability (setUp allocated before).rc req = .ok rc) : ∃ entry post,
      capsOf (setUp allocated (before ++ .addCapability req :: after)).rc =
        capsOf (setUp allocated before).rc ++ entry :: post ∧
      req.newCap = some entry.cap := by
  have hrun : setUp allocated (before ++ .addCapability req :: after) =
      after.foldl perform { setUp allocated before with rc } := by
    rw [setUp, List.foldl_append, List.foldl_cons, ← setUp, perform, h]
  obtain ⟨post, hpost⟩ := capsOf_foldl_perform { setUp allocated before with rc } after
  obtain ⟨mgr, hl, cap, hm, hcap, -, rfl⟩ := addCapability_eq_ok h
  refine ⟨⟨if cap.isExtended then 0 else mgr.nextOffset,
    if cap.isExtended then mgr.extNextOffset else 0, cap.isExtended, cap.size, cap⟩, post, ?_, hcap⟩
  rw [hrun, hpost]
  have hcaps : capsOf (setUp allocated before).rc = mgr.caps := by rw [capsOf, hm]
  rw [hcaps]
  exact List.append_assoc _ _ _

/-- The registers that the build makes for a request that has returned 0 give back its fields
exactly when the fields of PCI have room for them, and so does config space when no other
capability is built over them. -/
theorem add_capability_faithful_iff {allocated : Bool} {before : List Call} (after : List Call)
    {rc : PciemRootComplex}
    (h : pciemIoctlAddCapability (setUp allocated before).rc req = .ok rc) : ∃ entry post,
      capsOf (setUp allocated (before ++ .addCapability req :: after)).rc =
        capsOf (setUp allocated before).rc ++ entry :: post ∧
      (∀ mem, Faithful (store mem entry.base (encode entry post)) entry req ↔
        Expressible req) ∧
      (Undisturbed (capsOf (setUp allocated before).rc) post entry →
        (Faithful (pciemBuildConfigSpace
          (setUp allocated (before ++ .addCapability req :: after)).rc).space entry req ↔
            Expressible req)) := by
  obtain ⟨entry, post, hcaps, hcap⟩ := exists_entry after h
  have hasked := asked_setUp allocated (before ++ .addCapability req :: after)
  have hmem : entry ∈ capsOf (setUp allocated (before ++ .addCapability req :: after)).rc := by
    rw [hcaps]
    exact List.mem_append_right _ List.mem_cons_self
  obtain ⟨reqs, mgr, hreqs, he⟩ := hasked.exists_requested hmem
  have hkind := hreqs.kind entry he
  have hsize := hreqs.size entry he
  refine ⟨entry, post, hcaps, fun mem ↦ ?_, fun hund ↦ ?_⟩
  · exact faithful_of_holds hcap hkind hsize (holds_store mem _ _)
  · exact faithful_of_holds hcap hkind hsize
      (holds_build hasked.extended_base_ge hasked.contained hcaps hund)

end Faithful

def pcieCalls : List Call := [.addCapability .pcie]

theorem add_capability_faithful_eight_vectors : ∃ entry,
    capsOf (setUp true (pcieCalls ++ [.addCapability (.msi ⟨3, 1, 1⟩)])).rc =
      capsOf (setUp true pcieCalls).rc ++ [entry] ∧
    Faithful (pciemBuildConfigSpace
      (setUp true (pcieCalls ++ [.addCapability (.msi ⟨3, 1, 1⟩)])).rc).space entry
        (.msi ⟨3, 1, 1⟩) := by
  obtain ⟨rc, h⟩ : ∃ rc, pciemIoctlAddCapability (setUp true pcieCalls).rc (.msi ⟨3, 1, 1⟩) =
    .ok rc := ⟨_, rfl⟩
  obtain ⟨entry, post, hcaps, -, hiff⟩ := add_capability_faithful_iff [] h
  cases hcaps
  exact ⟨_, rfl, (hiff (undisturbed_of_disjoint (by decide))).mpr (by decide)⟩

/-- A request for PASID with a width and both features leaves a register without any. -/
theorem pasid_request_lost : ¬ ∀ (allocated : Bool) (before after : List Call)
    (req : PciemCapConfig) (rc : PciemRootComplex),
    pciemIoctlAddCapability (setUp allocated before).rc req = .ok rc → ∃ entry post,
      capsOf (setUp allocated (before ++ .addCapability req :: after)).rc =
        capsOf (setUp allocated before).rc ++ entry :: post ∧
      (Undisturbed (capsOf (setUp allocated before).rc) post entry →
        Faithful (pciemBuildConfigSpace
          (setUp allocated (before ++ .addCapability req :: after)).rc).space entry req) := by
  intro h
  obtain ⟨entry, post, hcaps, hfaithful⟩ := h true [] [] (.pasid ⟨20, 1, 1⟩) _ rfl
  cases hcaps
  have hpasid := hfaithful ⟨fun _ he ↦ absurd he List.not_mem_nil, fun hk ↦ Bool.noConfusion hk⟩
  exact absurd (hpasid.1.mpr (by decide)) (by decide)

end Pciem.Device.Fidelity
