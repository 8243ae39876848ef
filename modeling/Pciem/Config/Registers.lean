import Pciem.Config.Capabilities
import Mathlib.Data.List.Pairwise
import Mathlib.Tactic.ByContra
import Mathlib.Tactic.SplitIfs

namespace Pciem.Config.Registers

open Kernel Library.ByteMemory Capabilities

def handleMsiRead (config : PciemCapMsiConfig) (st : PciemMsiState) (offset size : ℕ) :
    Option (BitVec 32) :=
  if offset = pciMsiFlags ∧ size = 2 then
    some (st.control.setWidth 32)
  else if offset = pciMsiAddressLo then
    some st.addressLo
  else if config.has64bit then
    if offset = pciMsiAddressHi then
      some st.addressHi
    else if offset = pciMsiData64 then
      some (st.data.setWidth 32)
    else
      none
  else if offset = pciMsiData32 then
    some (st.data.setWidth 32)
  else
    none

/-- `handle_msix_read`, `handle_pm_read` and `handle_pasid_read`: the control word of the
capability at its offset, for accesses of two bytes. -/
def handleControlRead (ctrl : ℕ) (control : BitVec 16) (offset size : ℕ) :
    Option (BitVec 32) :=
  if offset = ctrl ∧ size = 2 then some (control.setWidth 32) else none

def handleMsixRead (st : PciemMsixState) (offset size : ℕ) : Option (BitVec 32) :=
  handleControlRead pciMsixFlags st.control offset size

def handlePmRead (st : PciemPmState) (offset size : ℕ) : Option (BitVec 32) :=
  handleControlRead pciPmCtrl st.control offset size

def handlePasidRead (st : PciemPasidState) (offset size : ℕ) : Option (BitVec 32) :=
  handleControlRead 6 st.control offset size

/-- The switch of `pciem_handle_cap_read`. -/
def handleRead (cap : PciemCap) (offset size : ℕ) : Option (BitVec 32) :=
  match cap with
  | .msi config state => handleMsiRead config state offset size
  | .msix _ state => handleMsixRead state offset size
  | .pm _ state => handlePmRead state offset size
  | .pasid _ state => handlePasidRead state offset size
  | .pcie _ | .vsec _ => none

def putUnalignedLe16 (value : BitVec 16) (mem : Memory) (p : ℕ) : Memory :=
  store mem p (bytes value 2)

def putUnalignedLe32 (value : BitVec 32) (mem : Memory) (p : ℕ) : Memory :=
  store mem p (bytes value 4)

def handleMsiWrite (config : PciemCapMsiConfig) (st : PciemMsiState) (mem : Memory)
    (storage offset size : ℕ) (value : BitVec 32) : Option (PciemMsiState × Memory) :=
  if offset = pciMsiFlags ∧ size = 2 then
    let control := (value &&& 0xffff).setWidth 16
    some ({ st with control }, putUnalignedLe16 control mem (storage + offset))
  else if offset = pciMsiAddressLo ∧ size = 4 then
    some ({ st with addressLo := value }, putUnalignedLe32 value mem (storage + offset))
  else if config.has64bit then
    if offset = pciMsiAddressHi ∧ size = 4 then
      some ({ st with addressHi := value }, putUnalignedLe32 value mem (storage + offset))
    else if offset = pciMsiData64 ∧ size = 2 then
      let data := (value &&& 0xFFFF).setWidth 16
      some ({ st with data }, putUnalignedLe16 data mem (storage + offset))
    else if offset = pciMsiMask64 ∧ size = 4 then
      some ({ st with maskBits := value }, putUnalignedLe32 value mem (storage + offset))
    else
      none
  else if offset = pciMsiData32 ∧ size = 2 then
    let data := (value &&& 0xFFFF).setWidth 16
    some ({ st with data }, putUnalignedLe16 data mem (storage + offset))
  else if offset = pciMsiMask32 ∧ size = 4 then
    some ({ st with maskBits := value }, putUnalignedLe32 value mem (storage + offset))
  else
    none

/-- `handle_msix_write`, `handle_pm_write` and `handle_pasid_write`: a write of two bytes at
the control word leaves `control` there, in the typed state and in the bytes. -/
def handleControlWrite (ctrl : ℕ) (control : BitVec 16) (mem : Memory)
    (storage offset size : ℕ) : Option (BitVec 16 × Memory) :=
  if offset = ctrl ∧ size = 2 then
    some (control, putUnalignedLe16 control mem (storage + offset))
  else
    none

def handleMsixWrite (st : PciemMsixState) (mem : Memory) (storage offset size : ℕ)
    (value : BitVec 32) : Option (PciemMsixState × Memory) :=
  (handleControlWrite pciMsixFlags
    ((st.control &&& 0x07FF) ||| (value &&& 0xC000).setWidth 16) mem storage offset size).map
    fun (control, mem) ↦ ({ st with control }, mem)

def handlePmWrite (st : PciemPmState) (mem : Memory) (storage offset size : ℕ)
    (value : BitVec 32) : Option (PciemPmState × Memory) :=
  (handleControlWrite pciPmCtrl
    ((value &&& (pciPmCtrlStateMask ||| pciPmCtrlPmeEnable ||| pciPmCtrlPmeStatus)).setWidth 16)
    mem storage offset size).map fun (control, mem) ↦ ({ st with control }, mem)

def handlePasidWrite (st : PciemPasidState) (mem : Memory) (storage offset size : ℕ)
    (value : BitVec 32) : Option (PciemPasidState × Memory) :=
  (handleControlWrite pciPasidCtrl
    ((value &&& (pciPasidCtrlEnable ||| pciPasidCtrlExec ||| pciPasidCtrlPriv)).setWidth 16)
    mem storage offset size).map fun (control, mem) ↦ ({ st with control }, mem)

/-- The switch of `pciem_handle_cap_write`; `none` where it returns false. -/
def handleWrite (cap : PciemCap) (mem : Memory) (storage offset size : ℕ) (value : BitVec 32) :
    Option (PciemCap × Memory) :=
  match cap with
  | .msi config state => (handleMsiWrite config state mem storage offset size value).map
      fun (state, mem) ↦ (.msi config state, mem)
  | .msix config state => (handleMsixWrite state mem storage offset size value).map
      fun (state, mem) ↦ (.msix config state, mem)
  | .pm config state => (handlePmWrite state mem storage offset size value).map
      fun (state, mem) ↦ (.pm config state, mem)
  | .pasid config state => (handlePasidWrite state mem storage offset size value).map
      fun (state, mem) ↦ (.pasid config state, mem)
  | .pcie _ | .vsec _ => some (cap, mem)

/-- The registers that have a typed copy. -/
inductive CapRegister
  | msiControl
  | msiAddressLo
  | msiAddressHi
  | msiData
  | msiMask
  | msixControl
  | pmControl
  | pasidControl
  deriving DecidableEq

def CapRegister.width : CapRegister → ℕ
  | .msiAddressLo | .msiAddressHi | .msiMask => 4
  | .msiControl | .msiData | .msixControl | .pmControl | .pasidControl => 2

/-- Which sizes of a read return the typed copy of a register. -/
def CapRegister.Reads (size : ℕ) : CapRegister → Prop
  | .msiAddressLo | .msiAddressHi | .msiData => True
  | .msiControl | .msixControl | .pmControl | .pasidControl => size = 2
  | .msiMask => False

instance (size : ℕ) : (reg : CapRegister) → Decidable (reg.Reads size)
  | .msiAddressLo | .msiAddressHi | .msiData => inferInstanceAs (Decidable True)
  | .msiControl | .msixControl | .pmControl | .pasidControl =>
    inferInstanceAs (Decidable (size = 2))
  | .msiMask => inferInstanceAs (Decidable False)

def registers : PciemCap → List (ℕ × CapRegister)
  | .msi config _ => (2, .msiControl) :: (4, .msiAddressLo) ::
      if config.has64bit then [(8, .msiAddressHi), (12, .msiData), (16, .msiMask)]
      else [(8, .msiData), (12, .msiMask)]
  | .msix _ _ => [(2, .msixControl)]
  | .pm _ _ => [(4, .pmControl)]
  | .pasid _ _ => [(6, .pasidControl)]
  | .pcie _ | .vsec _ => []

def typed : PciemCap → CapRegister → BitVec 32
  | .msi _ state, .msiControl => state.control.setWidth 32
  | .msi _ state, .msiAddressLo => state.addressLo
  | .msi _ state, .msiAddressHi => state.addressHi
  | .msi _ state, .msiData => state.data.setWidth 32
  | .msi _ state, .msiMask => state.maskBits
  | .msix _ state, .msixControl => state.control.setWidth 32
  | .pm _ state, .pmControl => state.control.setWidth 32
  | .pasid _ state, .pasidControl => state.control.setWidth 32
  | _, _ => 0

/-- What a write of a register leaves in it: the bits of the value that can be written. -/
def latch (cap : PciemCap) (value : BitVec 32) : CapRegister → BitVec 32
  | .msiControl | .msiData => value &&& 0xFFFF
  | .msiAddressLo | .msiAddressHi | .msiMask => value
  | .msixControl => (typed cap .msixControl &&& 0x07FF) ||| (value &&& 0xC000)
  | .pmControl => value &&& 0x8103
  | .pasidControl => value &&& 0x7

def setTyped (value : BitVec 32) : PciemCap → CapRegister → PciemCap
  | .msi config state, .msiControl =>
    .msi config { state with control := value.setWidth 16 }
  | .msi config state, .msiAddressLo => .msi config { state with addressLo := value }
  | .msi config state, .msiAddressHi => .msi config { state with addressHi := value }
  | .msi config state, .msiData => .msi config { state with data := value.setWidth 16 }
  | .msi config state, .msiMask => .msi config { state with maskBits := value }
  | .msix config state, .msixControl =>
    .msix config { state with control := value.setWidth 16 }
  | .pm config state, .pmControl => .pm config { state with control := value.setWidth 16 }
  | .pasid config state, .pasidControl =>
    .pasid config { state with control := value.setWidth 16 }
  | cap, _ => cap

/-- Capabilities that are read-only: a write to one is dropped. -/
def Drops : PciemCap → Prop
  | .pcie _ | .vsec _ => True
  | .msi _ _ | .msix _ _ | .pm _ _ | .pasid _ _ => False

instance : (cap : PciemCap) → Decidable (Drops cap)
  | .pcie _ | .vsec _ => inferInstanceAs (Decidable True)
  | .msi _ _ | .msix _ _ | .pm _ _ | .pasid _ _ => inferInstanceAs (Decidable False)

def readRegister (cap : PciemCap) (offset size : ℕ) : Option CapRegister :=
  ((registers cap).find? fun r ↦ offset = r.1 ∧ r.2.Reads size).map Prod.snd

def writeRegister (cap : PciemCap) (offset size : ℕ) : Option CapRegister :=
  ((registers cap).find? fun r ↦ offset = r.1 ∧ size = r.2.width).map Prod.snd

section Lookup

variable {o : ℕ} {reg : CapRegister} {l : List (ℕ × CapRegister)} {p : ℕ × CapRegister → Prop}
  [DecidablePred p]

theorem find_cons : (((o, reg) :: l).find? p).map Prod.snd =
    if p (o, reg) then some reg else (l.find? p).map Prod.snd := by
  rw [List.find?_cons]
  by_cases h : p (o, reg) <;> simp [h]

theorem find_nil : (([] : List (ℕ × CapRegister)).find? p).map Prod.snd = none := rfl

end Lookup

theorem handleControlRead_eq {cap : PciemCap} {ctrl : ℕ} {reg : CapRegister}
    {control : BitVec 16} (hregs : registers cap = [(ctrl, reg)])
    (hreads : ∀ size, reg.Reads size ↔ size = 2) (htyped : typed cap reg = control.setWidth 32)
    (offset size : ℕ) : handleControlRead ctrl control offset size =
      (readRegister cap offset size).map (typed cap) := by
  simp only [handleControlRead, readRegister, hregs, find_cons, find_nil, hreads]
  split_ifs
  · exact congrArg some htyped.symm
  · rfl

theorem handleRead_eq (cap : PciemCap) (offset size : ℕ) :
    handleRead cap offset size = (readRegister cap offset size).map (typed cap) := by
  cases cap with
  | msi config state =>
    obtain ⟨has64bit, -, -⟩ := config
    by_cases h : (offset = 2 ∧ size = 2) ∨ offset = 4 ∨ offset = 8 ∨ offset = 12
    · rcases h with ⟨rfl, rfl⟩ | rfl | rfl | rfl <;> cases has64bit <;> rfl
    · rw [not_or, not_or, not_or] at h
      cases has64bit <;>
        simp [handleRead, handleMsiRead, readRegister, registers, h, pciMsiFlags,
          pciMsiAddressLo, pciMsiAddressHi, pciMsiData64, pciMsiData32, CapRegister.Reads]
  | msix => exact handleControlRead_eq rfl (fun _ ↦ Iff.rfl) rfl offset size
  | pm => exact handleControlRead_eq rfl (fun _ ↦ Iff.rfl) rfl offset size
  | pasid => exact handleControlRead_eq rfl (fun _ ↦ Iff.rfl) rfl offset size
  | pcie | vsec => rfl

theorem setWidth_low (value : BitVec 32) :
    (value.setWidth 16).setWidth 32 = value &&& 0xFFFF := by
  have hmask : 0xFFFF#32 = (BitVec.allOnes 16).setWidth 32 := by decide
  apply BitVec.eq_of_getLsbD_eq
  intro i hi
  simp only [BitVec.ofNat_eq_ofNat, hmask, BitVec.getLsbD_and, BitVec.getLsbD_setWidth,
    BitVec.getLsbD_allOnes]
  cases value.getLsbD i <;> simp

theorem latch_low (cap : PciemCap) (value : BitVec 32) {reg : CapRegister} (h : reg.width = 2) :
    ((latch cap value reg).setWidth 16).setWidth 32 = latch cap value reg := by
  have hmask (a m : BitVec 32) (hm : m &&& 0xFFFF = m) : a &&& m &&& 0xFFFF = a &&& m := by
    rw [BitVec.and_assoc, hm]
  rw [setWidth_low]
  cases reg with
  | msiAddressLo | msiAddressHi | msiMask => cases h
  | msiControl | msiData | pmControl | pasidControl => exact hmask _ _ (by decide)
  | msixControl =>
    rw [latch, BitVec.and_or_distrib_right, hmask _ _ (by decide), hmask _ _ (by decide)]

theorem bytes_setWidth (value : BitVec 16) : bytes (value.setWidth 32) 2 = bytes value 2 :=
  List.map_congr_left fun k hk ↦
    byte_setWidth value (by have := List.mem_range.mp hk; omega) (by decide)

theorem putUnalignedLe16_eq (cap : PciemCap) (value : BitVec 32) {reg : CapRegister}
    (h : reg.width = 2) (mem : Memory) (p : ℕ) :
    putUnalignedLe16 ((latch cap value reg).setWidth 16) mem p =
      store mem p (bytes (latch cap value reg) 2) := by
  rw [putUnalignedLe16, ← bytes_setWidth, latch_low cap value h]

theorem latch_msixControl (config : PciemCapMsixConfig) (state : PciemMsixState)
    (value : BitVec 32) : (latch (.msix config state) value .msixControl).setWidth 16 =
      (state.control &&& 0x07FF) ||| (value &&& 0xC000).setWidth 16 := by
  simp [latch, typed, BitVec.setWidth_or, BitVec.setWidth_and]

theorem handleWrite_eq (cap : PciemCap) (mem : Memory) (storage offset size : ℕ)
    (value : BitVec 32) : handleWrite cap mem storage offset size value =
      match writeRegister cap offset size with
      | some reg => some (setTyped (latch cap value reg) cap reg,
          store mem (storage + offset) (bytes (latch cap value reg) reg.width))
      | none => if Drops cap then some (cap, mem) else none := by
  have hput (reg : CapRegister) (h : reg.width = 2) (p : ℕ) :=
    congrArg (Option.some ∘ Prod.mk (setTyped (latch cap value reg) cap reg))
      (putUnalignedLe16_eq cap value h mem p)
  cases cap with
  | msi config state =>
    obtain ⟨has64bit, hasPerVectorMasking, numVectorsLog2⟩ := config
    by_cases h : (offset = 2 ∧ size = 2) ∨ (offset = 4 ∧ size = 4) ∨ (offset = 8 ∧ size = 4) ∨
      (offset = 8 ∧ size = 2) ∨ (offset = 12 ∧ size = 2) ∨ (offset = 12 ∧ size = 4) ∨
        (offset = 16 ∧ size = 4)
    · rcases h with ⟨rfl, rfl⟩ | ⟨rfl, rfl⟩ | ⟨rfl, rfl⟩ | ⟨rfl, rfl⟩ | ⟨rfl, rfl⟩ | ⟨rfl, rfl⟩ |
        ⟨rfl, rfl⟩ <;> cases has64bit <;>
        first | rfl | exact hput .msiControl rfl _ | exact hput .msiData rfl _
    · simp only [not_or] at h
      cases has64bit <;>
        simp [handleWrite, handleMsiWrite, writeRegister, registers, h, pciMsiFlags,
          pciMsiAddressLo, pciMsiAddressHi, pciMsiData64, pciMsiData32, pciMsiMask64, pciMsiMask32,
          CapRegister.width, Drops]
  | msix config state =>
    by_cases h : offset = 2 ∧ size = 2
    · obtain ⟨rfl, rfl⟩ := h
      change some (PciemCap.msix config
        ⟨(state.control &&& 0x07FF) ||| (value &&& 0xC000).setWidth 16⟩, putUnalignedLe16
          ((state.control &&& 0x07FF) ||| (value &&& 0xC000).setWidth 16) mem (storage + 2)) = _
      rw [← latch_msixControl config]
      exact hput .msixControl rfl (storage + 2)
    · simp [handleWrite, handleMsixWrite, handleControlWrite, writeRegister, registers, h,
        pciMsixFlags, CapRegister.width, Drops]
  | pm config state =>
    by_cases h : offset = 4 ∧ size = 2
    · obtain ⟨rfl, rfl⟩ := h
      exact hput .pmControl rfl (storage + 4)
    · simp [handleWrite, handlePmWrite, handleControlWrite, writeRegister, registers, h,
        pciPmCtrl, CapRegister.width, Drops]
  | pasid config state =>
    by_cases h : offset = 6 ∧ size = 2
    · obtain ⟨rfl, rfl⟩ := h
      exact hput .pasidControl rfl (storage + 6)
    · simp [handleWrite, handlePasidWrite, handleControlWrite, writeRegister, registers, h,
        pciPasidCtrl, CapRegister.width, Drops]
  | pcie | vsec => rfl

section Fields

variable {cap : PciemCap} {value : BitVec 32} {reg reg' : CapRegister} {o o' size : ℕ}

@[simp]
theorem registers_setTyped : registers (setTyped value cap reg) = registers cap := by
  cases cap <;> cases reg <;> rfl

theorem typed_setTyped_of_ne (h : reg' ≠ reg) :
    typed (setTyped value cap reg) reg' = typed cap reg' := by
  cases cap <;> cases reg <;> cases reg' <;> first | rfl | exact absurd rfl h

theorem typed_setTyped (h : (o, reg) ∈ registers cap) (value : BitVec 32) :
    typed (setTyped (latch cap value reg) cap reg) reg = latch cap value reg := by
  have hlow {cap : PciemCap} (hw : reg.width = 2) := latch_low cap value hw
  cases cap with
  | msi config state =>
    cases reg with
    | msiAddressLo | msiAddressHi | msiMask => rfl
    | msiControl | msiData => exact hlow rfl
    | msixControl | pmControl | pasidControl =>
      obtain ⟨has64bit, hasPerVectorMasking, numVectorsLog2⟩ := config
      cases has64bit <;> simp [registers] at h
  | msix config state =>
    cases List.mem_singleton.mp h
    exact hlow rfl
  | pm config state =>
    cases List.mem_singleton.mp h
    exact hlow rfl
  | pasid config state =>
    cases List.mem_singleton.mp h
    exact hlow rfl
  | pcie | vsec => cases h

theorem pairwise_registers (cap : PciemCap) :
    (registers cap).Pairwise fun r r' ↦ r.1 ≠ r'.1 ∧ r.2 ≠ r'.2 := by
  cases cap with
  | msi config state =>
    obtain ⟨has64bit, -, -⟩ := config
    cases has64bit <;> simp [registers]
  | msix | pm | pasid | pcie | vsec => simp [registers]

/-- An offset holds one register, and a register has one offset. -/
theorem registers_inj {r r' : ℕ × CapRegister} (h : r ∈ registers cap) (h' : r' ∈ registers cap)
    (he : r.1 = r'.1 ∨ r.2 = r'.2) : r = r' := by
  by_contra hne
  have hsymm : Std.Symm fun r r' : ℕ × CapRegister ↦ r.1 ≠ r'.1 ∧ r.2 ≠ r'.2 :=
    ⟨fun _ _ h ↦ ⟨h.1.symm, h.2.symm⟩⟩
  have hpair := (pairwise_registers cap).forall h h' hne
  exact he.elim hpair.1 hpair.2

theorem find_register {p : ℕ × CapRegister → Prop} [DecidablePred p]
    (hp : ∀ r, p r → r.1 = o) :
    ((registers cap).find? fun r ↦ p r).map Prod.snd = some reg ↔
      (o, reg) ∈ registers cap ∧ p (o, reg) := by
  constructor
  · intro h
    obtain ⟨r, hr, rfl⟩ := Option.map_eq_some_iff.mp h
    have hpr : p r := by simpa using List.find?_some hr
    rw [← hp r hpr]
    exact ⟨List.mem_of_find?_eq_some hr, hpr⟩
  · rintro ⟨hmem, hpo⟩
    cases hf : (registers cap).find? fun r ↦ p r with
    | none =>
      have := List.find?_eq_none.mp hf _ hmem
      simp [hpo] at this
    | some r =>
      have hpr : p r := by simpa using List.find?_some hf
      rw [registers_inj (List.mem_of_find?_eq_some hf) hmem (.inl (hp r hpr))]
      rfl

theorem readRegister_eq_some : readRegister cap o size = some reg ↔
    (o, reg) ∈ registers cap ∧ reg.Reads size := by
  rw [readRegister, find_register (o := o) fun r h ↦ h.1.symm]
  simp

theorem writeRegister_eq_some : writeRegister cap o size = some reg ↔
    (o, reg) ∈ registers cap ∧ size = reg.width := by
  rw [writeRegister, find_register (o := o) fun r h ↦ h.1.symm]
  simp

theorem writeRegister_of_drops (h : Drops cap) : writeRegister cap o size = none := by
  cases cap with
  | pcie | vsec => rfl
  | msi | msix | pm | pasid => cases h

/-- A register at an offset in the capability's range lies in it whole, after the header. -/
theorem register_inside (h : (o, reg) ∈ registers cap) (ho : o < cap.size.toNat) :
    o + reg.width ≤ cap.size.toNat ∧ 2 ≤ o ∧ (cap.isExtended = true → 4 ≤ o) := by
  cases cap with
  | msi config state =>
    obtain ⟨has64bit, hasPerVectorMasking, numVectorsLog2⟩ := config
    cases has64bit with
    | true =>
      cases hasPerVectorMasking <;>
        simp [registers, PciemCap.size, msiCapSize, PciemCap.isExtended] at h ho ⊢ <;>
        rcases h with ⟨rfl, rfl⟩ | ⟨rfl, rfl⟩ | ⟨rfl, rfl⟩ | ⟨rfl, rfl⟩ | ⟨rfl, rfl⟩ <;>
        simp [CapRegister.width] at ho ⊢
    | false =>
      cases hasPerVectorMasking <;>
        simp [registers, PciemCap.size, msiCapSize, PciemCap.isExtended] at h ho ⊢ <;>
        rcases h with ⟨rfl, rfl⟩ | ⟨rfl, rfl⟩ | ⟨rfl, rfl⟩ | ⟨rfl, rfl⟩ <;>
        simp [CapRegister.width] at ho ⊢
  | msix | pm | pasid =>
    cases List.mem_singleton.mp h
    simp [PciemCap.size, CapRegister.width, PciemCap.isExtended]
  | pcie | vsec => cases h

theorem register_lt_size (h : (o, reg) ∈ registers cap) (hmask : reg ≠ .msiMask) :
    o < cap.size.toNat := by
  cases cap with
  | msi config state =>
    obtain ⟨has64bit, hasPerVectorMasking, numVectorsLog2⟩ := config
    cases has64bit <;> cases hasPerVectorMasking <;>
      simp [registers, PciemCap.size, msiCapSize] at h ⊢ <;> grind
  | msix | pm | pasid =>
    cases List.mem_singleton.mp h
    simp [PciemCap.size]
  | pcie | vsec => cases h

end Fields

end Pciem.Config.Registers
