import Pciem.Config.Layout
import Pciem.Config.Registers

namespace Pciem.Config.Access

open Kernel Library.ByteMemory Capabilities Layout Registers

/-- The test that the loops of `pciem_handle_cap_read` and `pciem_handle_cap_write` make. -/
def Covers (pos : ℤ) (entry : PciemCapEntry) : Prop :=
  ¬ (pos < entry.base ∨ pos ≥ entry.base + entry.size.toNat)

instance (pos : ℤ) : DecidablePred (Covers pos) :=
  fun _ ↦ inferInstanceAs (Decidable (¬ (_ ∨ _)))

def covering (mgr : PciemCapManager) (pos : ℤ) : Option (Fin mgr.caps.length) :=
  mgr.caps.findFinIdx? fun entry ↦ Covers pos entry

/-- `pos` stands for `where` here and below. -/
def pciemHandleCapRead (v : PciemRootComplex) (pos : ℤ) (size : ℕ) : Option (BitVec 32) :=
  match v.capMgr with
  | none => none
  | some mgr =>
    match covering mgr pos with
    | none => none
    | some i => handleRead (mgr.caps.get i).cap (pos - (mgr.caps.get i).base).toNat size

def setCap (mgr : PciemCapManager) (i : Fin mgr.caps.length) (cap : PciemCap) :
    PciemCapManager where
  caps := mgr.caps.set i { mgr.caps.get i with cap }
  nextOffset := mgr.nextOffset
  extNextOffset := mgr.extNextOffset
  length_le := by
    rw [List.length_set]
    exact mgr.length_le

/-- The place of `cap_storage`. -/
def capStorage (entry : PciemCapEntry) : ℕ :=
  if entry.isExtended then extCfg (entry.base - pciCfgSpaceSize) else cfg entry.base

/-- `none` where the function returns false. -/
def pciemHandleCapWrite (v : PciemRootComplex) (pos : ℤ) (size : ℕ) (value : BitVec 32) :
    Option PciemRootComplex :=
  match v.capMgr with
  | none => none
  | some mgr =>
    match covering mgr pos with
    | none => none
    | some i =>
      (handleWrite (mgr.caps.get i).cap v.space (capStorage (mgr.caps.get i))
        (pos - (mgr.caps.get i).base).toNat size value).map
        fun (cap, space) ↦ { v with capMgr := some (setCap mgr i cap), space }

/-- The BAR before an odd one. -/
def prevBar (v : PciemRootComplex) (idx : ℕ) : Option PciemBarInfo :=
  if idx > 0 ∧ idx % 2 = 1 then some (v.bars (idx - 1)) else none

def pciemReadBarAddress (v : PciemRootComplex) (idx : ℕ) : BitVec 32 :=
  let bar := v.bars idx
  if bar.size ≠ 0 then
    let probeVal := (~~~(bar.size - 1)).setWidth 32
    if bar.baseAddrVal = probeVal then
      probeVal ||| (bar.flags &&& ~~~pciBaseAddressMemMask)
    else
      bar.baseAddrVal ||| (bar.flags &&& ~~~pciBaseAddressMemMask)
  else
    match prevBar v idx with
    | none => 0
    | some prev =>
      if prev.flags &&& pciBaseAddressMemType64 ≠ 0 then
        let probeValHigh : BitVec 32 :=
          if prev.size ≥ 1#64 <<< 32 then ((~~~(prev.size - 1)) >>> 32).setWidth 32
          else 0xffffffff
        if bar.baseAddrVal = probeValHigh then probeValHigh else bar.baseAddrVal
      else
        0

def setBar (v : PciemRootComplex) (idx : ℕ) (baseAddrVal : BitVec 32) : PciemRootComplex :=
  { v with bars := Function.update v.bars idx { v.bars idx with baseAddrVal } }

def pciemWriteBarAddress (v : PciemRootComplex) (idx : ℕ) (value : BitVec 32) :
    Pcibios × PciemRootComplex :=
  let bar := v.bars idx
  if bar.size ≠ 0 then
    let mask := (~~~(bar.size - 1)).setWidth 32
    let mask :=
      if bar.flags &&& pciBaseAddressSpaceIo ≠ 0 then mask &&& pciBaseAddressIoMask
      else mask &&& pciBaseAddressMemMask
    (.successful, setBar v idx (value &&& mask))
  else
    match prevBar v idx with
    | none => (.funcNotSupported, v)
    | some prev =>
      if prev.flags &&& pciBaseAddressMemType64 ≠ 0 then
        let maskHigh : BitVec 32 :=
          if prev.size < 1#64 <<< 32 then 0 else ((~~~(prev.size - 1)) >>> 32).setWidth 32
        (.successful, setBar v idx (value &&& maskHigh))
      else
        (.funcNotSupported, v)

def IsBar (pos : ℤ) (size : ℕ) : Prop :=
  pos ≥ pciBaseAddress0 ∧ pos < pciBaseAddress0 + 4 * pciStdNumBars ∧ pos % 4 = 0 ∧ size = 4

instance (pos : ℤ) (size : ℕ) : Decidable (IsBar pos size) :=
  inferInstanceAs (Decidable (_ ∧ _ ∧ _ ∧ _))

def barIndex (pos : ℤ) : ℕ := ((pos - pciBaseAddress0) / 4).toNat

/-- The switches over the size that read the byte arrays. -/
def readBytes (mem : Memory) (p size : ℕ) : BitVec 32 :=
  match size with
  | 1 => load mem p 1
  | 2 => load mem p 2
  | 4 => load mem p 4
  | _ => ~~~0

def writeBytes (v : PciemRootComplex) (p size : ℕ) (value : BitVec 32) :
    Pcibios × PciemRootComplex :=
  match size with
  | 1 => (.successful, { v with space := store v.space p (bytes value 1) })
  | 2 => (.successful, { v with space := store v.space p (bytes value 2) })
  | 4 => (.successful, { v with space := store v.space p (bytes value 4) })
  | _ => (.funcNotSupported, v)

/-- `pciem_conf_read_impl` after its test for a null function. -/
def confRead (v : PciemRootComplex) (pos : ℤ) (size : ℕ) : Pcibios × BitVec 32 :=
  if v.detaching then
    (.deviceNotFound, ~~~0)
  else if pos ≥ pciCfgSpaceSize then
    let extWhere := (pos - pciCfgSpaceSize).toNat
    if pos + size > pciCfgSpaceExpSize then
      (.deviceNotFound, ~~~0)
    else
      match pciemHandleCapRead v pos size with
      | some val => (.successful, val)
      | none => (.successful, readBytes v.space (extCfg extWhere) size)
  else if pos < 0 ∨ pos + size > pciCfgSpaceSize then
    (.deviceNotFound, ~~~0)
  else
    match pciemHandleCapRead v pos size with
    | some val => (.successful, val)
    | none =>
      if IsBar pos size then
        (.successful, pciemReadBarAddress v (barIndex pos))
      else if pos = pciRomAddress ∧ size = 4 then
        (.successful, 0)
      else
        (.successful, readBytes v.space (cfg pos.toNat) size)

def pciemConfReadImpl (v : Option PciemRootComplex) (pos : ℤ) (size : ℕ) :
    Pcibios × BitVec 32 :=
  match v with
  | none => (.deviceNotFound, ~~~0)
  | some v => confRead v pos size

def confWrite (v : PciemRootComplex) (pos : ℤ) (size : ℕ) (value : BitVec 32) :
    Pcibios × PciemRootComplex :=
  if v.detaching then
    (.successful, v)
  else if pos ≥ pciCfgSpaceSize then
    let extWhere := (pos - pciCfgSpaceSize).toNat
    if pos + size > pciCfgSpaceExpSize then
      (.deviceNotFound, v)
    else
      match pciemHandleCapWrite v pos size value with
      | some v' => (.successful, v')
      | none => writeBytes v (extCfg extWhere) size value
  else if pos < 0 ∨ pos + size > pciCfgSpaceSize then
    (.deviceNotFound, v)
  else
    match pciemHandleCapWrite v pos size value with
    | some v' => (.successful, v')
    | none =>
      if IsBar pos size then
        pciemWriteBarAddress v (barIndex pos) value
      else if pos = pciRomAddress then
        (.successful, v)
      else
        writeBytes v (cfg pos.toNat) size value

def pciemConfWriteImpl (v : Option PciemRootComplex) (pos : ℤ) (size : ℕ) (value : BitVec 32) :
    Pcibios × Option PciemRootComplex :=
  match v with
  | none => (.deviceNotFound, none)
  | some v => ((confWrite v pos size value).1, some (confWrite v pos size value).2)

structure ConfWrite where
  pos : ℕ
  size : ℕ
  value : BitVec 32

def applyWrite (v : PciemRootComplex) (w : ConfWrite) : PciemRootComplex :=
  ((pciemConfWriteImpl (some v) w.pos w.size w.value).2).getD v

/-- The accesses that the bounds tests let through. -/
def InSpace (p size : ℕ) : Prop :=
  (p < pciCfgSpaceSize ∧ p + size ≤ pciCfgSpaceSize) ∨
    (pciCfgSpaceSize ≤ p ∧ p + size ≤ pciCfgSpaceExpSize)

section Routes

variable {v : PciemRootComplex} {p size : ℕ} {value : BitVec 32}

theorem not_isBar (h : pciRomAddress < p) : ¬ IsBar p size := by
  rintro ⟨-, hlt, -, -⟩
  simp only [pciBaseAddress0, pciStdNumBars, pciRomAddress] at hlt h
  omega

theorem ne_rom (h : pciRomAddress < p) : (p : ℤ) ≠ pciRomAddress := by
  omega

theorem rom_lt_of_le (h : pciCfgSpaceSize ≤ p) : pciRomAddress < p :=
  Nat.lt_of_lt_of_le (by decide) h

theorem extCfg_toNat (h : pciCfgSpaceSize ≤ p) :
    extCfg ((p : ℤ) - pciCfgSpaceSize).toNat = p := by
  rw [extCfg]
  omega

theorem confRead_eq (hd : v.detaching = false) (hin : InSpace p size) : confRead v p size =
    (.successful, match pciemHandleCapRead v p size with
      | some val => val
      | none =>
        if IsBar p size then pciemReadBarAddress v (barIndex p)
        else if (p : ℤ) = pciRomAddress ∧ size = 4 then 0
        else readBytes v.space p size) := by
  rw [confRead, hd, if_neg (by simp)]
  rcases hin with ⟨hlt, hend⟩ | ⟨hlo, hhi⟩
  · rw [if_neg (by omega), if_neg (by omega)]
    cases pciemHandleCapRead v p size with
    | some val => rfl
    | none =>
      dsimp only [cfg]
      rw [Int.toNat_natCast]
      split_ifs <;> rfl
  · rw [if_pos (by omega), if_neg (by omega)]
    cases pciemHandleCapRead v p size with
    | some val => rfl
    | none =>
      dsimp only
      have hrom := rom_lt_of_le hlo
      rw [extCfg_toNat hlo, if_neg (not_isBar hrom), if_neg fun h ↦ ne_rom hrom h.1]

theorem confWrite_eq (hd : v.detaching = false) (hin : InSpace p size) :
    (confWrite v p size value).2 =
      match pciemHandleCapWrite v p size value with
      | some v' => v'
      | none =>
        if IsBar p size then (pciemWriteBarAddress v (barIndex p) value).2
        else if (p : ℤ) = pciRomAddress then v
        else (writeBytes v p size value).2 := by
  rw [confWrite, hd, if_neg (by simp)]
  rcases hin with ⟨hlt, hend⟩ | ⟨hlo, hhi⟩
  · rw [if_neg (by omega), if_neg (by omega)]
    cases pciemHandleCapWrite v p size value with
    | some v' => rfl
    | none =>
      dsimp only [cfg]
      rw [Int.toNat_natCast]
      split_ifs <;> rfl
  · rw [if_pos (by omega), if_neg (by omega)]
    cases pciemHandleCapWrite v p size value with
    | some v' => rfl
    | none =>
      dsimp only
      have hrom := rom_lt_of_le hlo
      rw [extCfg_toNat hlo, if_neg (not_isBar hrom), if_neg (ne_rom hrom)]

theorem confRead_of_not (h : ¬ (v.detaching = false ∧ InSpace p size)) :
    confRead v p size = (.deviceNotFound, ~~~0) := by
  rw [confRead]
  cases hd : v.detaching with
  | true => rfl
  | false =>
    have hout : ¬ InSpace p size := fun hin ↦ h ⟨hd, hin⟩
    rw [InSpace] at hout
    rw [if_neg (by simp)]
    by_cases hp : (p : ℤ) ≥ pciCfgSpaceSize
    · rw [if_pos hp, if_pos (by omega)]
    · rw [if_neg hp, if_pos (by omega)]

theorem readBytes_eq_load (mem : Memory) (h : size = 1 ∨ size = 2 ∨ size = 4) :
    readBytes mem p size = load mem p size := by
  rcases h with rfl | rfl | rfl <;> rfl

theorem confWrite_of_not (h : ¬ (v.detaching = false ∧ InSpace p size)) :
    (confWrite v p size value).2 = v := by
  rw [confWrite]
  cases hd : v.detaching with
  | true => rfl
  | false =>
    have hout : ¬ InSpace p size := fun hin ↦ h ⟨hd, hin⟩
    rw [InSpace] at hout
    rw [if_neg (by simp)]
    by_cases hp : (p : ℤ) ≥ pciCfgSpaceSize
    · rw [if_pos hp, if_pos (by omega)]
    · rw [if_neg hp, if_pos (by omega)]

end Routes

section Covering

variable {mgr : PciemCapManager} {p : ℕ} {i : Fin mgr.caps.length}

theorem covers_iff {entry : PciemCapEntry} :
    Covers (p : ℤ) entry ↔ entry.base ≤ p ∧ p < fin entry := by
  rw [Covers, fin]
  omega

theorem covering_spec (h : covering mgr p = some i) :
    (mgr.caps.get i).base ≤ p ∧ p < fin (mgr.caps.get i) := by
  have hc := (List.findFinIdx?_eq_some_iff.mp h).1
  exact covers_iff.mp (by simpa using hc)

theorem covering_eq_none_iff : covering mgr p = none ↔
    ∀ entry ∈ mgr.caps, p < entry.base ∨ fin entry ≤ p := by
  rw [covering, List.findFinIdx?_eq_none_iff]
  refine forall₂_congr fun entry he ↦ ?_
  rw [decide_eq_true_eq, covers_iff]
  omega

theorem covering_eq (hdisj : mgr.caps.Pairwise Apart) (hlo : (mgr.caps.get i).base ≤ p)
    (hhi : p < fin (mgr.caps.get i)) : covering mgr p = some i := by
  refine List.findFinIdx?_eq_some_iff.mpr ⟨by simpa using covers_iff.mpr ⟨hlo, hhi⟩, ?_⟩
  intro j hji
  have hapart : Apart (mgr.caps.get j) (mgr.caps.get i) :=
    List.pairwise_iff_getElem.mp hdisj j i (Nat.lt_trans hji i.2) i.2 hji
  rw [decide_eq_true_eq, covers_iff]
  rw [Apart] at hapart
  simp only [List.get_eq_getElem, Fin.getElem_fin] at hlo hhi hapart ⊢
  omega

end Covering

theorem setCap_self (mgr : PciemCapManager) (i : Fin mgr.caps.length) :
    setCap mgr i (mgr.caps.get i).cap = mgr :=
  PciemCapManager.ext (List.set_getElem_self i.2) rfl rfl

def Based (mgr : PciemCapManager) : Prop :=
  ∀ entry ∈ mgr.caps, entry.isExtended = true → pciCfgSpaceSize ≤ entry.base

theorem capStorage_eq {mgr : PciemCapManager} (hb : Based mgr) {e : PciemCapEntry}
    (he : e ∈ mgr.caps) : capStorage e = e.base := by
  rw [capStorage]
  cases hk : e.isExtended with
  | true =>
    have := hb e he hk
    rw [if_pos rfl, extCfg]
    omega
  | false => rfl

/-- The function after a write of the register `reg` of capability `i`. -/
def writeTyped (v : PciemRootComplex) (mgr : PciemCapManager) (i : Fin mgr.caps.length)
    (reg : CapRegister) (p : ℕ) (value : BitVec 32) : PciemRootComplex :=
  { v with
    capMgr := some
      (setCap mgr i (setTyped (latch (mgr.caps.get i).cap value reg) (mgr.caps.get i).cap reg))
    space := store v.space p (bytes (latch (mgr.caps.get i).cap value reg) reg.width) }

theorem capMgr_writeTyped {v : PciemRootComplex} {mgr : PciemCapManager}
    {i : Fin mgr.caps.length} {reg : CapRegister} {p : ℕ} {value : BitVec 32} :
    (writeTyped v mgr i reg p value).capMgr = some
      (setCap mgr i (setTyped (latch (mgr.caps.get i).cap value reg) (mgr.caps.get i).cap reg)) :=
  rfl

section Handlers

variable {v : PciemRootComplex} {mgr : PciemCapManager} {p size : ℕ} {value : BitVec 32}

theorem handleCapRead_eq (hm : v.capMgr = some mgr) {i : Fin mgr.caps.length}
    (hc : covering mgr p = some i) : pciemHandleCapRead v p size =
      (readRegister (mgr.caps.get i).cap (p - (mgr.caps.get i).base) size).map
        (typed (mgr.caps.get i).cap) := by
  have hoff : ((p : ℤ) - (mgr.caps.get i).base).toNat = p - (mgr.caps.get i).base := by omega
  rw [pciemHandleCapRead, hm]
  dsimp only
  rw [hc]
  dsimp only
  rw [hoff, handleRead_eq]

theorem handleCapRead_of_none (hc : ∀ mgr, v.capMgr = some mgr → covering mgr p = none) :
    pciemHandleCapRead v p size = none := by
  rw [pciemHandleCapRead]
  cases hm : v.capMgr with
  | none => rfl
  | some mgr =>
    dsimp only
    rw [hc mgr hm]

theorem handleCapWrite_of_none (hc : ∀ mgr, v.capMgr = some mgr → covering mgr p = none) :
    pciemHandleCapWrite v p size value = none := by
  rw [pciemHandleCapWrite]
  cases hm : v.capMgr with
  | none => rfl
  | some mgr =>
    dsimp only
    rw [hc mgr hm]

theorem handleCapWrite_eq (hm : v.capMgr = some mgr) (hb : Based mgr)
    {i : Fin mgr.caps.length} (hc : covering mgr p = some i) :
    pciemHandleCapWrite v p size value =
      match writeRegister (mgr.caps.get i).cap (p - (mgr.caps.get i).base) size with
      | some reg => some (writeTyped v mgr i reg p value)
      | none => if Drops (mgr.caps.get i).cap then some v else none := by
  have hoff : ((p : ℤ) - (mgr.caps.get i).base).toNat = p - (mgr.caps.get i).base := by omega
  have hplace : capStorage (mgr.caps.get i) + (p - (mgr.caps.get i).base) = p := by
    have := (covering_spec hc).1
    rw [capStorage_eq hb (e := (mgr.caps.get i)) (List.get_mem _ i)]
    omega
  rw [pciemHandleCapWrite, hm]
  dsimp only
  rw [hc]
  dsimp only
  rw [hoff, handleWrite_eq, hplace]
  cases writeRegister (mgr.caps.get i).cap (p - (mgr.caps.get i).base) size with
  | some reg => rfl
  | none =>
    dsimp only
    split_ifs
    · rw [Option.map_some, setCap_self, ← hm]
    · rfl

end Handlers

end Pciem.Config.Access
