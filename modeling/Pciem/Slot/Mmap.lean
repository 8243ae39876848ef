import Mathlib.Data.Set.Basic
import Pciem.Bar.Agreement
import Pciem.Ring.SharedRing
import Pciem.Slot.MultiFunction
import Pciem.Slot.Stepwise

namespace Pciem.Slot.Mmap

open Kernel Bar.Table Register Ioctl Stepwise MultiFunction Ring.SharedRing
open State hiding PciemRootComplex

variable {δ : Type}

/-- What `mmap` is asked for: a range of the caller's addresses, and an offset in pages. -/
structure VmArea where
  vmStart : BitVec 64
  vmEnd : BitVec 64
  vmPgoff : BitVec 64

def VmArea.size (vma : VmArea) : BitVec 64 := vma.vmEnd - vma.vmStart

def VmArea.barIndex (vma : VmArea) : BitVec 64 := vma.vmPgoff &&& ((1 <<< 3) - 1)

def VmArea.funcIndex (vma : VmArea) : BitVec 64 := vma.vmPgoff >>> 3

/-- What `remap_pfn_range` is given. -/
structure Mapping where
  pfn : BitVec 64
  size : BitVec 64

/-- `remap` tells what comes of `remap_pfn_range`. -/
def pciemInstanceMmap (pageShift : ℕ) (remap : Mapping → Except Errno Unit)
    (us : PciemUserspaceState δ) (vma : VmArea) : Except Errno Mapping :=
  if vma.funcIndex.toNat ≥ pciemMaxFunctions ∨ vma.barIndex.toNat ≥ pciStdNumBars then
    .error .einval
  else
    match usGetRc us (vma.funcIndex.setWidth 8).toNat with
    | none => .error .enodev
    | some v =>
      match Bar.Agreement.pciemInstanceMmap pageShift v.placed vma.barIndex.toNat with
      | .error e => .error e
      | .ok pfn =>
        match remap ⟨pfn, vma.size⟩ with
        | .error _ => .error .eagain
        | .ok () => .ok ⟨pfn, vma.size⟩

/-- `ringPfn` is the frame of the first page of the ring. -/
def pciemDeviceMmap (remap : Mapping → Except Errno Unit) (ringPfn : BitVec 64) (vma : VmArea) :
    Except Errno Mapping :=
  (remap ⟨ringPfn, vma.size⟩).map fun _ ↦ ⟨ringPfn, vma.size⟩

section Pages

def fls (n : ℕ) : ℕ := if n = 0 then 0 else n.log2 + 1

/-- The order of the pages that hold `size` bytes. -/
def getOrder (pageShift size : ℕ) : ℕ :=
  if size = 0 then 64 - pageShift else fls ((size - 1) >>> pageShift)

def sizeofPciemEvent : ℕ := 8 + 4 + 4 + 8 + 4 + 4 + 8 + 8

def sizeofPciemSharedRing : ℕ := 4 + 60 + 4 + 60 + sizeofPciemEvent * pciemRingSize

variable (pageShift : ℕ)

def pageDown (addr : ℕ) : ℕ := addr / 2 ^ pageShift * 2 ^ pageShift

def pageUp (addr : ℕ) : ℕ := (addr + 2 ^ pageShift - 1) / 2 ^ pageShift * 2 ^ pageShift

/-- The addresses from `start` up to and without `stop`, and the rest of their pages. -/
def wholePages (start stop : ℕ) : Set ℕ :=
  {addr | pageDown pageShift start ≤ addr ∧ addr < pageUp pageShift stop}

/-- The physical addresses that are mapped. -/
def Mapping.maps (m : Mapping) : Set ℕ :=
  {addr | m.pfn.toNat * 2 ^ pageShift ≤ addr ∧ addr < m.pfn.toNat * 2 ^ pageShift + m.size.toNat}

/-- The pages of a BAR. -/
def barPages (v : RootComplex δ) (i : ℕ) : Set ℕ :=
  wholePages pageShift (v.placed.places i).physAddr.toNat
    ((v.placed.places i).physAddr.toNat + (v.placed.rc.bars i).size.toNat)

/-- The bytes that are allocated for the ring. -/
def ringSize : ℕ := 2 ^ pageShift * 2 ^ getOrder pageShift sizeofPciemSharedRing

def ringPages (ringPfn : BitVec 64) : Set ℕ :=
  {addr | ringPfn.toNat * 2 ^ pageShift ≤ addr ∧
    addr < ringPfn.toNat * 2 ^ pageShift + ringSize pageShift}

/-- What is mapped belongs to the BAR that the offset names. -/
def ConfinedToBar (us : PciemUserspaceState δ) (vma : VmArea) (m : Mapping) : Prop :=
  ∀ v, us.slot.funcs vma.funcIndex.toNat = some v →
    m.maps pageShift ⊆ barPages pageShift v vma.barIndex.toNat

/-- The range is no longer than the pages of the BAR. -/
def FitsBar (us : PciemUserspaceState δ) (vma : VmArea) : Prop :=
  ∀ v, us.slot.funcs vma.funcIndex.toNat = some v →
    let place := v.placed.places vma.barIndex.toNat
    let bar := v.placed.rc.bars vma.barIndex.toNat
    pageDown pageShift place.physAddr.toNat + vma.size.toNat ≤
      pageUp pageShift (place.physAddr.toNat + bar.size.toNat)

end Pages

section Confined

variable {pageShift : ℕ} {us : PciemUserspaceState δ} {vma : VmArea} {m : Mapping}
  {remap : Mapping → Except Errno Unit}

theorem le_pageUp (pageShift addr : ℕ) : addr ≤ pageUp pageShift addr := by
  have hpow := Nat.two_pow_pos pageShift
  have hdiv := Nat.lt_mul_div_succ (addr + 2 ^ pageShift - 1) hpow
  rw [Nat.mul_add, Nat.mul_comm] at hdiv
  rw [pageUp]
  omega

theorem pageDown_le (pageShift addr : ℕ) : pageDown pageShift addr ≤ addr := Nat.div_mul_le_self _ _

/-- A range lies between two addresses just when it ends before the second, if it begins at the
first. -/
theorem Mapping.subset_iff {lo hi : ℕ} (hlo : m.pfn.toNat * 2 ^ pageShift = lo) (hle : lo ≤ hi) :
    m.maps pageShift ⊆ {addr | lo ≤ addr ∧ addr < hi} ↔ lo + m.size.toNat ≤ hi := by
  rw [Mapping.maps, hlo]
  constructor
  · intro hsubset
    by_cases hsize : m.size.toNat = 0
    · omega
    · have hlast := hsubset (a := lo + m.size.toNat - 1) (by
        rw [Set.mem_ofPred_eq]
        omega)
      rw [Set.mem_ofPred_eq] at hlast
      omega
  · intro hend addr haddr
    rw [Set.mem_ofPred_eq] at haddr ⊢
    omega

theorem instanceMmap_ok (h : pciemInstanceMmap pageShift remap us vma = .ok m) :
    ∃ v, us.slot.funcs vma.funcIndex.toNat = some v ∧
      m = ⟨(v.placed.places vma.barIndex.toNat).physAddr >>> pageShift, vma.size⟩ := by
  rw [pciemInstanceMmap] at h
  split_ifs at h with hindex
  rw [not_or, Nat.not_le, Nat.not_le] at hindex
  have hfunc : (vma.funcIndex.setWidth 8).toNat = vma.funcIndex.toNat := by
    have hlt := hindex.1
    rw [pciemMaxFunctions] at hlt
    rw [BitVec.toNat_setWidth]
    omega
  rw [hfunc, usGetRc, if_neg (Nat.not_le.mpr hindex.1)] at h
  cases hv : us.slot.funcs vma.funcIndex.toNat with
  | none => simp [hv] at h
  | some v =>
    refine ⟨v, rfl, ?_⟩
    simp only [hv, Bar.Agreement.pciemInstanceMmap, if_neg (Nat.not_le.mpr hindex.2)] at h
    split_ifs at h
    dsimp only at h
    split at h
    · cases h
    · exact (Except.ok.inj h).symm

theorem deviceMmap_ok {ringPfn : BitVec 64} (h : pciemDeviceMmap remap ringPfn vma = .ok m) :
    m = ⟨ringPfn, vma.size⟩ := by
  rw [pciemDeviceMmap] at h
  cases hremap : remap ⟨ringPfn, vma.size⟩ with
  | error e => simp [hremap, Except.map] at h
  | ok _ =>
    rw [hremap] at h
    exact (Except.ok.inj h).symm

theorem confinedToBar_iff (h : pciemInstanceMmap pageShift remap us vma = .ok m) :
    ConfinedToBar pageShift us vma m ↔ FitsBar pageShift us vma := by
  obtain ⟨v, hv, rfl⟩ := instanceMmap_ok h
  simp only [ConfinedToBar, FitsBar, hv, Option.some.injEq, forall_eq']
  refine Mapping.subset_iff ?_ ?_
  · rw [BitVec.toNat_ushiftRight, Nat.shiftRight_eq_div_pow, pageDown]
  · have hdown := pageDown_le pageShift (v.placed.places vma.barIndex.toNat).physAddr.toNat
    have hup := le_pageUp pageShift
      ((v.placed.places vma.barIndex.toNat).physAddr.toNat +
        (v.placed.rc.bars vma.barIndex.toNat).size.toNat)
    omega

/-- An accepted mapping of an instance stays within its BAR just when it is no longer than the
pages of the BAR, and one of the control fd just when it is no longer than the ring. -/
theorem mmap_confined_iff (pageShift : ℕ) (remap : Mapping → Except Errno Unit)
    (us : PciemUserspaceState δ) (ringPfn : BitVec 64) (vma : VmArea) (m : Mapping) :
    (pciemInstanceMmap pageShift remap us vma = .ok m →
      (ConfinedToBar pageShift us vma m ↔ FitsBar pageShift us vma)) ∧
    (pciemDeviceMmap remap ringPfn vma = .ok m →
      (m.maps pageShift ⊆ ringPages pageShift ringPfn ↔ vma.size.toNat ≤ ringSize pageShift)) := by
  refine ⟨confinedToBar_iff, fun h ↦ ?_⟩
  rw [deviceMmap_ok h, ringPages, Mapping.subset_iff rfl (Nat.le_add_right _ _)]
  exact Nat.add_le_add_iff_left

end Confined

section OnePage

/-- A slot whose function 0 has a BAR of one page, at 0x1000. -/
def onePage : PciemUserspaceState ℕ :=
  let created := step (opened .hardware (fun _ ↦ false) ⟨12, 0x1000, 0x1000, fun _ ↦ false⟩)
    (.createDevice true ⟨0, 0⟩ (some 7) true)
  (onFunc 0 (prepareBar succeeding 0) (serve (.addBar true 0 ⟨0, 0, 0x1000⟩) created).2).2

theorem mmap_confined_iff_one_page :
    ConfinedToBar 12 onePage ⟨0, 0x1000, 0⟩ ⟨1, 0x1000⟩ := by
  have hiff := (mmap_confined_iff 12 (fun _ ↦ .ok ()) onePage 0 ⟨0, 0x1000, 0⟩ ⟨1, 0x1000⟩).1 rfl
  refine hiff.mpr fun v hv ↦ ?_
  cases hv
  decide

theorem mmap_past_the_page :
    (pciemInstanceMmap 12 (fun _ ↦ .ok ()) onePage ⟨0, 0x2000, 0⟩ = .ok ⟨1, 0x2000⟩ ∧
      ¬ ConfinedToBar 12 onePage ⟨0, 0x2000, 0⟩ ⟨1, 0x2000⟩) ∧
    (pciemDeviceMmap (fun _ ↦ .ok ()) 9 ⟨0, 0x5000, 0⟩ = .ok ⟨9, 0x5000⟩ ∧
      ¬ Mapping.maps 12 ⟨9, 0x5000⟩ ⊆ ringPages 12 9) := by
  refine ⟨⟨rfl, ?_⟩, rfl, ?_⟩
  · rw [@confinedToBar_iff _ _ _ _ _ (fun _ ↦ .ok ()) rfl]
    intro hfits
    have hle := hfits _ rfl
    revert hle
    decide
  · rw [ringPages, Mapping.subset_iff rfl (Nat.le_add_right _ _)]
    decide

end OnePage

end Pciem.Slot.Mmap
