import Pciem.Bar.Registers
import Pciem.Library.Replay

namespace Pciem.Bar.Table

open Kernel Config.Capabilities Config.Access Library.MaskedRegister Library.PowerOfTwo
  Library.Replay Registers

/-- The rest of a `struct pciem_bar_info`: the memory of the BAR. `allocatedRes` tells whether
the pointer is set. -/
structure PciemBarPlace where
  carvedStart : BitVec 64
  carvedEnd : BitVec 64
  physAddr : BitVec 64
  allocatedRes : Bool

/-- A function with the memory of its BARs. -/
structure PlacedFunction where
  rc : PciemRootComplex
  places : ℕ → PciemBarPlace

def PlacedFunction.alloc : PlacedFunction where
  rc := pciemAllocRootComplex
  places _ := ⟨0, 0, 0, false⟩

structure PciemBarConfig where
  barIndex : BitVec 32
  flags : BitVec 32
  size : BitVec 64

def PlacedFunction.setBarInfo (f : PlacedFunction) (i : ℕ) (bar : PciemBarInfo) :
    PlacedFunction :=
  { f with rc := { f.rc with bars := Function.update f.rc.bars i bar } }

/-- `phys` is what `pciem_pool_alloc` returns for the size. -/
def pciemRegisterBar (f : PlacedFunction) (barNum : BitVec 32) (size : BitVec 64)
    (flags : BitVec 32) (phys : BitVec 64) : Except Errno PlacedFunction :=
  let i := barNum.toNat
  if i ≥ pciStdNumBars then
    .error .einval
  else if size = 0 then
    .ok (f.setBarInfo i { f.rc.bars i with size := 0, flags := 0 })
  else if size &&& (size - 1) ≠ 0 then
    .error .einval
  else if phys = 0 then
    .error .enomem
  else
    .ok { f.setBarInfo i { size, flags, baseAddrVal := 0 } with
      places := Function.update f.places i
        { f.places i with carvedStart := phys, carvedEnd := phys + size - 1 } }

/-- ADD_BAR on the function that the request selects. -/
def pciemIoctlAddBar (f : PlacedFunction) (cfg : PciemBarConfig) (phys : BitVec 64) :
    Except Errno PlacedFunction :=
  if cfg.barIndex.toNat ≥ pciStdNumBars then
    .error .einval
  else if cfg.size ≠ 0 ∧ cfg.size &&& (cfg.size - 1) ≠ 0 then
    .error .einval
  else
    pciemRegisterBar f cfg.barIndex cfg.size cfg.flags phys

/-- A call, with the address that the pool has for it. -/
structure AddBar where
  cfg : PciemBarConfig
  phys : BitVec 64

/-- A call that fails leaves the function as it was. -/
def addBar (f : PlacedFunction) (call : AddBar) : PlacedFunction :=
  match pciemIoctlAddBar f call.cfg call.phys with
  | .ok f' => f'
  | .error _ => f

def Is64 (flags : BitVec 32) : Prop :=
  flags &&& pciBaseAddressSpaceIo = 0 ∧ flags &&& pciBaseAddressMemType64 ≠ 0

instance (flags : BitVec 32) : Decidable (Is64 flags) := inferInstanceAs (Decidable (_ ∧ _))

/-- The test by which the loops over the BARs pass over an upper half. -/
def IsUpperHalf (v : PciemRootComplex) (i : ℕ) : Prop :=
  i > 0 ∧ i % 2 = 1 ∧ (v.bars (i - 1)).flags &&& pciBaseAddressMemType64 ≠ 0

instance (v : PciemRootComplex) (i : ℕ) : Decidable (IsUpperHalf v i) :=
  inferInstanceAs (Decidable (_ ∧ _ ∧ _))

/-- A table of BARs that config space can express, each of them exposed. -/
structure Representable (v : PciemRootComplex) : Prop where
  upper : ∀ i < pciStdNumBars, (v.bars i).size ≠ 0 → Is64 (v.bars i).flags →
    i + 1 < pciStdNumBars ∧ barRegister v (i + 1) = some (highRegister (v.bars i)) ∧
      (v.bars (i + 1)).size = 0
  memory : ∀ i < pciStdNumBars, (v.bars i).size ≠ 0 →
    (v.bars i).flags &&& pciBaseAddressSpaceIo = 0 → 16 ≤ (v.bars i).size
  narrow : ∀ i < pciStdNumBars, (v.bars i).size ≠ 0 → ¬ Is64 (v.bars i).flags →
    (v.bars i).size < 1#64 <<< 32
  exposed : ∀ i < pciStdNumBars, (v.bars i).size ≠ 0 → ¬ IsUpperHalf v i

/-- The call returns 0. -/
def AddBar.Accepted (call : AddBar) : Prop :=
  call.cfg.barIndex.toNat < pciStdNumBars ∧
    (call.cfg.size = 0 ∨ call.cfg.size &&& (call.cfg.size - 1) = 0 ∧ call.phys ≠ 0)

instance (call : AddBar) : Decidable call.Accepted := inferInstanceAs (Decidable (_ ∧ _))

/-- A BAR that fits in the table at its index, or none. -/
def WellPlaced (v : PciemRootComplex) (cfg : PciemBarConfig) : Prop :=
  cfg.size = 0 ∨
    (cfg.flags &&& pciBaseAddressSpaceIo = 0 → 16 ≤ cfg.size) ∧
    (Is64 cfg.flags → cfg.barIndex.toNat % 2 = 0) ∧
    (¬ Is64 cfg.flags → cfg.size < 1#64 <<< 32) ∧
    (cfg.flags &&& pciBaseAddressMemType64 ≠ 0 → cfg.barIndex.toNat % 2 = 0 →
      (v.bars (cfg.barIndex.toNat + 1)).size = 0) ∧
    ¬ IsUpperHalf v cfg.barIndex.toNat

instance (v : PciemRootComplex) (cfg : PciemBarConfig) : Decidable (WellPlaced v cfg) :=
  inferInstanceAs (Decidable (_ ∨ _ ∧ _ ∧ _ ∧ _ ∧ _))

/-- What a call that returns 0 leaves at its index. -/
def newBar (f : PlacedFunction) (cfg : PciemBarConfig) : PciemBarInfo :=
  if cfg.size = 0 then { f.rc.bars cfg.barIndex.toNat with size := 0, flags := 0 }
  else ⟨cfg.size, cfg.flags, 0⟩

section Step

variable {f : PlacedFunction} {call : AddBar}

theorem bars_addBar (h : call.Accepted) : (addBar f call).rc.bars =
    Function.update f.rc.bars call.cfg.barIndex.toNat (newBar f call.cfg) := by
  obtain ⟨hi, hsize⟩ := h
  rw [addBar, pciemIoctlAddBar, if_neg (Nat.not_le.mpr hi), pciemRegisterBar]
  dsimp only
  rw [if_neg (Nat.not_le.mpr hi)]
  by_cases hzero : call.cfg.size = 0
  · rw [if_neg (not_and_of_not_left _ (not_not.mpr hzero)), if_pos hzero, newBar, if_pos hzero]
    rfl
  · obtain ⟨hpow, hphys⟩ := hsize.resolve_left hzero
    rw [if_neg (not_and_of_not_right _ (not_not.mpr hpow)), if_neg hzero,
      if_neg (not_not.mpr hpow), if_neg hphys, newBar, if_neg hzero]
    rfl

theorem addBar_of_not (h : ¬ call.Accepted) : addBar f call = f := by
  rw [addBar]
  split
  · rename_i f' hok
    rw [pciemIoctlAddBar, pciemRegisterBar] at hok
    split_ifs at hok with hi _ hzero hpow hphys
    · exact absurd ⟨Nat.not_le.mp hi, .inl hzero⟩ h
    · exact absurd ⟨Nat.not_le.mp hi, .inr ⟨not_not.mp hpow, hphys⟩⟩ h
  · rfl

end Step

/-- What the BAR at an index asks of the table. -/
structure Fits (bars : ℕ → PciemBarInfo) (i : ℕ) : Prop where
  upper : Is64 (bars i).flags → i % 2 = 0 ∧ (bars (i + 1)).size = 0
  memory : (bars i).flags &&& pciBaseAddressSpaceIo = 0 → 16 ≤ (bars i).size
  narrow : ¬ Is64 (bars i).flags → (bars i).size < 1#64 <<< 32
  exposed : i % 2 = 1 → (bars (i - 1)).flags &&& pciBaseAddressMemType64 = 0

theorem representable_iff {v : PciemRootComplex} :
    Representable v ↔ ∀ i < pciStdNumBars, (v.bars i).size ≠ 0 → Fits v.bars i := by
  constructor
  · intro h i hi hsize
    refine ⟨fun h64 ↦ ?_, h.memory i hi hsize, h.narrow i hi hsize, fun hodd ↦ ?_⟩
    · obtain ⟨-, hreg, hnext⟩ := h.upper i hi hsize h64
      refine ⟨?_, hnext⟩
      by_contra hodd
      rw [barRegister_next_of_odd (by omega) hnext] at hreg
      cases hreg
    · by_contra h64
      exact h.exposed i hi hsize ⟨by omega, hodd, h64⟩
  · intro h
    refine ⟨fun i hi hsize h64 ↦ ?_, fun i hi hsize ↦ (h i hi hsize).memory,
      fun i hi hsize ↦ (h i hi hsize).narrow, fun i hi hsize hupper ↦ ?_⟩
    · obtain ⟨heven, hnext⟩ := (h i hi hsize).upper h64
      refine ⟨?_, barRegister_next heven h64.2 hnext, hnext⟩
      simp only [pciStdNumBars] at hi ⊢
      omega
    · exact hupper.2.2 ((h i hi hsize).exposed hupper.2.1)

section Placing

variable {v v' : PciemRootComplex} {k : ℕ} {bar : PciemBarInfo}

theorem Representable.remove (h : Representable v) (hsize : bar.size = 0) (hflags : bar.flags = 0)
    (hbars : v'.bars = Function.update v.bars k bar) : Representable v' := by
  rw [representable_iff] at h ⊢
  have hzero (j : ℕ) (hj : (v.bars j).size = 0) : (v'.bars j).size = 0 := by
    by_cases hjk : j = k
    · rw [hbars, hjk, Function.update_self, hsize]
    · rw [hbars, Function.update_of_ne hjk, hj]
  intro i hi hne
  have hik : i ≠ k := by
    rintro rfl
    rw [hbars, Function.update_self, hsize] at hne
    exact hne rfl
  have hbar : v'.bars i = v.bars i := by rw [hbars, Function.update_of_ne hik]
  rw [hbar] at hne
  obtain ⟨hupper, hmemory, hnarrow, hexposed⟩ := h i hi hne
  refine ⟨?_, hbar ▸ hmemory, hbar ▸ hnarrow, ?_⟩
  · rw [hbar]
    exact fun h64 ↦ ⟨(hupper h64).1, hzero _ (hupper h64).2⟩
  · intro hodd
    by_cases hjk : i - 1 = k
    · rw [hbars, hjk, Function.update_self, hflags]
      exact BitVec.zero_and
    · rw [hbars, Function.update_of_ne hjk]
      exact hexposed hodd

theorem Representable.place (h : Representable v)
    (hbars : v'.bars = Function.update v.bars k bar)
    (hmemory : bar.flags &&& pciBaseAddressSpaceIo = 0 → 16 ≤ bar.size)
    (heven : Is64 bar.flags → k % 2 = 0) (hnarrow : ¬ Is64 bar.flags → bar.size < 1#64 <<< 32)
    (hnext : bar.flags &&& pciBaseAddressMemType64 ≠ 0 → k % 2 = 0 → (v.bars (k + 1)).size = 0)
    (hupper : ¬ IsUpperHalf v k) : Representable v' := by
  rw [representable_iff] at h ⊢
  have hk : v'.bars k = bar := by rw [hbars, Function.update_self]
  have hne {j : ℕ} (hj : j ≠ k) : v'.bars j = v.bars j := by
    rw [hbars, Function.update_of_ne hj]
  have hbefore (hodd : k % 2 = 1) :
      (v.bars (k - 1)).flags &&& pciBaseAddressMemType64 = 0 := by
    by_contra h64
    exact hupper ⟨by omega, hodd, h64⟩
  intro i hi hsome
  by_cases hik : i = k
  · subst hik
    refine ⟨?_, hk ▸ hmemory, hk ▸ hnarrow, ?_⟩
    · rw [hk, hne (Nat.succ_ne_self i)]
      exact fun h64 ↦ ⟨heven h64, hnext h64.2 (heven h64)⟩
    · intro hodd
      rw [hne (by omega)]
      exact hbefore hodd
  · rw [hne hik] at hsome
    obtain ⟨hupper', hmemory', hnarrow', hexposed'⟩ := h i hi hsome
    refine ⟨?_, hne hik ▸ hmemory', hne hik ▸ hnarrow', ?_⟩
    · rw [hne hik]
      intro h64
      refine ⟨(hupper' h64).1, ?_⟩
      by_cases hnextk : i + 1 = k
      · -- the BAR would take the upper half of its neighbour
        subst hnextk
        exact absurd (hbefore (by have := (hupper' h64).1; omega)) h64.2
      · rw [hne hnextk]
        exact (hupper' h64).2
    · intro hodd
      by_cases hprevk : i - 1 = k
      · rw [hprevk, hk]
        by_contra h64
        have hcover := hnext h64 (by omega)
        rw [show k + 1 = i by omega] at hcover
        exact hsome hcover
      · rw [hne hprevk]
        exact hexposed' hodd

/-- A new BAR leaves a representable table exactly when it fits in the one before. -/
theorem representable_place_iff (h : Representable v) {cfg : PciemBarConfig}
    (hi : cfg.barIndex.toNat < pciStdNumBars) (hsize : cfg.size ≠ 0)
    (hbars : v'.bars = Function.update v.bars cfg.barIndex.toNat ⟨cfg.size, cfg.flags, 0⟩) :
    Representable v' ↔ WellPlaced v cfg := by
  have hk : v'.bars cfg.barIndex.toNat = ⟨cfg.size, cfg.flags, 0⟩ := by
    rw [hbars, Function.update_self]
  have hne {j : ℕ} (hj : j ≠ cfg.barIndex.toNat) : v'.bars j = v.bars j := by
    rw [hbars, Function.update_of_ne hj]
  constructor
  · intro h'
    have hfits := representable_iff.mp h' _ hi (by rw [hk]; exact hsize)
    obtain ⟨hupper, hmemory, hnarrow, hexposed⟩ := hfits
    rw [hk] at hupper hmemory hnarrow
    refine .inr ⟨hmemory, fun h64 ↦ (hupper h64).1, hnarrow, fun h64 heven ↦ ?_, ?_⟩
    · by_contra hnext
      have hnext' : (v'.bars (cfg.barIndex.toNat + 1)).size ≠ 0 := by
        rw [hne (Nat.succ_ne_self _)]
        exact hnext
      have hlt : cfg.barIndex.toNat + 1 < pciStdNumBars := by
        simp only [pciStdNumBars] at hi ⊢
        omega
      have hfits' := (representable_iff.mp h' _ hlt hnext').exposed (by omega)
      rw [Nat.add_sub_cancel, hk] at hfits'
      exact h64 hfits'
    · rintro ⟨hpos, hodd, h64⟩
      have hflags := hexposed hodd
      rw [hne (by omega)] at hflags
      exact h64 hflags
  · rintro (hzero | ⟨hmemory, heven, hnarrow, hnext, hupper⟩)
    · exact absurd hzero hsize
    · exact h.place hbars hmemory heven hnarrow hnext hupper

end Placing

theorem representable_alloc : Representable PlacedFunction.alloc.rc :=
  representable_iff.mpr fun _ _ hsize ↦ absurd rfl hsize

theorem representable_addBar_iff {f : PlacedFunction} {call : AddBar}
    (h : Representable f.rc) :
    Representable (addBar f call).rc ↔ (call.Accepted → WellPlaced f.rc call.cfg) := by
  by_cases ha : call.Accepted
  · have hbars := bars_addBar (f := f) ha
    by_cases hzero : call.cfg.size = 0
    · rw [newBar, if_pos hzero] at hbars
      exact iff_of_true (h.remove rfl rfl hbars) fun _ ↦ .inl hzero
    · rw [newBar, if_neg hzero] at hbars
      rw [representable_place_iff h ha.1 hzero hbars]
      exact ⟨fun hw _ ↦ hw, fun hw ↦ hw ha⟩
  · rw [addBar_of_not ha]
    exact iff_of_true h fun ha' ↦ absurd ha' ha

/-- The table of BARs is representable throughout a sequence of calls exactly when each call
that returns 0 places a BAR that fits in the table before it. -/
theorem bar_table_representable_iff (calls : List AddBar) :
    Always addBar (fun f ↦ Representable f.rc) .alloc calls ↔
      Each addBar (fun f call ↦ call.Accepted → WellPlaced f.rc call.cfg) .alloc calls :=
  always_iff_each (P := fun f : PlacedFunction ↦ Representable f.rc) (I := fun _ ↦ True)
    (Q := fun _ ↦ True) (fun _ _ _ _ ↦ trivial) (fun _ _ _ _ h ↦ representable_addBar_iff h)
    (fun _ _ ↦ trivial) trivial representable_alloc

/-- A 64-bit BAR at the last index. -/
theorem last_bar_not_representable :
    ¬ ∀ calls, Always addBar (fun f ↦ Representable f.rc) .alloc calls := by
  intro h
  have hlast := (h [⟨⟨5, pciBaseAddressMemType64, 0x1000⟩, 0x100000000⟩]).2
  obtain ⟨hlt, -⟩ := hlast.upper 5 (by decide) (by decide) (by decide)
  exact absurd hlt (by decide)

end Pciem.Bar.Table
