import Pciem.Config.Effects

namespace Pciem.Config.MemoryLaw

open Kernel Library.ByteMemory Capabilities Layout Registers Access Effects

structure NaturallyAligned (p size : ℕ) : Prop where
  sizes : size = 1 ∨ size = 2 ∨ size = 4
  aligned : size ∣ p
  inside : p + size ≤ pciCfgSpaceExpSize

theorem NaturallyAligned.inSpace {p size : ℕ} (h : NaturallyAligned p size) :
    InSpace p size := by
  obtain ⟨hsize, ⟨k, rfl⟩, hin⟩ := h
  simp only [InSpace, pciCfgSpaceSize]
  rcases hsize with rfl | rfl | rfl <;> omega

section Frame

variable {v v' : PciemRootComplex} {w : ConfWrite} {q n : ℕ}

theorem readBytes_congr {mem mem' : Memory} (h : ∀ k < n, mem' (q + k) = mem (q + k)) :
    readBytes mem' q n = readBytes mem q n := by
  unfold readBytes
  split
  · exact load_congr h
  · exact load_congr h
  · exact load_congr h
  · rfl

theorem readBarAddress_setBar {idx k : ℕ} (hne : idx ≠ k) (addr : BitVec 32) :
    pciemReadBarAddress (setBar v k addr) idx = pciemReadBarAddress v idx := by
  have hbar : (setBar v k addr).bars idx = v.bars idx := Function.update_of_ne hne _ _
  have hprev : ((setBar v k addr).bars (idx - 1)).size = (v.bars (idx - 1)).size ∧
      ((setBar v k addr).bars (idx - 1)).flags = (v.bars (idx - 1)).flags := by
    rcases eq_or_ne (idx - 1) k with rfl | hk
    · simp [setBar]
    · simp [setBar, Function.update_of_ne hk]
  simp only [pciemReadBarAddress, prevBar, hbar]
  by_cases hodd : idx > 0 ∧ idx % 2 = 1
  · simp only [if_pos hodd, hprev.1, hprev.2]
  · simp only [if_neg hodd]

theorem handleCapRead_frame (h : WriteEffect v w v') (hn : 0 < n)
    (hdisj : q + n ≤ w.pos ∨ w.pos + w.size ≤ q) :
    pciemHandleCapRead v' q n = pciemHandleCapRead v q n := by
  cases h with
  | ignored | bar | raw => rfl
  | @register mgr i o reg hm hc hpos hreg hsize =>
    have hwidth : 0 < reg.width := by cases reg <;> decide
    cases hq : covering mgr q with
    | none =>
      rw [handleCapRead_of_none, handleCapRead_of_none]
      · intro m hm'
        cases hm.symm.trans hm'
        exact hq
      · intro m hm'
        cases hm'
        exact covering_setCap_none hq
    | some j =>
      rw [handleCapRead_eq hm hq, handleCapRead_eq capMgr_writeTyped (covering_setCap hq)]
      rcases eq_or_ne j i with rfl | hji
      · rw [get_setCap_self]
        change (readRegister (setTyped _ _ _) (q - (mgr.caps.get j).base) n).map _ = _
        rw [readRegister, registers_setTyped, ← readRegister]
        cases hr : readRegister (mgr.caps.get j).cap (q - (mgr.caps.get j).base) n with
        | none => rfl
        | some reg' =>
          have hlo := (covering_spec hq).1
          rw [Option.map_some, Option.map_some, typed_setTyped_of_ne]
          rintro rfl
          have := registers_inj (readRegister_eq_some.mp hr).1 hreg (.inr rfl)
          have hoff : q - (mgr.caps.get j).base = o := congrArg Prod.fst this
          omega
      · rw [get_setCap_of_ne hji]

theorem confRead_frame (h : WriteEffect v w v') (hn : 0 < n)
    (hdisj : q + n ≤ w.pos ∨ w.pos + w.size ≤ q) : confRead v' q n = confRead v q n := by
  by_cases hd : v.detaching = false ∧ InSpace q n
  · have hcap := handleCapRead_frame h hn hdisj
    rw [confRead_eq hd.1 hd.2, confRead_eq (h.detaching_eq.trans hd.1) hd.2, hcap]
    cases pciemHandleCapRead v q n with
    | some val => rfl
    | none =>
      dsimp only
      have hbytes : readBytes v'.space q n = readBytes v.space q n := by
        cases h with
        | ignored | bar => rfl
        | @register mgr i o reg hm hc hpos hreg hsize =>
          exact readBytes_congr fun k hk ↦ store_outside (by rw [length_bytes]; omega)
        | raw => exact readBytes_congr fun k hk ↦ store_outside (by rw [length_bytes]; omega)
      by_cases hbar : IsBar q n
      · have hread : pciemReadBarAddress v' (barIndex q) = pciemReadBarAddress v (barIndex q) := by
          cases h with
          | ignored | register | raw => rfl
          | bar addr hw =>
            refine readBarAddress_setBar ?_ addr
            simp only [IsBar, barIndex, pciBaseAddress0, pciStdNumBars] at hbar hw ⊢
            omega
        rw [if_pos hbar, if_pos hbar, hread]
      · rw [if_neg hbar, if_neg hbar, hbytes]
  · rw [confRead_of_not hd, confRead_of_not]
    rwa [h.detaching_eq]

end Frame

/-- Bytes outside every capability, the BAR dwords and the ROM dword. -/
def Plain (v : PciemRootComplex) (p : ℕ) : Prop :=
  (∀ mgr, v.capMgr = some mgr → ∀ entry ∈ mgr.caps, p < entry.base ∨ fin entry ≤ p) ∧
    ¬ (pciBaseAddress0 ≤ p ∧ p < pciBaseAddress0 + 4 * pciStdNumBars) ∧
    ¬ (pciRomAddress ≤ p ∧ p < pciRomAddress + 4)

section PlainBytes

variable {v : PciemRootComplex} {p size : ℕ}

theorem Plain.not_covered (h : Plain v p) {mgr : PciemCapManager} (hm : v.capMgr = some mgr) :
    covering mgr p = none :=
  covering_eq_none_iff.mpr (h.1 mgr hm)

theorem Plain.not_isBar (h : Plain v p) : ¬ IsBar p size := by
  rintro ⟨hlo, hhi, -⟩
  exact h.2.1 (by omega)

theorem Plain.not_rom (h : Plain v p) : (p : ℤ) ≠ pciRomAddress := by
  intro he
  exact h.2.2 (by omega)

end PlainBytes

/-- Naturally aligned accesses behave like those of a little-endian memory: a read of other
bytes than a write does not see it, and a read inside a write to plain bytes returns the
bytes written. -/
theorem memory_law {v : PciemRootComplex} (hd : v.detaching = false)
    (hsep : ∀ mgr, v.capMgr = some mgr → Separate mgr) {w : ConfWrite}
    (hw : NaturallyAligned w.pos w.size) {q n : ℕ} (hr : NaturallyAligned q n) :
    ((q + n ≤ w.pos ∨ w.pos + w.size ≤ q) →
      pciemConfReadImpl (some (applyWrite v w)) q n = pciemConfReadImpl (some v) q n) ∧
    ((∀ k < w.size, Plain v (w.pos + k)) → w.pos ≤ q → q + n ≤ w.pos + w.size →
      pciemConfReadImpl (some (applyWrite v w)) q n = (.successful,
        compose ((List.range n).map fun k ↦ (byte w.value (q - w.pos + k)).setWidth 32))) := by
  have heffect := applyWrite_effect (v := v) (w := w) fun mgr hm ↦ based_of_separate (hsep mgr hm)
  have hn : 0 < n := by rcases hr.sizes with rfl | rfl | rfl <;> decide
  refine ⟨confRead_frame heffect hn, fun hplain hlo hhi ↦ ?_⟩
  have hpos : Plain v w.pos := hplain 0 (by omega)
  have hq : Plain v q := by
    have := hplain (q - w.pos) (by omega)
    rwa [Nat.add_sub_cancel' hlo] at this
  have hwrite := applyWrite_raw hd hw.inSpace
    (handleCapWrite_of_none fun mgr hm ↦ hpos.not_covered hm) hpos.not_isBar hpos.not_rom hw.sizes
  have hread : pciemHandleCapRead (applyWrite v w) q n = none := by
    rw [hwrite]
    exact handleCapRead_of_none fun mgr hm ↦ hq.not_covered hm
  change confRead (applyWrite v w) q n = _
  rw [confRead_eq (heffect.detaching_eq.trans hd) hr.inSpace, hread]
  dsimp only
  rw [if_neg hq.not_isBar, if_neg fun h ↦ hq.not_rom h.1, hwrite]
  have hload : (load (store v.space w.pos (bytes w.value w.size)) q n : BitVec 32) = _ :=
    load_store_bytes hlo hhi
  rcases hr.sizes with rfl | rfl | rfl <;> exact congrArg _ hload

theorem memory_law_three : ∃ v, addCapabilities created threeRequests = .ok v ∧
    pciemConfReadImpl (some (applyWrite v ⟨0x200, 4, 0x11223344⟩)) 0x202 2 =
      (.successful, 0x1122) := by
  have h : addCapabilities created threeRequests = .ok _ := rfl
  have hsep := (validLayout_of_fits rfl h rfl (by decide)).separate
  have hw : NaturallyAligned 0x200 4 := ⟨by decide, by decide, by decide⟩
  have hr : NaturallyAligned 0x202 2 := ⟨by decide, by decide, by decide⟩
  refine ⟨_, h, (memory_law rfl (fun mgr hm ↦ ?_) (w := ⟨0x200, 4, 0x11223344⟩) hw hr).2
    (fun k hk ↦ ⟨fun mgr hm ↦ ?_, ?_, ?_⟩) (by decide) (by decide)⟩
  · cases hm
    exact hsep
  · cases hm
    revert k
    decide
  · simp only [pciBaseAddress0, pciStdNumBars]
    omega
  · simp only [pciRomAddress]
    omega

end Pciem.Config.MemoryLaw
