import Pciem.Config.Access

namespace Pciem.Config.Effects

open Kernel Library.ByteMemory Capabilities Layout Registers Access

section SetCap

variable {mgr : PciemCapManager} {i : Fin mgr.caps.length} {cap : PciemCap} {p : ℕ}

@[simp]
theorem length_setCap : (setCap mgr i cap).caps.length = mgr.caps.length := List.length_set

theorem get_setCap_self :
    (setCap mgr i cap).caps.get (i.cast length_setCap.symm) = { mgr.caps.get i with cap } :=
  List.getElem_set_self _

theorem get_setCap_of_ne {j : Fin mgr.caps.length} (h : j ≠ i) :
    (setCap mgr i cap).caps.get (j.cast length_setCap.symm) = mgr.caps.get j :=
  List.getElem_set_ne (fun he ↦ h (Fin.ext he.symm)) _

theorem covers_setCap (j : Fin mgr.caps.length) {pos : ℤ} :
    Covers pos ((setCap mgr i cap).caps.get (j.cast length_setCap.symm)) ↔
      Covers pos (mgr.caps.get j) := by
  rcases eq_or_ne j i with rfl | h
  · rw [get_setCap_self]
    rfl
  · rw [get_setCap_of_ne h]

theorem covering_setCap {j : Fin mgr.caps.length} {pos : ℤ} (h : covering mgr pos = some j) :
    covering (setCap mgr i cap) pos = some (j.cast length_setCap.symm) := by
  obtain ⟨hj, hbefore⟩ := List.findFinIdx?_eq_some_iff.mp h
  refine List.findFinIdx?_eq_some_iff.mpr ⟨?_, fun k hk ↦ ?_⟩
  · simpa using (covers_setCap j).mpr (by simpa using hj)
  · have := hbefore (k.cast length_setCap) hk
    rw [decide_eq_true_eq] at this ⊢
    exact fun hc ↦ this ((covers_setCap (k.cast length_setCap)).mp hc)

theorem covering_setCap_none {pos : ℤ} (h : covering mgr pos = none) :
    covering (setCap mgr i cap) pos = none := by
  rw [covering, List.findFinIdx?_eq_none_iff] at h ⊢
  intro entry he
  obtain ⟨k, rfl⟩ := List.get_of_mem he
  have := h _ (List.get_mem _ (k.cast length_setCap))
  rw [decide_eq_true_eq] at this ⊢
  exact fun hc ↦ this ((covers_setCap (k.cast length_setCap)).mp hc)

end SetCap

theorem based_of_separate {mgr : PciemCapManager} (h : Separate mgr) : Based mgr :=
  fun entry he hk ↦ (h.extended entry he hk).1

theorem inSpace_of_separate {mgr : PciemCapManager} (h : Separate mgr) {e : PciemCapEntry}
    (he : e ∈ mgr.caps) {p size : ℕ} (hlo : e.base ≤ p) (hlt : p < fin e)
    (hhi : p + size ≤ fin e) : InSpace p size := by
  rw [InSpace]
  cases hk : e.isExtended with
  | false =>
    have := h.standard e he hk
    omega
  | true =>
    have := h.extended e he hk
    omega

theorem confRead_register {v : PciemRootComplex} {mgr : PciemCapManager}
    (hd : v.detaching = false) (hm : v.capMgr = some mgr) (hsep : Separate mgr)
    {i : Fin mgr.caps.length} {o size : ℕ} {reg : CapRegister}
    (hreg : (o, reg) ∈ registers (mgr.caps.get i).cap) (hreads : reg.Reads size) (hpos : 0 < size)
    (hsize : (mgr.caps.get i).base + o + size ≤ fin (mgr.caps.get i)) :
    confRead v ((mgr.caps.get i).base + o : ℕ) size =
      (.successful, typed (mgr.caps.get i).cap reg) := by
  have hlo : (mgr.caps.get i).base ≤ (mgr.caps.get i).base + o := Nat.le_add_right _ _
  have hlt : (mgr.caps.get i).base + o < fin (mgr.caps.get i) := by omega
  have hin : InSpace ((mgr.caps.get i).base + o) size :=
    inSpace_of_separate hsep (e := (mgr.caps.get i)) (List.get_mem _ i) hlo hlt hsize
  rw [confRead_eq hd hin, handleCapRead_eq hm (covering_eq hsep.disjoint hlo hlt),
    Nat.add_sub_cancel_left, readRegister_eq_some.mpr ⟨hreg, hreads⟩]
  rfl

/-- What a config write does to the function. -/
inductive WriteEffect (v : PciemRootComplex) (w : ConfWrite) : PciemRootComplex → Prop
  | ignored : WriteEffect v w v
  | register {mgr : PciemCapManager} {i : Fin mgr.caps.length} {o : ℕ} {reg : CapRegister} :
      v.capMgr = some mgr → covering mgr w.pos = some i → w.pos = (mgr.caps.get i).base + o →
      (o, reg) ∈ registers (mgr.caps.get i).cap → w.size = reg.width →
      WriteEffect v w (writeTyped v mgr i reg w.pos w.value)
  | bar (baseAddrVal : BitVec 32) : IsBar w.pos w.size →
      WriteEffect v w (setBar v (barIndex w.pos) baseAddrVal)
  | raw : pciemHandleCapWrite v w.pos w.size w.value = none → InSpace w.pos w.size →
      WriteEffect v w { v with space := store v.space w.pos (bytes w.value w.size) }

def AlignedWrite (w : ConfWrite) : Prop := (w.size = 1 ∨ w.size = 2 ∨ w.size = 4) ∧ w.size ∣ w.pos

instance (w : ConfWrite) : Decidable (AlignedWrite w) := inferInstanceAs (Decidable (_ ∧ _))

/-- An aligned write stays in the dword of each of its bytes. -/
theorem AlignedWrite.dword {w : ConfWrite} (h : AlignedWrite w) {d p : ℕ} (hd : 4 ∣ d)
    (hdp : d ≤ p) (hpd : p < d + 4) (hlo : w.pos ≤ p) (hhi : p < w.pos + w.size) :
    d ≤ w.pos ∧ w.pos + w.size ≤ d + 4 := by
  obtain ⟨hsize, k, hk⟩ := h
  obtain ⟨m, rfl⟩ := hd
  rcases hsize with hs | hs | hs <;> rw [hs] at hk hhi ⊢ <;> omega

section Effects

variable {v : PciemRootComplex} {w : ConfWrite}

theorem writeBarAddress_eq (v : PciemRootComplex) (idx : ℕ) (value : BitVec 32) :
    (pciemWriteBarAddress v idx value).2 = v ∨
      ∃ addr, (pciemWriteBarAddress v idx value).2 = setBar v idx addr := by
  simp only [pciemWriteBarAddress]
  split
  · exact .inr ⟨_, rfl⟩
  · split
    · exact .inl rfl
    · split
      · exact .inr ⟨_, rfl⟩
      · exact .inl rfl

theorem writeBytes_eq (v : PciemRootComplex) (p size : ℕ) (value : BitVec 32) :
    (writeBytes v p size value).2 = v ∨
      (writeBytes v p size value).2 = { v with space := store v.space p (bytes value size) } := by
  unfold writeBytes
  split
  · exact .inr rfl
  · exact .inr rfl
  · exact .inr rfl
  · exact .inl rfl

theorem writeBytes_of_size (v : PciemRootComplex) (p : ℕ) (value : BitVec 32) {size : ℕ}
    (h : size = 1 ∨ size = 2 ∨ size = 4) :
    (writeBytes v p size value).2 = { v with space := store v.space p (bytes value size) } := by
  rcases h with rfl | rfl | rfl <;> rfl

theorem applyWrite_effect (hb : ∀ mgr, v.capMgr = some mgr → Based mgr) :
    WriteEffect v w (applyWrite v w) := by
  change WriteEffect v w (confWrite v w.pos w.size w.value).2
  by_cases hd : v.detaching = false ∧ InSpace w.pos w.size
  · rw [confWrite_eq hd.1 hd.2]
    cases hcap : pciemHandleCapWrite v w.pos w.size w.value with
    | none =>
      dsimp only
      split
      · rename_i hbar
        rcases writeBarAddress_eq v (barIndex w.pos) w.value with h | ⟨addr, h⟩ <;> rw [h]
        · exact .ignored
        · exact .bar addr hbar
      · split
        · exact .ignored
        · rcases writeBytes_eq v w.pos w.size w.value with h | h <;> rw [h]
          · exact .ignored
          · exact .raw hcap hd.2
    | some v' =>
      dsimp only
      cases hm : v.capMgr with
      | none => simp [pciemHandleCapWrite, hm] at hcap
      | some mgr =>
        cases hc : covering mgr w.pos with
        | none => simp [pciemHandleCapWrite, hm, hc] at hcap
        | some i =>
          rw [handleCapWrite_eq hm (hb mgr hm) hc] at hcap
          cases hreg : writeRegister (mgr.caps.get i).cap
              (w.pos - (mgr.caps.get i).base) w.size with
          | some reg =>
            rw [hreg] at hcap
            cases hcap
            obtain ⟨hmem, hsize⟩ := writeRegister_eq_some.mp hreg
            have hlo := (covering_spec hc).1
            exact .register hm hc (by omega) hmem hsize
          | none =>
            rw [hreg] at hcap
            dsimp only at hcap
            split at hcap
            · cases hcap
              exact .ignored
            · cases hcap
  · rw [confWrite_of_not hd]
    exact .ignored

theorem applyWrite_register (hd : v.detaching = false) (hin : InSpace w.pos w.size)
    {mgr : PciemCapManager} (hm : v.capMgr = some mgr) (hb : Based mgr)
    {i : Fin mgr.caps.length} (hc : covering mgr w.pos = some i) {o : ℕ} {reg : CapRegister}
    (hpos : w.pos = (mgr.caps.get i).base + o) (hreg : (o, reg) ∈ registers (mgr.caps.get i).cap)
    (hsize : w.size = reg.width) : applyWrite v w = writeTyped v mgr i reg w.pos w.value := by
  have hoff : w.pos - (mgr.caps.get i).base = o := by omega
  change (confWrite v w.pos w.size w.value).2 = _
  rw [confWrite_eq hd hin, handleCapWrite_eq hm hb hc, hoff,
    writeRegister_eq_some.mpr ⟨hreg, hsize⟩]

theorem applyWrite_raw (hd : v.detaching = false) (hin : InSpace w.pos w.size)
    (hcap : pciemHandleCapWrite v w.pos w.size w.value = none) (hbar : ¬ IsBar w.pos w.size)
    (hrom : (w.pos : ℤ) ≠ pciRomAddress) (hsize : w.size = 1 ∨ w.size = 2 ∨ w.size = 4) :
    applyWrite v w = { v with space := store v.space w.pos (bytes w.value w.size) } := by
  change (confWrite v w.pos w.size w.value).2 = _
  rw [confWrite_eq hd hin, hcap]
  dsimp only
  rw [if_neg hbar, if_neg hrom, writeBytes_of_size v w.pos w.value hsize]

end Effects

section Frames

/-- A capability without its typed state, which is all that a config write can change. -/
def skeleton : PciemCap → PciemCap
  | .msi config _ => .msi config ⟨0, 0, 0, 0, 0⟩
  | .msix config _ => .msix config ⟨0⟩
  | .pm config _ => .pm config ⟨0, 0⟩
  | .pcie config => .pcie config
  | .vsec config => .vsec config
  | .pasid config _ => .pasid config ⟨0, 0⟩

def frame (entry : PciemCapEntry) : PciemCapEntry := { entry with cap := skeleton entry.cap }

def frames (v : PciemRootComplex) : Option (List PciemCapEntry) :=
  v.capMgr.map fun mgr ↦ mgr.caps.map frame

theorem skeleton_setTyped (value : BitVec 32) (cap : PciemCap) (reg : CapRegister) :
    skeleton (setTyped value cap reg) = skeleton cap := by
  cases cap <;> cases reg <;> rfl

theorem registers_skeleton (cap : PciemCap) : registers (skeleton cap) = registers cap := by
  cases cap <;> rfl

theorem frame_setTyped (entry : PciemCapEntry) (value : BitVec 32) (reg : CapRegister) :
    frame { entry with cap := setTyped value entry.cap reg } = frame entry := by
  rw [frame, skeleton_setTyped]
  rfl

theorem frame_setCap (mgr : PciemCapManager) (i : Fin mgr.caps.length) (value : BitVec 32)
    (reg : CapRegister) : (setCap mgr i (setTyped value (mgr.caps.get i).cap reg)).caps.map frame =
      mgr.caps.map frame := by
  have hi : i.1 < (mgr.caps.map frame).length := by simp
  have hframe : frame { mgr.caps.get i with cap := setTyped value (mgr.caps.get i).cap reg } =
      (mgr.caps.map frame)[i.1] := by
    rw [frame_setTyped, List.getElem_map]
    rfl
  rw [setCap, List.map_set, hframe, List.set_getElem_self]

theorem base_of_frame {a b : PciemCapEntry} (h : frame a = frame b) : a.base = b.base :=
  (congrArg PciemCapEntry.base h : (frame a).base = (frame b).base)

theorem fin_of_frame {a b : PciemCapEntry} (h : frame a = frame b) : fin a = fin b :=
  (congrArg fin h : fin (frame a) = fin (frame b))

theorem isExtended_of_frame {a b : PciemCapEntry} (h : frame a = frame b) :
    a.isExtended = b.isExtended :=
  (congrArg PciemCapEntry.isExtended h : (frame a).isExtended = (frame b).isExtended)

theorem registers_of_frame {a b : PciemCapEntry} (h : frame a = frame b) :
    registers a.cap = registers b.cap := by
  have hcap : skeleton a.cap = skeleton b.cap := congrArg PciemCapEntry.cap h
  rw [← registers_skeleton a.cap, hcap, registers_skeleton]

theorem drops_of_frame {a b : PciemCapEntry} (h : frame a = frame b) :
    Drops a.cap ↔ Drops b.cap := by
  have hcap : skeleton a.cap = skeleton b.cap := congrArg PciemCapEntry.cap h
  have hskel (cap : PciemCap) : Drops (skeleton cap) ↔ Drops cap := by cases cap <;> rfl
  rw [← hskel a.cap, hcap, hskel]

theorem exists_frame {l l' : List PciemCapEntry} (h : l'.map frame = l.map frame)
    {entry : PciemCapEntry} (he : entry ∈ l') : ∃ entry₀ ∈ l, frame entry = frame entry₀ := by
  have hmem : frame entry ∈ l.map frame := h ▸ List.mem_map_of_mem he
  obtain ⟨entry₀, he₀, hf⟩ := List.mem_map.mp hmem
  exact ⟨entry₀, he₀, hf.symm⟩

theorem separate_congr {mgr mgr' : PciemCapManager} (h : Separate mgr)
    (hf : mgr'.caps.map frame = mgr.caps.map frame) : Separate mgr' where
  standard entry he hk := by
    obtain ⟨entry₀, he₀, hfe⟩ := exists_frame hf he
    rw [fin_of_frame hfe]
    exact h.standard entry₀ he₀ ((isExtended_of_frame hfe).symm.trans hk)
  extended entry he hk := by
    obtain ⟨entry₀, he₀, hfe⟩ := exists_frame hf he
    rw [base_of_frame hfe, fin_of_frame hfe]
    exact h.extended entry₀ he₀ ((isExtended_of_frame hfe).symm.trans hk)
  disjoint := by
    have hiff (l : List PciemCapEntry) : (l.map frame).Pairwise Apart ↔ l.Pairwise Apart :=
      List.pairwise_map
    exact (hiff mgr'.caps).mp (hf ▸ (hiff mgr.caps).mpr h.disjoint)

theorem WriteEffect.frames_eq {v v' : PciemRootComplex} {w : ConfWrite}
    (h : WriteEffect v w v') : frames v' = frames v := by
  cases h with
  | ignored | bar | raw => rfl
  | @register mgr i o reg hm =>
    rw [frames, writeTyped, Option.map_some, frame_setCap, frames, hm, Option.map_some]

theorem WriteEffect.detaching_eq {v v' : PciemRootComplex} {w : ConfWrite}
    (h : WriteEffect v w v') : v'.detaching = v.detaching := by
  cases h with
  | ignored | bar | raw | register => rfl

theorem WriteEffect.mgr_eq {v v' : PciemRootComplex} {w : ConfWrite} (h : WriteEffect v w v')
    {mgr : PciemCapManager} (hm : v.capMgr = some mgr) :
    ∃ mgr', v'.capMgr = some mgr' ∧ mgr'.caps.map frame = mgr.caps.map frame := by
  have hf := h.frames_eq
  rw [frames, frames, hm] at hf
  obtain ⟨mgr', hm', hcaps⟩ := Option.map_eq_some_iff.mp hf
  exact ⟨mgr', hm', hcaps⟩

section Located

variable {mgr mgr' : PciemCapManager} (hf : mgr'.caps.map frame = mgr.caps.map frame) {q : ℕ}
include hf

theorem covering_of_frames (hsep : Separate mgr) {entry : PciemCapEntry} (he : entry ∈ mgr.caps)
    (hlo : entry.base ≤ q) (hhi : q < fin entry) : ∃ i : Fin mgr'.caps.length,
      covering mgr' q = some i ∧ frame (mgr'.caps.get i) = frame entry := by
  obtain ⟨entry', he', hfe⟩ := exists_frame hf.symm he
  obtain ⟨i, rfl⟩ := List.get_of_mem he'
  have hframe : frame (mgr'.caps.get i) = frame entry := hfe.symm
  refine ⟨i, covering_eq (separate_congr hsep hf).disjoint ?_ ?_, hframe⟩
  · rwa [base_of_frame hframe]
  · rwa [fin_of_frame hframe]

theorem covering_none_of_frames (hq : ∀ entry ∈ mgr.caps, q < entry.base ∨ fin entry ≤ q) :
    covering mgr' q = none := by
  refine covering_eq_none_iff.mpr fun entry' he' ↦ ?_
  obtain ⟨entry, he, hfe⟩ := exists_frame hf he'
  rw [base_of_frame hfe, fin_of_frame hfe]
  exact hq entry he

end Located

theorem WriteEffect.space_outside {v v' : PciemRootComplex} {w : ConfWrite}
    (h : WriteEffect v w v') {p : ℕ} (hp : p < w.pos ∨ w.pos + w.size ≤ p) :
    v'.space p = v.space p := by
  cases h with
  | ignored | bar => rfl
  | raw => exact store_outside (by rw [length_bytes]; omega)
  | @register mgr i o reg hm hc hpos hreg hsize =>
    exact store_outside (by rw [length_bytes]; omega)

end Frames

end Pciem.Config.Effects
