import Pciem.Config.Chains
import Pciem.Config.Effects
import Pciem.Library.Replay

namespace Pciem.Config.Structure

open Kernel Library.ByteMemory Library.PointerChain Library.Replay
open Capabilities Layout Build Chains Registers Access Effects

def headerSize (entry : PciemCapEntry) : ℕ := if entry.isExtended then 4 else 2

/-- The IDs and next pointers are what they were, and so are the lists that the walks return. -/
structure Intact (before : Memory) (caps : List PciemCapEntry) (v : PciemRootComplex) :
    Prop where
  headers : ∀ entry ∈ caps, ∀ k < headerSize entry,
    v.space (entry.base + k) = before (entry.base + k)
  standard : ∀ ps, StandardWalk before ps → StandardWalk v.space ps
  extended : ∀ ps, ExtendedWalk before ps → ExtendedWalk v.space ps

/-- The structural bytes that no handler guards: the list pointer, the headers of the
capabilities that are not read-only, and the dword at 0x100 when it heads no list. -/
inductive Exposed (caps : List PciemCapEntry) : ℕ → Prop
  | capList : Exposed caps pciCapabilityList
  | header {entry : PciemCapEntry} {k : ℕ} : entry ∈ caps → ¬ Drops entry.cap →
      k < headerSize entry → Exposed caps (entry.base + k)
  | extCfg {k : ℕ} : (∀ entry ∈ caps, entry.isExtended = false) → k < 4 →
      Exposed caps (pciCfgSpaceSize + k)

theorem exposed_iff {caps : List PciemCapEntry} {p : ℕ} : Exposed caps p ↔
    p = pciCapabilityList ∨
    (∃ entry ∈ caps, ¬ Drops entry.cap ∧ entry.base ≤ p ∧ p < entry.base + headerSize entry) ∨
    ((∀ entry ∈ caps, entry.isExtended = false) ∧ pciCfgSpaceSize ≤ p ∧
      p < pciCfgSpaceSize + 4) := by
  constructor
  · intro h
    cases h with
    | capList => exact .inl rfl
    | header he hd hk => exact .inr (.inl ⟨_, he, hd, by omega, by omega⟩)
    | extCfg hall hk => exact .inr (.inr ⟨hall, by omega, by omega⟩)
  · rintro (rfl | ⟨entry, he, hd, hlo, hhi⟩ | ⟨hall, hlo, hhi⟩)
    · exact .capList
    · obtain ⟨k, rfl⟩ := Nat.exists_eq_add_of_le hlo
      exact .header he hd (by omega)
    · obtain ⟨k, rfl⟩ := Nat.exists_eq_add_of_le hlo
      exact .extCfg hall (by omega)

instance (caps : List PciemCapEntry) : DecidablePred (Exposed caps) :=
  fun _ ↦ decidable_of_iff _ exposed_iff.symm

/-- A write stores the bytes that are already there wherever it meets an exposed byte. -/
def KeepsExposed (caps : List PciemCapEntry) (v : PciemRootComplex) (w : ConfWrite) : Prop :=
  ∀ k < w.size, Exposed caps (w.pos + k) → byte w.value k = v.space (w.pos + k)

instance (caps : List PciemCapEntry) (v : PciemRootComplex) (w : ConfWrite) :
    Decidable (KeepsExposed caps v w) :=
  inferInstanceAs (Decidable (∀ k < w.size, _ → _))

/-- A byte that the walks depend on. -/
def Structural (caps : List PciemCapEntry) (p : ℕ) : Prop :=
  Exposed caps p ∨ ∃ entry ∈ caps, ∃ k < headerSize entry, p = entry.base + k

/-- The function is attached and has the given capabilities, in whatever typed state. -/
def Carries (caps : List PciemCapEntry) (v : PciemRootComplex) : Prop :=
  v.detaching = false ∧ ∃ mgr, v.capMgr = some mgr ∧ mgr.caps.map frame = caps.map frame

section Steps

variable {reqs : List PciemCapConfig} {mgr : PciemCapManager} (h : Requested reqs mgr)
  (hfits : Fits reqs) {v : PciemRootComplex} {w : ConfWrite}
include h hfits

theorem carries_effect (hv : Carries mgr.caps v) : WriteEffect v w (applyWrite v w) := by
  obtain ⟨-, mgr', hm, hf⟩ := hv
  refine applyWrite_effect fun m hm' ↦ ?_
  cases hm.symm.trans hm'
  exact based_of_separate (separate_congr (h.validLayout hfits).separate hf)

theorem carries_step (hv : Carries mgr.caps v) : Carries mgr.caps (applyWrite v w) := by
  have heffect := carries_effect h hfits hv (w := w)
  obtain ⟨hd, mgr', hm, hf⟩ := hv
  obtain ⟨mgr'', hm', hf'⟩ := heffect.mgr_eq hm
  exact ⟨heffect.detaching_eq.trans hd, mgr'', hm', hf'.trans hf⟩

omit hfits in
theorem header_room {entry : PciemCapEntry} (he : entry ∈ mgr.caps) :
    headerSize entry ≤ 4 ∧ entry.base + 4 ≤ fin entry := by
  have hpos := h.size_pos he
  obtain ⟨m, hm⟩ := h.size_dvd he
  rw [headerSize, fin]
  exact ⟨by split <;> omega, by omega⟩

omit hfits in
theorem headerSize_le_register {entry : PciemCapEntry} (he : entry ∈ mgr.caps)
    {r : ℕ × CapRegister} (hr : r ∈ registers entry.cap) : headerSize entry ≤ r.1 := by
  have hroom := header_room h he
  rcases Nat.lt_or_ge r.1 entry.cap.size.toNat with hlt | hge
  · have hinside := (register_inside hr hlt).2
    rw [headerSize, h.kind entry he]
    cases hk : entry.cap.isExtended with
    | true => exact hinside.2 hk
    | false => exact hinside.1
  · rw [← h.size entry he] at hge
    rw [fin] at hroom
    omega

/-- Inside a capability that takes no part of it, a write goes to the bytes. -/
theorem applyWrite_inside (hv : Carries mgr.caps v) {entry : PciemCapEntry}
    (he : entry ∈ mgr.caps) (hlo : entry.base ≤ w.pos) (hhi : w.pos + w.size ≤ fin entry)
    (hsize : w.size = 1 ∨ w.size = 2 ∨ w.size = 4) (hdrops : ¬ Drops entry.cap)
    (hregs : ∀ r ∈ registers entry.cap, ¬ (w.pos = entry.base + r.1 ∧ w.size = r.2.width)) :
    applyWrite v w = { v with space := store v.space w.pos (bytes w.value w.size) } := by
  obtain ⟨hd, mgr', hm, hf⟩ := hv
  have hsep := (h.validLayout hfits).separate
  have hge := h.base_ge hfits he
  obtain ⟨i, hc, hfe⟩ := covering_of_frames hf hsep he hlo (by omega)
  have hin : InSpace w.pos w.size := inSpace_of_separate hsep he hlo (by omega) hhi
  have hrom : pciRomAddress < w.pos := by
    rw [pciRomAddress]
    omega
  refine applyWrite_raw hd hin ?_ (not_isBar hrom) (ne_rom hrom) hsize
  rw [handleCapWrite_eq hm (based_of_separate (separate_congr hsep hf)) hc]
  cases hreg : writeRegister (mgr'.caps.get i).cap (w.pos - (mgr'.caps.get i).base) w.size with
  | none =>
    dsimp only
    rw [if_neg fun hdrop ↦ hdrops ((drops_of_frame hfe).mp hdrop)]
  | some reg =>
    obtain ⟨hmem, hw⟩ := writeRegister_eq_some.mp hreg
    rw [registers_of_frame hfe, base_of_frame hfe] at hmem
    exact absurd ⟨by omega, hw⟩ (hregs _ hmem)

theorem applyWrite_dropped (hv : Carries mgr.caps v) {entry : PciemCapEntry}
    (he : entry ∈ mgr.caps) (hlo : entry.base ≤ w.pos) (hhi : w.pos < fin entry)
    (hdrops : Drops entry.cap) : applyWrite v w = v := by
  obtain ⟨hd, mgr', hm, hf⟩ := hv
  have hsep := (h.validLayout hfits).separate
  obtain ⟨i, hc, hfe⟩ := covering_of_frames hf hsep he hlo hhi
  have hdrop := (drops_of_frame hfe).mpr hdrops
  have hcap : pciemHandleCapWrite v w.pos w.size w.value = some v := by
    rw [handleCapWrite_eq hm (based_of_separate (separate_congr hsep hf)) hc,
      writeRegister_of_drops hdrop]
    dsimp only
    rw [if_pos hdrop]
  change (confWrite v w.pos w.size w.value).2 = _
  by_cases hin : v.detaching = false ∧ InSpace w.pos w.size
  · rw [confWrite_eq hin.1 hin.2, hcap]
  · rw [confWrite_of_not hin]

omit h hfits in
/-- An aligned write of a dword above the ROM's that no capability reaches goes to the bytes. -/
theorem applyWrite_apart (hv : Carries mgr.caps v) (hw : AlignedWrite w) {d p : ℕ}
    (hd4 : 4 ∣ d) (hrom : pciRomAddress < d)
    (hin : d + 4 ≤ pciCfgSpaceSize ∨ (pciCfgSpaceSize ≤ d ∧ d + 4 ≤ pciCfgSpaceExpSize))
    (hdp : d ≤ p) (hpd : p < d + 4) (hlo : w.pos ≤ p) (hhi : p < w.pos + w.size)
    (hq : ∀ entry ∈ mgr.caps, d + 4 ≤ entry.base ∨ fin entry ≤ d) :
    applyWrite v w = { v with space := store v.space w.pos (bytes w.value w.size) } := by
  obtain ⟨hd, mgr', hm, hf⟩ := hv
  have hdword := hw.dword hd4 hdp hpd hlo hhi
  have hspace : InSpace w.pos w.size := by
    rw [InSpace]
    omega
  have hcap : pciemHandleCapWrite v w.pos w.size w.value = none := by
    refine handleCapWrite_of_none fun m hm' ↦ ?_
    cases hm.symm.trans hm'
    refine covering_none_of_frames hf fun entry he ↦ ?_
    have := hq entry he
    omega
  exact applyWrite_raw hd hspace hcap (not_isBar (by omega)) (ne_rom (by omega)) hw.1

/-- An aligned write that covers an exposed byte goes to the bytes. -/
theorem applyWrite_exposed (hv : Carries mgr.caps v) (hw : AlignedWrite w) {p : ℕ}
    (hp : Exposed mgr.caps p) (hlo : w.pos ≤ p) (hhi : p < w.pos + w.size) :
    applyWrite v w = { v with space := store v.space w.pos (bytes w.value w.size) } := by
  have hvalid := h.validLayout hfits
  cases hp with
  | capList =>
    refine applyWrite_apart hv hw (d := 0x34) (by decide) (by decide)
      (.inl (by decide)) (by decide) (by decide) hlo hhi fun entry he ↦ .inl ?_
    have := h.base_ge hfits he
    omega
  | @header entry k he hdrops hk =>
    have hroom := header_room h he
    have hdword := hw.dword (hvalid.aligned entry he) (by omega) (by omega) hlo hhi
    refine applyWrite_inside h hfits hv he hdword.1 (by omega) hw.1 hdrops fun r hr hreg ↦ ?_
    have := headerSize_le_register h he hr
    omega
  | @extCfg k hall hk =>
    refine applyWrite_apart hv hw (d := pciCfgSpaceSize) (by decide) (by decide)
      (.inr ⟨Nat.le_refl _, by decide⟩) (by omega) (by omega) hlo hhi fun entry he ↦ .inr ?_
    exact (hvalid.standard entry he (hall entry he)).2

theorem applyWrite_structural (hv : Carries mgr.caps v) (hw : AlignedWrite w) {p : ℕ}
    (hp : Structural mgr.caps p) : (applyWrite v w).space p = v.space p ∨
      (Exposed mgr.caps p ∧ w.pos ≤ p ∧ p < w.pos + w.size) := by
  have heffect := carries_effect h hfits hv (w := w)
  rcases Nat.lt_or_ge p w.pos with hlo | hlo
  · exact .inl (heffect.space_outside (.inl hlo))
  rcases Nat.lt_or_ge p (w.pos + w.size) with hhi | hhi
  · rcases hp with hp | ⟨entry, he, k, hk, rfl⟩
    · exact .inr ⟨hp, hlo, hhi⟩
    by_cases hdrops : Drops entry.cap
    · have hroom := header_room h he
      have hdword := hw.dword ((h.validLayout hfits).aligned entry he) (Nat.le_add_right _ k)
        (by omega) hlo hhi
      rw [applyWrite_dropped h hfits hv he hdword.1 (by omega) hdrops]
      exact .inl rfl
    · exact .inr ⟨.header he hdrops hk, hlo, hhi⟩
  · exact .inl (heffect.space_outside (.inr hhi))

end Steps

section Walks

variable {before : Memory} {caps : List PciemCapEntry} (hlinked : Linked before caps)
include hlinked

theorem structural_extCfg {k : ℕ} (hk : k < 4) : Structural caps (extCfg 0 + k) := by
  have hstart := hlinked.extended.start_eq
  cases hp : caps.filter (·.isExtended = true) with
  | nil =>
    refine .inl (.extCfg (fun entry he ↦ ?_) hk)
    have := List.filter_eq_nil_iff.mp hp entry he
    simpa using this
  | cons entry rest =>
    have hmem : entry ∈ caps.filter (·.isExtended = true) := hp ▸ List.mem_cons_self
    obtain ⟨he, hext⟩ := List.mem_filter.mp hmem
    have hzero := hlinked.extended.zero_notMem
    rw [places, hp, List.map_cons] at hstart hzero
    have hbase : entry.base = extCfg 0 := by
      have hne : entry.base ≠ 0 := fun h ↦ hzero (h ▸ List.mem_cons_self)
      rw [List.headD_cons] at hstart
      split at hstart
      · exact absurd hstart.symm hne
      · exact hstart.symm
    refine .inr ⟨entry, he, k, ?_, by rw [hbase]⟩
    rw [headerSize, if_pos (by simpa using hext)]
    exact hk

theorem intact_iff {v : PciemRootComplex} :
    Intact before caps v ↔ ∀ p, Structural caps p → v.space p = before p := by
  constructor
  · rintro ⟨hheaders, hstd, hext⟩ p (hp | ⟨entry, he, k, hk, rfl⟩)
    · cases hp with
      | capList =>
        have hb := hlinked.standard.start_eq
        have ha := (hstd _ hlinked.standard).start_eq
        exact BitVec.eq_of_toNat_eq (ha.trans hb.symm)
      | header he _ hk => exact hheaders _ he _ hk
      | extCfg hall hk =>
        have hnil : places true caps = [] := by
          rw [places, List.map_eq_nil_iff, List.filter_eq_nil_iff]
          intro entry he
          simp [hall entry he]
        have hwalk := hext _ hlinked.extended
        rw [hnil] at hwalk
        have hzero : extendedHeader v.space (extCfg 0) = 0 := by
          by_contra hne
          have := hwalk.start_eq
          rw [if_neg hne] at this
          cases this
        have hv := (load_eq_iff 0#32 rfl (Nat.le_refl 32)).mp hzero _ hk
        have hb := (load_eq_iff 0#32 rfl (Nat.le_refl 32)).mp (hlinked.none hall) _ hk
        exact hv.trans hb.symm
    · exact hheaders entry he k hk
  · intro hbytes
    refine ⟨fun entry he k hk ↦ hbytes _ (.inr ⟨entry, he, k, hk, rfl⟩), fun ps hps ↦ ?_,
      fun ps hps ↦ ?_⟩
    · cases hps.unique hlinked.standard
      rw [StandardWalk, hbytes _ (.inl .capList)]
      refine hps.congr fun q hq ↦ ?_
      obtain ⟨entry, he, rfl⟩ := List.mem_map.mp hq
      obtain ⟨he, hk⟩ := List.mem_filter.mp he
      have hone : 1 < headerSize entry := by rw [headerSize]; split <;> decide
      exact congrArg BitVec.toNat (hbytes _ (.inr ⟨entry, he, 1, hone, rfl⟩))
    · cases hps.unique hlinked.extended
      have hheader {q : ℕ} (hq : ∀ k < 4, Structural caps (q + k)) :
          extendedHeader v.space q = extendedHeader before q :=
        load_congr fun k hk ↦ hbytes _ (hq k hk)
      rw [ExtendedWalk, hheader fun k hk ↦ structural_extCfg hlinked hk]
      refine hps.congr fun q hq ↦ ?_
      obtain ⟨entry, he, rfl⟩ := List.mem_map.mp hq
      obtain ⟨he, hk⟩ := List.mem_filter.mp he
      rw [extendedNext, extendedNext, hheader]
      intro k hk4
      refine .inr ⟨entry, he, k, ?_, rfl⟩
      rwa [headerSize, if_pos (by simpa using hk)]

end Walks

theorem intact_step {reqs : List PciemCapConfig} {mgr : PciemCapManager}
    (h : Requested reqs mgr) (hfits : Fits reqs) {before : Memory}
    (hlinked : Linked before mgr.caps) {v : PciemRootComplex} {w : ConfWrite}
    (hw : AlignedWrite w) (hv : Carries mgr.caps v) (hintact : Intact before mgr.caps v) :
    Intact before mgr.caps (applyWrite v w) ↔ KeepsExposed mgr.caps v w := by
  rw [intact_iff hlinked] at hintact ⊢
  constructor
  · intro hbytes k hk hp
    have hafter := hbytes _ (.inl hp)
    rw [applyWrite_exposed h hfits hv hw hp (Nat.le_add_right _ _) (by omega),
      ← hintact _ (.inl hp)] at hafter
    rw [← hafter]
    exact (store_bytes hk).symm
  · intro hkeeps p hp
    rcases applyWrite_structural h hfits hv hw hp with hsame | ⟨hexp, hlo, hhi⟩
    · exact hsame.trans (hintact p hp)
    · obtain ⟨k, rfl⟩ := Nat.exists_eq_add_of_le hlo
      rw [applyWrite_exposed h hfits hv hw hexp hlo hhi, ← hintact _ hp,
        ← hkeeps k (by omega) hexp]
      exact store_bytes (by omega)

theorem carries_built {v : PciemRootComplex} {mgr : PciemCapManager}
    (hm : v.capMgr = some mgr) (hd : v.detaching = false) :
    Carries mgr.caps (pciemBuildConfigSpace v) := by
  obtain ⟨space, heq⟩ := pciemBuildConfigSpace_eq v
  rw [heq]
  exact ⟨hd, mgr, hm, rfl⟩

/-- On a new function whose capabilities fit, aligned config writes keep the capability IDs,
the next pointers and the lists that the walks return throughout, if and only if every write
stores what is already there on each exposed byte that it meets. -/
theorem structure_intact_iff {v v' : PciemRootComplex} {reqs : List PciemCapConfig}
    {mgr : PciemCapManager} (hfresh : Fresh v) (h : addCapabilities v reqs = .ok v')
    (hm : v'.capMgr = some mgr) (hfits : Fits reqs) {ws : List ConfWrite}
    (hws : ∀ w ∈ ws, AlignedWrite w) :
    Always applyWrite (Intact (pciemBuildConfigSpace v').space mgr.caps)
        (pciemBuildConfigSpace v') ws ↔
      Each applyWrite (KeepsExposed mgr.caps) (pciemBuildConfigSpace v') ws := by
  obtain ⟨mgr', rfl, hreq⟩ := requested hfresh.capMgr h
  cases hm
  have hlinked := linked hreq hfits (v := { v with capMgr := some mgr }) rfl hfresh.extCfg
  have hcarries := carries_built (v := { v with capMgr := some mgr }) rfl hfresh.attached
  exact always_iff_each (I := Carries mgr.caps) (Q := AlignedWrite)
    (fun s w _ ↦ carries_step hreq hfits)
    (fun s w hw hs hintact ↦ intact_step hreq hfits hlinked hw hs hintact) hws hcarries
    ⟨fun _ _ _ _ ↦ rfl, fun _ ↦ id, fun _ ↦ id⟩

theorem structure_intact_iff_three : ∃ v mgr, addCapabilities created threeRequests = .ok v ∧
    v.capMgr = some mgr ∧
    Always applyWrite (Intact (pciemBuildConfigSpace v).space mgr.caps)
      (pciemBuildConfigSpace v) [⟨0x40, 4, 0⟩, ⟨0x80, 4, 0xFEE00000⟩, ⟨0x7C, 1, 0x05⟩] := by
  have h : addCapabilities created threeRequests = .ok _ := rfl
  refine ⟨_, _, h, rfl, (structure_intact_iff fresh_created h rfl (by decide) (by decide)).mpr ?_⟩
  decide

/-- A dword write of zero to the first bytes of an MSI capability ends the list there. -/
theorem msi_header_write : ¬ ∀ (reqs : List PciemCapConfig) (v : PciemRootComplex)
    (mgr : PciemCapManager) (ws : List ConfWrite), addCapabilities created reqs = .ok v →
      v.capMgr = some mgr → Fits reqs → (∀ w ∈ ws, AlignedWrite w) →
      Always applyWrite (Intact (pciemBuildConfigSpace v).space mgr.caps)
        (pciemBuildConfigSpace v) ws := by
  intro hall
  have h := hall [.pcie, .msi ⟨0, 1, 0⟩] _ _ [⟨0x7C, 4, 0⟩] rfl rfl (by decide) (by decide)
  have hid := h.2.headers _ (List.mem_of_getElem? (i := 1) rfl) 0 (by decide)
  exact absurd hid (by decide)

end Pciem.Config.Structure
