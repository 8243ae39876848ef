import Pciem.Config.Structure
import Pciem.Config.TypedRegisters

namespace Pciem.Config.ByteView

open Kernel Library.ByteMemory Library.Replay
open Capabilities Layout Build Registers Access Effects Structure TypedRegisters

def AlignedRead (q n : ℕ) : Prop := (n = 1 ∨ n = 2 ∨ n = 4) ∧ n ∣ q

def readValue (v : PciemRootComplex) (q n : ℕ) : BitVec 32 := (pciemConfReadImpl (some v) q n).2

/-- Every aligned read that touches a typed register returns what single-byte reads of the
same range compose to. -/
def Agree (caps : List PciemCapEntry) (v : PciemRootComplex) : Prop :=
  ∀ entry ∈ caps, ∀ o reg, (o, reg) ∈ registers entry.cap → reg ≠ .msiMask →
    ∀ q n, AlignedRead q n → q < entry.base + o + reg.width → entry.base + o < q + n →
      readValue v q n = compose ((List.range n).map fun k ↦ readValue v (q + k) 1)

/-- A write of another place or size than a control word's own stores the bytes that are
already there wherever it meets the control word. -/
def KeepsControl (caps : List PciemCapEntry) (v : PciemRootComplex) (w : ConfWrite) : Prop :=
  ∀ entry ∈ caps, ∀ r ∈ registers entry.cap, ¬ (w.pos = entry.base + r.1 ∧ w.size = r.2.width) →
    ∀ k < w.size, entry.base + r.1 ≤ w.pos + k → w.pos + k < entry.base + r.1 + r.2.width →
      byte w.value k = v.space (w.pos + k)

instance (caps : List PciemCapEntry) (v : PciemRootComplex) (w : ConfWrite) :
    Decidable (KeepsControl caps v w) :=
  inferInstanceAs (Decidable (∀ entry ∈ caps, ∀ r ∈ registers entry.cap, _ → ∀ k < w.size, _))

/-- The bytes of every register hold its typed copy. -/
def Mirrors (v : PciemRootComplex) : Prop :=
  ∀ mgr, v.capMgr = some mgr → ∀ i : Fin mgr.caps.length, ∀ o reg,
    (o, reg) ∈ registers (mgr.caps.get i).cap → ∀ k < reg.width,
      v.space ((mgr.caps.get i).base + o + k) = byte (typed (mgr.caps.get i).cap reg) k

/-- The capability has a control word as its only register, if any. -/
def ControlOnly (cap : PciemCap) : Prop := cap.msi? = none

section Control

variable {cap : PciemCap} {o : ℕ} {reg : CapRegister}

theorem control_register (h : ControlOnly cap) (hreg : (o, reg) ∈ registers cap) :
    reg.width = 2 ∧ (∀ size, reg.Reads size ↔ size = 2) ∧ reg ≠ .msiMask ∧ (o = 2 ∨ o = 4 ∨ o = 6) ∧
      registers cap = [(o, reg)] := by
  cases cap with
  | msi => cases h
  | msix | pm | pasid =>
    cases List.mem_singleton.mp hreg
    exact ⟨rfl, fun _ ↦ Iff.rfl, by decide, by decide, rfl⟩
  | pcie | vsec => cases hreg

theorem typed_control (h : ControlOnly cap) (reg : CapRegister) :
    ∃ x : BitVec 16, typed cap reg = x.setWidth 32 := by
  cases cap with
  | msi => cases h
  | msix config state => cases reg <;> first | exact ⟨state.control, rfl⟩ | exact ⟨0, rfl⟩
  | pm config state => cases reg <;> first | exact ⟨state.control, rfl⟩ | exact ⟨0, rfl⟩
  | pasid config state => cases reg <;> first | exact ⟨state.control, rfl⟩ | exact ⟨0, rfl⟩
  | pcie | vsec => exact ⟨0, rfl⟩

theorem load_eq_typed (h : ControlOnly cap) {mem : Memory} {p : ℕ} :
    load mem p 2 = typed cap reg ↔ ∀ k < 2, mem (p + k) = byte (typed cap reg) k := by
  obtain ⟨x, hx⟩ := typed_control h reg
  rw [hx, load_eq_iff x rfl (by decide)]
  refine forall₂_congr fun k hk ↦ ?_
  rw [byte_setWidth x (by omega) (by decide)]

theorem controlOnly_of_frame {a b : PciemCapEntry} (h : frame a = frame b)
    (hb : ControlOnly b.cap) : ControlOnly a.cap := by
  have hcap : skeleton a.cap = skeleton b.cap := congrArg PciemCapEntry.cap h
  have hskel (cap : PciemCap) : (skeleton cap).msi? = cap.msi? := by cases cap <;> rfl
  rw [ControlOnly, ← hskel, hcap, hskel]
  exact hb

end Control

section Reads

variable {reqs : List PciemCapConfig} {mgr : PciemCapManager} (h : Requested reqs mgr)
  (hfits : Fits reqs) {v : PciemRootComplex} {entry : PciemCapEntry} {q n : ℕ}
include h hfits

/-- Inside a capability, a read that no register answers to is served from the bytes. -/
theorem readValue_raw (hv : Carries mgr.caps v) (he : entry ∈ mgr.caps)
    (hn : n = 1 ∨ n = 2 ∨ n = 4) (hlo : entry.base ≤ q) (hhi : q + n ≤ fin entry)
    (hr : ∀ r ∈ registers entry.cap, q = entry.base + r.1 → ¬ r.2.Reads n) :
    readValue v q n = load v.space q n := by
  obtain ⟨hd, mgr', hm, hf⟩ := hv
  have hsep := (h.validLayout hfits).separate
  have hge := h.base_ge hfits he
  obtain ⟨i, hcov, hfe⟩ := covering_of_frames hf hsep he hlo (by omega)
  have hin : InSpace q n := inSpace_of_separate hsep he hlo (by omega) hhi
  have hread : pciemHandleCapRead v q n = none := by
    rw [handleCapRead_eq hm hcov]
    cases hreg : readRegister (mgr'.caps.get i).cap (q - (mgr'.caps.get i).base) n with
    | none => rfl
    | some reg =>
      obtain ⟨hmem, hreads⟩ := readRegister_eq_some.mp hreg
      rw [registers_of_frame hfe, base_of_frame hfe] at hmem
      exact absurd hreads (hr _ hmem (by omega))
  have hrom : pciRomAddress < q := by
    rw [pciRomAddress]
    omega
  change (confRead v q n).2 = _
  rw [confRead_eq hd hin, hread]
  dsimp only
  rw [if_neg (not_isBar hrom), if_neg fun h ↦ ne_rom hrom h.1, readBytes_eq_load _ hn]

theorem compose_readValue (hv : Carries mgr.caps v) (he : entry ∈ mgr.caps)
    (hr : ∀ r ∈ registers entry.cap, ∀ k < n, q + k = entry.base + r.1 → ¬ r.2.Reads 1)
    (hlo : entry.base ≤ q) (hhi : q + n ≤ fin entry) :
    compose ((List.range n).map fun k ↦ readValue v (q + k) 1) = load v.space q n := by
  rw [load]
  congr 1
  refine List.map_congr_left fun k hk ↦ ?_
  have hk := List.mem_range.mp hk
  rw [readValue_raw h hfits hv he (.inl rfl) (by omega) (by omega) fun r hmem ↦ hr r hmem k hk,
    load_one]

theorem readValue_control {mgr' : PciemCapManager} (hd : v.detaching = false)
    (hm : v.capMgr = some mgr') (hf : mgr'.caps.map frame = mgr.caps.map frame)
    {i : Fin mgr'.caps.length} (hfe : frame (mgr'.caps.get i) = frame entry)
    {o : ℕ} {reg : CapRegister} (hreg : (o, reg) ∈ registers entry.cap) (hreads : reg.Reads 2)
    (hsize : o + 2 ≤ entry.size.toNat) :
    readValue v (entry.base + o) 2 = typed (mgr'.caps.get i).cap reg := by
  have hsep := separate_congr (h.validLayout hfits).separate hf
  change (confRead v (entry.base + o : ℕ) 2).2 = _
  rw [← base_of_frame hfe, confRead_register hd hm hsep (registers_of_frame hfe ▸ hreg) hreads
    (by decide) (by rw [fin_of_frame hfe, base_of_frame hfe, fin]; omega)]

omit hfits in
theorem control_inside (he : entry ∈ mgr.caps) (hc : ControlOnly entry.cap) {o : ℕ}
    {reg : CapRegister} (hreg : (o, reg) ∈ registers entry.cap) : o + 2 ≤ entry.size.toNat := by
  obtain ⟨hwidth, -, hmask, -⟩ := control_register hc hreg
  have := (register_inside hreg (register_lt_size hreg hmask)).1
  rw [h.size entry he]
  omega

theorem control_dword (he : entry ∈ mgr.caps) (hc : ControlOnly entry.cap) {o : ℕ}
    {reg : CapRegister} (hreg : (o, reg) ∈ registers entry.cap) (hal : AlignedRead q n) {p : ℕ}
    (hlo : entry.base + o ≤ p) (hhi : p < entry.base + o + 2) (hq : q ≤ p) (hp : p < q + n) :
    entry.base ≤ q ∧ q + n ≤ fin entry := by
  obtain ⟨-, -, -, ho, -⟩ := control_register hc hreg
  have hsize := control_inside h he hc hreg
  obtain ⟨b, hb⟩ := (h.validLayout hfits).aligned entry he
  obtain ⟨s, hs⟩ := h.size_dvd he
  have hw : AlignedWrite ⟨q, n, 0⟩ := hal
  have hdword : entry.base + o / 4 * 4 ≤ q ∧ q + n ≤ entry.base + o / 4 * 4 + 4 :=
    hw.dword (by omega) (by omega) (by omega) hq hp
  rw [fin]
  omega

/-- The typed state and the byte view agree exactly when the bytes mirror the typed state. -/
theorem agree_iff (hcontrol : ∀ entry ∈ mgr.caps, ControlOnly entry.cap)
    (hv : Carries mgr.caps v) : Agree mgr.caps v ↔ Mirrors v := by
  have hvalid := h.validLayout hfits
  obtain ⟨hd, mgr', hm, hf⟩ := id hv
  have hbytes {entry : PciemCapEntry} (he : entry ∈ mgr.caps) :
      ∀ r ∈ registers entry.cap, ¬ r.2.Reads 1 := fun r hr hreads ↦
    absurd ((control_register (hcontrol entry he) hr).2.1 1 |>.mp hreads) (by decide)
  constructor
  · intro hagree m hm' i o reg hreg k hk
    cases hm.symm.trans hm'
    obtain ⟨entry, he, hfe⟩ := exists_frame hf (List.get_mem _ i)
    rw [registers_of_frame hfe] at hreg
    have hc := hcontrol entry he
    obtain ⟨hwidth, hreads, hmask, ho, -⟩ := control_register hc hreg
    have hsize := control_inside h he hc hreg
    have hal : AlignedRead (entry.base + o) 2 := by
      obtain ⟨b, hb⟩ := hvalid.aligned entry he
      exact ⟨by decide, by omega⟩
    have hread := hagree entry he o reg hreg hmask _ 2 hal (by omega) (by omega)
    rw [readValue_control h hfits hd hm hf hfe hreg ((hreads 2).mpr rfl) hsize,
      compose_readValue h hfits hv he (fun r hr _ _ _ ↦ hbytes he r hr) (by omega)
        (by rw [fin]; omega)] at hread
    rw [base_of_frame hfe]
    exact (load_eq_typed (controlOnly_of_frame hfe hc)).mp hread.symm k (by omega)
  · intro hmirrors entry he o reg hreg hmask q n hal hlt hgt
    have hc := hcontrol entry he
    obtain ⟨hwidth, hreads, -, ho, hregs⟩ := control_register hc hreg
    have hsize := control_inside h he hc hreg
    have hinside : entry.base ≤ q ∧ q + n ≤ fin entry := by
      rcases Nat.lt_or_ge q (entry.base + o) with hq | hq
      · exact control_dword h hfits he hc hreg hal (Nat.le_refl _) (by omega) (by omega) hgt
      · refine control_dword h hfits he hc hreg hal hq (by omega) (Nat.le_refl q) ?_
        rcases hal.1 with rfl | rfl | rfl <;> omega
    rw [compose_readValue h hfits hv he (fun r hr _ _ _ ↦ hbytes he r hr) hinside.1 hinside.2]
    by_cases hexact : q = entry.base + o ∧ n = 2
    · obtain ⟨rfl, rfl⟩ := hexact
      obtain ⟨i, -, hfe⟩ := covering_of_frames hf hvalid.separate he (Nat.le_add_right _ o)
        (by rw [fin]; omega)
      rw [readValue_control h hfits hd hm hf hfe hreg ((hreads 2).mpr rfl) hsize]
      refine ((load_eq_typed (controlOnly_of_frame hfe hc)).mpr fun k hk ↦ ?_).symm
      have := hmirrors mgr' hm i o reg (registers_of_frame hfe ▸ hreg) k (by omega)
      rwa [base_of_frame hfe] at this
    · refine readValue_raw h hfits hv he hal.1 hinside.1 hinside.2 fun r hr hq hn ↦ ?_
      rw [hregs] at hr
      cases List.mem_singleton.mp hr
      exact hexact ⟨hq, (hreads n).mp hn⟩

theorem applyWrite_off_control (hv : Carries mgr.caps v) {w : ConfWrite} (hw : AlignedWrite w)
    (he : entry ∈ mgr.caps) (hc : ControlOnly entry.cap) {o : ℕ} {reg : CapRegister}
    (hreg : (o, reg) ∈ registers entry.cap)
    (hmiss : ¬ (w.pos = entry.base + o ∧ w.size = reg.width)) {p : ℕ}
    (hlo : entry.base + o ≤ p) (hhi : p < entry.base + o + 2) (hq : w.pos ≤ p)
    (hp : p < w.pos + w.size) :
    applyWrite v w = { v with space := store v.space w.pos (bytes w.value w.size) } := by
  obtain ⟨-, -, -, -, hregs⟩ := control_register hc hreg
  have hinside := control_dword h hfits he hc hreg hw hlo hhi hq hp
  have hdrops : ¬ Drops entry.cap := by
    intro hdrops
    cases hcap : entry.cap with
    | pcie | vsec => rw [hcap] at hreg; cases hreg
    | msi | msix | pm | pasid => rw [hcap] at hdrops; cases hdrops
  refine applyWrite_inside h hfits hv he hinside.1 hinside.2 hw.1 hdrops fun r hr ↦ ?_
  rw [hregs] at hr
  cases List.mem_singleton.mp hr
  exact hmiss

theorem mirrors_writeTyped (hcontrol : ∀ entry ∈ mgr.caps, ControlOnly entry.cap)
    {mgr' : PciemCapManager} (hm : v.capMgr = some mgr')
    (hf : mgr'.caps.map frame = mgr.caps.map frame) {i : Fin mgr'.caps.length} {o : ℕ}
    {reg : CapRegister} (hreg : (o, reg) ∈ registers (mgr'.caps.get i).cap) (hmirrors : Mirrors v)
    (value : BitVec 32) :
    Mirrors (writeTyped v mgr' i reg ((mgr'.caps.get i).base + o) value) := by
  have hdisj := (separate_congr (h.validLayout hfits).separate hf).disjoint
  have hinside (j : Fin mgr'.caps.length) {o : ℕ} {reg : CapRegister}
      (hreg : (o, reg) ∈ registers (mgr'.caps.get j).cap) :
      reg.width = 2 ∧ (mgr'.caps.get j).base + o + 2 ≤ fin (mgr'.caps.get j) ∧
        registers (mgr'.caps.get j).cap = [(o, reg)] := by
    obtain ⟨entry, he, hfe⟩ := exists_frame hf (List.get_mem _ j)
    rw [registers_of_frame hfe] at hreg ⊢
    obtain ⟨hwidth, -, -, -, hregs⟩ := control_register (hcontrol entry he) hreg
    have hsize := control_inside h he (hcontrol entry he) hreg
    rw [base_of_frame hfe, fin_of_frame hfe, fin]
    exact ⟨hwidth, by omega, hregs⟩
  obtain ⟨hwidth, hi, hregs⟩ := hinside i hreg
  intro m hm' j' o' reg' hreg' k hk
  cases hm'
  obtain ⟨j, rfl⟩ : ∃ j : Fin mgr'.caps.length, j.cast length_setCap.symm = j' :=
    ⟨j'.cast length_setCap, rfl⟩
  change store v.space _ _ _ = _
  rcases eq_or_ne j i with rfl | hne
  · rw [get_setCap_self] at hreg' ⊢
    dsimp only at hreg'
    rw [registers_setTyped, hregs] at hreg'
    cases List.mem_singleton.mp hreg'
    rw [typed_setTyped hreg]
    exact store_bytes hk
  · rw [get_setCap_of_ne hne] at hreg' ⊢
    obtain ⟨hwidth', hj, -⟩ := hinside j hreg'
    rw [store_outside, hmirrors mgr' hm j o' reg' hreg' k hk]
    rw [length_bytes]
    by_contra hin
    have hcov : covering mgr' ((mgr'.caps.get j).base + o' + k : ℕ) = some j :=
      covering_eq hdisj (by omega) (by omega)
    rw [covering_eq (i := i) hdisj (by omega) (by omega)] at hcov
    exact hne (Option.some.inj hcov).symm

theorem mirrors_raw (hcontrol : ∀ entry ∈ mgr.caps, ControlOnly entry.cap)
    {mgr' : PciemCapManager} (hm : v.capMgr = some mgr')
    (hf : mgr'.caps.map frame = mgr.caps.map frame) (hmirrors : Mirrors v) {w : ConfWrite}
    (hkeeps : KeepsControl mgr.caps v w)
    (hcap : pciemHandleCapWrite v w.pos w.size w.value = none) :
    Mirrors { v with space := store v.space w.pos (bytes w.value w.size) } := by
  have hsep := separate_congr (h.validLayout hfits).separate hf
  intro m hm' i o reg hreg k hk
  cases hm.symm.trans hm'
  rw [← hmirrors mgr' hm i o reg hreg k hk]
  change store v.space w.pos (bytes w.value w.size) _ = _
  rcases Nat.lt_or_ge ((mgr'.caps.get i).base + o + k) w.pos with hlo | hlo
  · exact store_outside (.inl hlo)
  rcases Nat.lt_or_ge ((mgr'.caps.get i).base + o + k) (w.pos + w.size) with hhi | hhi
  · obtain ⟨entry, he, hfe⟩ := exists_frame hf (List.get_mem _ i)
    have hbase := base_of_frame hfe
    have hreg' : (o, reg) ∈ registers entry.cap := registers_of_frame hfe ▸ hreg
    have hinside := control_inside h he (hcontrol entry he) hreg'
    have hmiss : ¬ (w.pos = entry.base + o ∧ w.size = reg.width) := by
      rintro ⟨hpos, hsize⟩
      have hcov : covering mgr' w.pos = some i :=
        covering_eq hsep.disjoint (by omega) (by rw [fin_of_frame hfe, fin]; omega)
      have hoff : w.pos - (mgr'.caps.get i).base = o := by omega
      rw [handleCapWrite_eq hm (based_of_separate hsep) hcov, hoff,
        writeRegister_eq_some.mpr ⟨hreg, hsize⟩] at hcap
      cases hcap
    obtain ⟨j, hj⟩ := Nat.exists_eq_add_of_le hlo
    rw [hj, store_bytes (by omega)]
    exact hkeeps entry he _ hreg' hmiss j (by omega) (by dsimp only; omega)
      (by dsimp only; omega)
  · exact store_outside (.inr (by rwa [length_bytes]))

/-- Where the bytes mirror the typed state, a write keeps it so exactly when it keeps every
control word that it meets in part. -/
theorem mirrors_step (hcontrol : ∀ entry ∈ mgr.caps, ControlOnly entry.cap)
    (hv : Carries mgr.caps v) {w : ConfWrite} (hw : AlignedWrite w) (hmirrors : Mirrors v) :
    Mirrors (applyWrite v w) ↔ KeepsControl mgr.caps v w := by
  obtain ⟨hd, mgr', hm, hf⟩ := id hv
  constructor
  · intro hafter entry he r hr hmiss k hk hlo hhi
    obtain ⟨o, reg⟩ := r
    dsimp only at hr hmiss hlo hhi
    have hc := hcontrol entry he
    obtain ⟨hwidth, -⟩ := control_register hc hr
    have hstore := applyWrite_off_control h hfits hv hw he hc hr hmiss hlo (by omega)
      (Nat.le_add_right _ k) (by omega)
    obtain ⟨entry', he', hfe⟩ := exists_frame hf.symm he
    obtain ⟨i, rfl⟩ := List.get_of_mem he'
    obtain ⟨j, hj⟩ := Nat.exists_eq_add_of_le hlo
    rw [registers_of_frame hfe] at hr
    rw [base_of_frame hfe] at hj hhi
    rw [hstore] at hafter
    have hnew := hafter mgr' hm i o reg hr j (by omega)
    have hold := hmirrors mgr' hm i o reg hr j (by omega)
    rw [hj]
    refine Eq.trans ?_ (hnew.trans hold.symm)
    change _ = store v.space w.pos (bytes w.value w.size) ((mgr'.caps.get i).base + o + j)
    rw [← hj, store_bytes hk]
  · intro hkeeps
    have heffect := carries_effect h hfits hv (w := w)
    generalize applyWrite v w = v' at heffect ⊢
    cases heffect with
    | ignored | bar => exact hmirrors
    | raw hcap hin => exact mirrors_raw h hfits hcontrol hm hf hmirrors hkeeps hcap
    | register hm' hc hpos hreg hsize =>
      cases hm.symm.trans hm'
      rw [hpos]
      exact mirrors_writeTyped h hfits hcontrol hm hf hreg hmirrors w.value

end Reads

section Start

theorem encode_control {req : PciemCapConfig} {entry : PciemCapEntry}
    (hreq : req.newCap = some entry.cap) (hkind : entry.isExtended = entry.cap.isExtended)
    (hc : ControlOnly entry.cap) {o : ℕ} {reg : CapRegister}
    (hreg : (o, reg) ∈ registers entry.cap) (post : List PciemCapEntry) :
    ∃ before after, encode entry post = before ++ (bytes (typed entry.cap reg) 2 ++ after) ∧
      before.length = o := by
  rw [encode, hkind]
  cases req with
  | msix msixCfg =>
    rw [← Option.some.inj hreq] at hreg ⊢
    cases List.mem_singleton.mp hreg
    obtain ⟨rest, hrest⟩ : ∃ rest, encodeMsix ⟨msixCfg.barIndex, msixCfg.tableOffset,
        msixCfg.pbaOffset, msixCfg.tableSize⟩ (nextStandard post) =
        [pciCapIdMsix, nextStandard post] ++
          (bytes ((msixCfg.tableSize - 1) &&& 0x7FF) 2 ++ rest) := by
      simp only [encodeMsix, List.append_assoc]
      exact ⟨_, rfl⟩
    exact ⟨_, rest, by rw [typed, bytes_setWidth]; exact hrest, rfl⟩
  | pm =>
    rw [← Option.some.inj hreq] at hreg ⊢
    cases List.mem_singleton.mp hreg
    exact ⟨[pciCapIdPm, nextStandard post] ++ bytes 0#16 2, [0, 0], rfl, rfl⟩
  | pasid pasidCfg =>
    rw [← Option.some.inj hreq] at hreg ⊢
    cases List.mem_singleton.mp hreg
    refine ⟨bytes (pciExtCapIdPasid ||| (1#32 <<< 16) |||
      ((nextExtended post).setWidth 32 <<< 20)) 4 ++ bytes 0#16 2, [], ?_, by simp⟩
    rw [typed, bytes_setWidth, List.append_nil]
    rfl
  | msi =>
    rw [← Option.some.inj hreq] at hc
    cases hc
  | pcie =>
    rw [← Option.some.inj hreq] at hreg
    cases hreg
  | unsupported => cases hreq

variable {reqs : List PciemCapConfig} {mgr : PciemCapManager} (h : Requested reqs mgr)
  (hfits : Fits reqs) {v : PciemRootComplex} (hm : v.capMgr = some mgr)
include h hfits hm

theorem holds_built {entry : PciemCapEntry} (he : entry ∈ mgr.caps) :
    ∃ post, Holds (pciemBuildConfigSpace v).space entry.base (encode entry post) := by
  have hbuilt := built hm (h.validLayout hfits) fun entry he ↦ contained_of_requested h he
  cases hk : entry.isExtended with
  | false => exact hbuilt.standard.holds he hk
  | true => exact hbuilt.extended.holds he hk

theorem mirrors_built (hcontrol : ∀ entry ∈ mgr.caps, ControlOnly entry.cap) :
    Mirrors (pciemBuildConfigSpace v) := by
  obtain ⟨space, heq⟩ := pciemBuildConfigSpace_eq v
  intro m hm' i o reg hreg k hk
  have hm' : v.capMgr = some m := by rwa [heq] at hm'
  cases hm.symm.trans hm'
  have he : (mgr.caps.get i) ∈ mgr.caps := List.get_mem _ i
  obtain ⟨req, -, hreq⟩ := h.newCap he
  obtain ⟨post, hpost⟩ := holds_built h hfits hm he
  obtain ⟨pre, rest, hencode, rfl⟩ :=
    encode_control hreq (h.kind _ he) (hcontrol _ he) hreg post
  obtain ⟨hwidth, -⟩ := control_register (hcontrol _ he) hreg
  rw [hencode] at hpost
  have hbytes := (holds_append.mp (holds_append.mp hpost).2).1 k (by simp; omega)
  rw [hbytes]
  simp [bytes]

omit h hfits hm in
/-- The first control byte of a 64-bit MSI capability is not 0. -/
theorem encodeMsi_control {msi : PciemCapMsiConfig} (h64 : msi.has64bit = true)
    (nextPtr : BitVec 8) : ∃ (control : BitVec 16) (rest : List (BitVec 8)), encodeMsi msi nextPtr =
      [pciCapIdMsi, nextPtr] ++ (bytes control 2 ++ rest) ∧ byte control 0 ≠ 0 := by
  simp only [encodeMsi, List.append_assoc]
  refine ⟨_, _, rfl, fun hzero ↦ ?_⟩
  have hbit := congrArg (·.getLsbD 7) hzero
  rw [h64] at hbit
  cases hmask : msi.hasPerVectorMasking <;>
    simp [byte, hmask, pciMsiFlags64bit, pciMsiFlagsMaskbit] at hbit

/-- The build leaves the 64-bit flag in the bytes of an MSI control word, and not in its
typed copy. -/
theorem not_agree_msi (hd : v.detaching = false) (hend : Endpoint mgr)
    {msi : PciemCapMsiUserspace} (hmsi : .msi msi ∈ reqs) :
    ¬ Agree mgr.caps (pciemBuildConfigSpace v) := by
  intro hagree
  obtain ⟨i, hcap⟩ : ∃ i : Fin mgr.caps.length, (mgr.caps.get i).cap = .msi
      ⟨msi.has64bit ≠ 0, msi.hasMasking ≠ 0, msi.numVectorsLog2⟩ ⟨0, 0, 0, 0, 0⟩ := by
    have hmem : .msi ⟨msi.has64bit ≠ 0, msi.hasMasking ≠ 0, msi.numVectorsLog2⟩
        ⟨0, 0, 0, 0, 0⟩ ∈ mgr.caps.map (·.cap) := by
      rw [h.caps]
      exact List.mem_filterMap.mpr ⟨_, hmsi, rfl⟩
    obtain ⟨entry, he, hcap⟩ := List.mem_map.mp hmem
    obtain ⟨i, rfl⟩ := List.get_of_mem he
    exact ⟨i, hcap⟩
  have he : (mgr.caps.get i) ∈ mgr.caps := List.get_mem _ i
  have h64 := hend.msi _ he _ _ hcap
  have hcarries := carries_built hm hd
  have hroom := (header_room h he).2
  have hreg : (2, .msiControl) ∈ registers (mgr.caps.get i).cap := by
    rw [hcap]
    exact List.mem_cons_self
  have hal : AlignedRead ((mgr.caps.get i).base + 2) 2 := by
    obtain ⟨b, hb⟩ := (h.validLayout hfits).aligned _ he
    exact ⟨by decide, by omega⟩
  have hread := hagree _ he 2 .msiControl hreg (by decide) _ 2 hal (by simp [CapRegister.width])
    (by omega)
  have hm' : (pciemBuildConfigSpace v).capMgr = some mgr := by
    obtain ⟨space, heq⟩ := pciemBuildConfigSpace_eq v
    rw [heq]
    exact hm
  have hbytes : ∀ r ∈ registers (mgr.caps.get i).cap, ∀ k < 2,
      (mgr.caps.get i).base + 2 + k = (mgr.caps.get i).base + r.1 → ¬ r.2.Reads 1 := by
    intro r hr k hk hpos
    rw [hcap, registers, h64] at hr
    simp only [if_true, List.mem_cons, List.not_mem_nil, or_false] at hr
    rcases hr with rfl | rfl | rfl | rfl | rfl
    · decide
    all_goals
      dsimp only at hpos
      omega
  rw [readValue_control h hfits hcarries.1 hm' rfl (i := i) rfl hreg rfl
      (by rw [fin] at hroom; omega),
    compose_readValue h hfits hcarries he hbytes (by omega) (by omega)] at hread
  rw [hcap] at hread
  have hzero := (load_eq_iff 0#16 rfl (by decide)).mp hread.symm 0 (by decide)
  obtain ⟨post, hpost⟩ := holds_built h hfits hm he
  obtain ⟨control, rest, hencode, hne⟩ := encodeMsi_control h64 (nextStandard post)
  rw [encode, h.kind _ he, hcap] at hpost
  change Holds _ _ (encodeMsi _ _) at hpost
  rw [hencode] at hpost
  have hcontrol := (holds_append.mp (holds_append.mp hpost).2).1 0 (by simp)
  refine hne ?_
  simpa [bytes, byte] using hcontrol.symm.trans hzero

end Start

/-- On a new function whose capabilities fit, the typed state and the byte view agree
throughout a run of aligned config writes if and only if no capability is an MSI one and
every write that meets a control word in part stores there what is there already. -/
theorem byte_view_agrees_iff {v v' : PciemRootComplex} {reqs : List PciemCapConfig}
    {mgr : PciemCapManager} (hfresh : Fresh v) (h : addCapabilities v reqs = .ok v')
    (hm : v'.capMgr = some mgr) (hfits : Fits reqs) {ws : List ConfWrite}
    (hws : ∀ w ∈ ws, AlignedWrite w) :
    Always applyWrite (Agree mgr.caps) (pciemBuildConfigSpace v') ws ↔
      (∀ msi, .msi msi ∉ reqs) ∧
        Each applyWrite (KeepsControl mgr.caps) (pciemBuildConfigSpace v') ws := by
  have hend := endpoint_of_requests hfresh.capMgr endpoint_empty h hm
  obtain ⟨mgr', rfl, hreq⟩ := requested hfresh.capMgr h
  cases hm
  by_cases hmsi : ∃ msi, .msi msi ∈ reqs
  · obtain ⟨msi, hmsi⟩ := hmsi
    have hnot := not_agree_msi hreq hfits (v := { v with capMgr := some mgr }) rfl
      hfresh.attached hend hmsi
    exact iff_of_false (fun hall ↦ hnot hall.head) fun hall ↦ hall.1 msi hmsi
  rw [not_exists] at hmsi
  rw [and_iff_right hmsi]
  have hcontrol : ∀ entry ∈ mgr.caps, ControlOnly entry.cap := by
    intro entry he
    obtain ⟨req, hmem, hnew⟩ := hreq.newCap he
    cases req with
    | msi msi => exact absurd hmem (hmsi msi)
    | msix | pcie | pasid | pm =>
      rw [← Option.some.inj hnew]
      rfl
    | unsupported => cases hnew
  have hcarries := carries_built (v := { v with capMgr := some mgr }) rfl hfresh.attached
  have hmirrors := mirrors_built hreq hfits (v := { v with capMgr := some mgr }) rfl hcontrol
  refine always_iff_each (I := Carries mgr.caps) (Q := AlignedWrite)
    (fun s w _ ↦ carries_step hreq hfits) (fun s w hw hs hagree ↦ ?_) hws hcarries
    ((agree_iff hreq hfits hcontrol hcarries).mpr hmirrors)
  rw [agree_iff hreq hfits hcontrol hs] at hagree
  rw [agree_iff hreq hfits hcontrol (carries_step hreq hfits hs)]
  exact mirrors_step hreq hfits hcontrol hs hw hagree

theorem byte_view_agrees_iff_four : ∃ v mgr,
    addCapabilities created [.pcie, .msix ⟨0, 0, 0x800, 8⟩, .pasid ⟨20, 0, 0⟩, .pm] = .ok v ∧
      v.capMgr = some mgr ∧ Always applyWrite (Agree mgr.caps) (pciemBuildConfigSpace v)
        [⟨0x7E, 2, 0xC000⟩, ⟨0x7F, 1, 0xC0⟩, ⟨0x8C, 2, 0x0103⟩, ⟨0x106, 2, 0x7⟩,
          ⟨0x200, 4, 0xFF⟩] := by
  have h : addCapabilities created [.pcie, .msix ⟨0, 0, 0x800, 8⟩, .pasid ⟨20, 0, 0⟩, .pm] =
    .ok _ := rfl
  refine ⟨_, _, h, rfl, (byte_view_agrees_iff fresh_created h rfl (by decide) (by decide)).mpr
    ⟨by simp, ?_⟩⟩
  decide

/-- Right after the build, the control word of an MSI capability reads 0 as a word and 0x80
as two bytes. -/
theorem msi_control_disagrees : ¬ ∀ (reqs : List PciemCapConfig) (v : PciemRootComplex)
    (mgr : PciemCapManager) (ws : List ConfWrite), addCapabilities created reqs = .ok v →
      v.capMgr = some mgr → (∀ w ∈ ws, AlignedWrite w) →
      Always applyWrite (Agree mgr.caps) (pciemBuildConfigSpace v) ws := by
  intro hall
  have h := hall [.pcie, .msi ⟨0, 1, 0⟩] _ _ [] rfl rfl (by decide)
  have hread := h _ (List.mem_of_getElem? (i := 1) rfl) 2 .msiControl (by decide) (by decide)
    0x7E 2 ⟨by decide, by decide⟩ (by decide) (by decide)
  exact absurd hread (by decide)

end Pciem.Config.ByteView
