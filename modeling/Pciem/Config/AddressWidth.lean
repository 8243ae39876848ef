import Pciem.Config.Capabilities
import Pciem.Library.Replay
import Mathlib.Tactic.ByContra

namespace Pciem.Config.AddressWidth

open Kernel Capabilities Library.Replay

/-- A call of one of the `pciem_add_cap_*` functions. -/
inductive AddCap
  | msi (cfg : PciemCapMsiConfig)
  | msix (cfg : PciemCapMsixConfig)
  | pm (cfg : PciemCapPmConfig)
  | pcie (cfg : PciemCapPcieConfig)
  | vsec (cfg : PciemCapVsecConfig) (allocated : Bool)
  | pasid (cfg : PciemCapPasidConfig)

def call (v : PciemRootComplex) : AddCap → Except Errno PciemRootComplex
  | .msi cfg => pciemAddCapMsi v cfg
  | .msix cfg => pciemAddCapMsix v cfg
  | .pm cfg => pciemAddCapPm v cfg
  | .pcie cfg => pciemAddCapPcie v cfg
  | .vsec cfg allocated => pciemAddCapVsec v cfg allocated
  | .pasid cfg => pciemAddCapPasid v cfg

/-- A call that fails changes nothing. -/
def step (v : PciemRootComplex) (a : AddCap) : PciemRootComplex :=
  match call v a with
  | .ok v' => v'
  | .error _ => v

def pcies (mgr : PciemCapManager) : List PciemCapPcieConfig :=
  mgr.caps.filterMap fun entry ↦ entry.cap.pcie?

def msis (mgr : PciemCapManager) : List PciemCapMsiConfig :=
  mgr.caps.filterMap fun entry ↦ entry.cap.msi?

/-- Some PCIe capability is of an endpoint. -/
def HasEndpoint (mgr : PciemCapManager) : Prop :=
  ∃ pcie ∈ pcies mgr, pcie.deviceType = pciExpTypeEndpoint

/-- Some MSI capability has 32-bit addresses. -/
def HasNarrow (mgr : PciemCapManager) : Prop :=
  ∃ msi ∈ msis mgr, msi.has64bit = false

/-- No MSI capability is without a PCIe capability before it. -/
def Preceded (caps : List PciemCapEntry) : Prop :=
  ∀ before entry after, caps = before ++ entry :: after → entry.cap.msi?.isSome = true →
    ∃ e ∈ before, e.cap.pcie?.isSome = true

def Ordered (v : PciemRootComplex) : Prop := ∀ mgr, v.capMgr = some mgr → Preceded mgr.caps

structure Sane (v : PciemRootComplex) : Prop where
  wide : ∀ mgr, v.capMgr = some mgr → HasEndpoint mgr → ∀ msi ∈ msis mgr, msi.has64bit = true
  ordered : Ordered v

/-- Where a capability goes against one of the other kind, the first of that kind shows it. -/
def Shown (v : PciemRootComplex) : AddCap → Prop
  | .msi cfg => ∀ mgr, v.capMgr = some mgr → mgr.caps.length < maxPciCaps →
      cfg.has64bit = false → HasEndpoint mgr →
      ∀ pcie, pciemCapManagerFind mgr PciemCap.pcie? = some pcie →
        pcie.deviceType = pciExpTypeEndpoint
  | .pcie cfg => ∀ mgr, v.capMgr = some mgr → mgr.caps.length < maxPciCaps →
      cfg.deviceType = pciExpTypeEndpoint → HasNarrow mgr →
      ∀ msi, pciemCapManagerFind mgr PciemCap.msi? = some msi → msi.has64bit = false
  | _ => True

section Add

variable {v : PciemRootComplex} {mgr : PciemCapManager}

theorem find_eq_head? {α : Type} (mgr : PciemCapManager) (config? : PciemCap → Option α) :
    pciemCapManagerFind mgr config? = (mgr.caps.filterMap fun entry ↦ config? entry.cap).head? :=
  List.head?_filterMap.symm

theorem pcies_add (hl : mgr.caps.length < maxPciCaps) (isExtended : Bool) (size : BitVec 8)
    (cap : PciemCap) :
    pcies (mgr.add hl isExtended size cap) = pcies mgr ++ cap.pcie?.toList := by
  cases cap <;> simp [pcies, PciemCapManager.add, PciemCap.pcie?]

theorem msis_add (hl : mgr.caps.length < maxPciCaps) (isExtended : Bool) (size : BitVec 8)
    (cap : PciemCap) :
    msis (mgr.add hl isExtended size cap) = msis mgr ++ cap.msi?.toList := by
  cases cap <;> simp [msis, PciemCapManager.add, PciemCap.msi?]

theorem checkWidth_eq_ok {deviceType : BitVec 8} {has64bit : Bool} :
    pciemCheckMsiAddressWidth deviceType has64bit = .ok () ↔
      (deviceType = pciExpTypeEndpoint → has64bit = true) := by
  by_cases h : deviceType = pciExpTypeEndpoint ∧ ¬ has64bit
  · rw [pciemCheckMsiAddressWidth, if_pos h]
    exact iff_of_false (fun heq ↦ by cases heq) fun hwide ↦ h.2 (hwide h.1)
  · rw [pciemCheckMsiAddressWidth, if_neg h]
    exact iff_of_true rfl fun htype ↦ Classical.not_not.mp (not_and.mp h htype)

/-- What a capability that is added has been checked against. -/
structure Checked (mgr : PciemCapManager) (a : AddCap) (cap : PciemCap) : Prop where
  msi : ∀ cfg, cap.msi? = some cfg → a = .msi cfg ∧
    ∃ pcie, pciemCapManagerFind mgr PciemCap.pcie? = some pcie ∧
      (pcie.deviceType = pciExpTypeEndpoint → cfg.has64bit = true)
  pcie : ∀ cfg, cap.pcie? = some cfg → a = .pcie cfg ∧
    ∀ msi, pciemCapManagerFind mgr PciemCap.msi? = some msi →
      cfg.deviceType = pciExpTypeEndpoint → msi.has64bit = true

theorem checked_of_neither {a : AddCap} {cap : PciemCap} (hmsi : cap.msi? = none)
    (hpcie : cap.pcie? = none) : Checked mgr a cap where
  msi cfg h := absurd (h.symm.trans hmsi) (Option.some_ne_none cfg)
  pcie cfg h := absurd (h.symm.trans hpcie) (Option.some_ne_none cfg)

theorem step_cases (v : PciemRootComplex) (a : AddCap) : step v a = v ∨
    ∃ mgr, ∃ hl : mgr.caps.length < maxPciCaps, ∃ isExtended size cap, v.capMgr = some mgr ∧
      Checked mgr a cap ∧
      step v a = { v with capMgr := some (mgr.add hl isExtended size cap) } := by
  have key {check : PciemCapManager → Except Errno Unit} {isExtended : Bool} {size : BitVec 8}
      {cap : PciemCap} (hcall : call v a = addCap v check isExtended size cap)
      (hcheck : ∀ mgr, check mgr = .ok () → Checked mgr a cap) : step v a = v ∨
      ∃ mgr, ∃ hl : mgr.caps.length < maxPciCaps, ∃ isExtended size cap, v.capMgr = some mgr ∧
        Checked mgr a cap ∧
        step v a = { v with capMgr := some (mgr.add hl isExtended size cap) } := by
    rw [step, hcall]
    cases h : addCap v check isExtended size cap with
    | error e => exact .inl rfl
    | ok v' =>
      obtain ⟨mgr, hl, hm, hok, rfl⟩ := addCap_eq_ok h
      exact .inr ⟨mgr, hl, isExtended, size, cap, hm, hcheck mgr hok, rfl⟩
  cases a with
  | msi cfg =>
    refine key rfl fun mgr hok ↦ ⟨fun cfg' h ↦ ?_, fun cfg' h ↦ ?_⟩
    · cases h
      cases hfind : pciemCapManagerFind mgr PciemCap.pcie? with
      | none =>
        rw [hfind] at hok
        cases hok
      | some pcie =>
        rw [hfind] at hok
        exact ⟨rfl, pcie, rfl, checkWidth_eq_ok.mp hok⟩
    · cases h
  | pcie cfg =>
    refine key rfl fun mgr hok ↦ ⟨fun cfg' h ↦ ?_, fun cfg' h ↦ ?_⟩
    · cases h
    · cases h
      refine ⟨rfl, fun msi hfind ↦ ?_⟩
      rw [hfind] at hok
      exact checkWidth_eq_ok.mp hok
  | msix cfg | pm cfg | vsec cfg allocated | pasid cfg =>
    exact key rfl fun mgr _ ↦ checked_of_neither rfl rfl

/-- The calls that go against a capability which the first of its kind does not show succeed. -/
theorem step_msi {cfg : PciemCapMsiConfig} {pcie : PciemCapPcieConfig} (hm : v.capMgr = some mgr)
    (hl : mgr.caps.length < maxPciCaps)
    (hfind : pciemCapManagerFind mgr PciemCap.pcie? = some pcie)
    (hok : pcie.deviceType = pciExpTypeEndpoint → cfg.has64bit = true) :
    step v (.msi cfg) = { v with
      capMgr := some (mgr.add hl false (msiCapSize cfg) (.msi cfg ⟨0, 0, 0, 0, 0⟩)) } := by
  simp only [step, call, pciemAddCapMsi, addCap, hm, dif_pos hl, hfind, checkWidth_eq_ok.mpr hok]
  rfl

theorem step_pcie {cfg : PciemCapPcieConfig} {msi : PciemCapMsiConfig} (hm : v.capMgr = some mgr)
    (hl : mgr.caps.length < maxPciCaps)
    (hfind : pciemCapManagerFind mgr PciemCap.msi? = some msi)
    (hok : cfg.deviceType = pciExpTypeEndpoint → msi.has64bit = true) :
    step v (.pcie cfg) = { v with capMgr := some (mgr.add hl false 60 (.pcie cfg)) } := by
  simp only [step, call, pciemAddCapPcie, addCap, hm, dif_pos hl, hfind, checkWidth_eq_ok.mpr hok]
  rfl

theorem exists_of_find {α : Type} {config? : PciemCap → Option α} {x : α}
    (h : pciemCapManagerFind mgr config? = some x) :
    ∃ e ∈ mgr.caps, (config? e.cap).isSome = true := by
  obtain ⟨e, he, hx⟩ := List.exists_of_findSome?_eq_some h
  exact ⟨e, he, Option.isSome_of_eq_some hx⟩

theorem preceded_append {caps : List PciemCapEntry} {entry : PciemCapEntry} (h : Preceded caps)
    (hnew : entry.cap.msi?.isSome = true → ∃ e ∈ caps, e.cap.pcie?.isSome = true) :
    Preceded (caps ++ [entry]) := by
  intro before e after heq hmsi
  rcases List.eq_nil_or_concat after with rfl | ⟨after, last, rfl⟩
  · obtain ⟨rfl, hlast⟩ := List.append_inj' heq rfl
    cases hlast
    exact hnew hmsi
  · rw [List.concat_eq_append, ← List.cons_append, ← List.append_assoc] at heq
    exact h before e after (List.append_inj' heq rfl).1 hmsi

/-- What a new capability keeps where it goes with all that are there. -/
structure Fits (mgr : PciemCapManager) (cap : PciemCap) : Prop where
  msi : ∀ cfg, cap.msi? = some cfg → HasEndpoint mgr → cfg.has64bit = true
  pcie : ∀ cfg, cap.pcie? = some cfg → cfg.deviceType = pciExpTypeEndpoint → ¬ HasNarrow mgr

theorem Checked.fits {a : AddCap} {cap : PciemCap} (h : Checked mgr a cap)
    (hm : v.capMgr = some mgr) (hl : mgr.caps.length < maxPciCaps) (hshown : Shown v a) :
    Fits mgr cap where
  msi cfg hcap hendpoint := by
    obtain ⟨rfl, pcie, hfind, hok⟩ := h.msi cfg hcap
    by_contra hno
    have hnarrow : cfg.has64bit = false := Bool.eq_false_iff.mpr hno
    exact hno (hok (hshown mgr hm hl hnarrow hendpoint pcie hfind))
  pcie cfg hcap htype hnarrow := by
    obtain ⟨rfl, hok⟩ := h.pcie cfg hcap
    have hne : msis mgr ≠ [] := List.ne_nil_of_mem hnarrow.choose_spec.1
    have hfind : pciemCapManagerFind mgr PciemCap.msi? = some ((msis mgr).head hne) :=
      (find_eq_head? mgr _).trans (List.head?_eq_some_head hne)
    have hwide := hok _ hfind htype
    rw [hshown mgr hm hl htype hnarrow _ hfind] at hwide
    exact Bool.noConfusion hwide

theorem msi_none_or_pcie_none (cap : PciemCap) : cap.msi? = none ∨ cap.pcie? = none := by
  cases cap with
  | msi => exact .inr rfl
  | msix | pm | pcie | vsec | pasid => exact .inl rfl

theorem wide_add {cap : PciemCap} (hl : mgr.caps.length < maxPciCaps) (isExtended : Bool)
    (size : BitVec 8) (h : HasEndpoint mgr → ∀ msi ∈ msis mgr, msi.has64bit = true)
    (hfits : Fits mgr cap) : HasEndpoint (mgr.add hl isExtended size cap) →
      ∀ msi ∈ msis (mgr.add hl isExtended size cap), msi.has64bit = true := by
  rintro ⟨pcie, hpcie, htype⟩ msi hmsi
  rw [pcies_add, List.mem_append, Option.mem_toList] at hpcie
  rw [msis_add, List.mem_append, Option.mem_toList] at hmsi
  rcases hpcie with hpcie | hpcie
  · rcases hmsi with hmsi | hmsi
    · exact h ⟨pcie, hpcie, htype⟩ msi hmsi
    · exact hfits.msi msi hmsi ⟨pcie, hpcie, htype⟩
  · rcases hmsi with hmsi | hmsi
    · by_contra hno
      exact hfits.pcie pcie hpcie htype ⟨msi, hmsi, Bool.eq_false_iff.mpr hno⟩
    · rcases msi_none_or_pcie_none cap with hnone | hnone
      · exact absurd (hmsi.symm.trans hnone) (Option.some_ne_none msi)
      · exact absurd (hpcie.symm.trans hnone) (Option.some_ne_none pcie)

theorem Ordered.step (h : Ordered v) (a : AddCap) : Ordered (step v a) := by
  rcases step_cases v a with hs | ⟨mgr, hl, isExtended, size, cap, hm, hchecked, hs⟩
  · rwa [hs]
  · rw [hs]
    intro mgr' hmgr'
    cases hmgr'
    refine preceded_append (h mgr hm) fun hmsi ↦ ?_
    obtain ⟨cfg, hcfg⟩ := Option.isSome_iff_exists.mp hmsi
    obtain ⟨-, pcie, hfind, -⟩ := hchecked.msi cfg hcfg
    exact exists_of_find hfind

theorem Sane.step (h : Sane v) {a : AddCap} (hshown : Shown v a) : Sane (step v a) := by
  refine ⟨?_, h.ordered.step a⟩
  rcases step_cases v a with hs | ⟨mgr, hl, isExtended, size, cap, hm, hchecked, hs⟩
  · rw [hs]
    exact h.wide
  · rw [hs]
    intro mgr' hmgr'
    cases hmgr'
    exact wide_add hl isExtended size (h.wide mgr hm) (hchecked.fits hm hl hshown)

theorem not_sane_of_not_shown {a : AddCap} (hshown : ¬ Shown v a) :
    ¬ Sane (AddressWidth.step v a) := by
  intro hsane
  cases a with
  | msi cfg =>
    simp only [Shown, not_forall] at hshown
    obtain ⟨mgr, hm, hl, hnarrow, ⟨pcie', hmem, htype⟩, pcie, hfind, hother⟩ := hshown
    rw [step_msi hm hl hfind fun h ↦ absurd h hother] at hsane
    have hwide := hsane.wide _ rfl
      ⟨pcie', by rw [pcies_add]; exact List.mem_append_left _ hmem, htype⟩ cfg
      (by rw [msis_add]; exact List.mem_append_right _ (List.mem_singleton_self cfg))
    exact Bool.noConfusion (hwide.symm.trans hnarrow)
  | pcie cfg =>
    simp only [Shown, not_forall] at hshown
    obtain ⟨mgr, hm, hl, htype, ⟨msi', hmem, hnarrow⟩, msi, hfind, hother⟩ := hshown
    rw [step_pcie hm hl hfind fun _ ↦ Bool.not_eq_false _ ▸ hother] at hsane
    have hwide := hsane.wide _ rfl
      ⟨cfg, by rw [pcies_add]; exact List.mem_append_right _ (List.mem_singleton_self cfg), htype⟩
      msi' (by rw [msis_add]; exact List.mem_append_left _ hmem)
    exact Bool.noConfusion (hwide.symm.trans hnarrow)
  | msix | pm | vsec | pasid => exact hshown trivial

end Add

def initial (allocated : Bool) : PciemRootComplex :=
  pciemInitCapManager pciemAllocRootComplex allocated

theorem sane_initial (allocated : Bool) : Sane (initial allocated) := by
  cases allocated with
  | false =>
    exact ⟨fun mgr h ↦ absurd h.symm (Option.some_ne_none mgr),
      fun mgr h ↦ absurd h.symm (Option.some_ne_none mgr)⟩
  | true =>
    refine ⟨fun mgr h ↦ ?_, fun mgr h ↦ ?_⟩
    · cases h
      rintro ⟨pcie, hpcie, -⟩
      exact absurd hpcie List.not_mem_nil
    · cases h
      intro before entry after heq
      exact absurd heq.symm (List.append_ne_nil_of_right_ne_nil _ (List.cons_ne_nil _ _))

/-- No MSI capability comes without a PCIe capability before it; and endpoints have 64-bit addresses
throughout just where each conflict is one that the first capability of its kind shows. -/
theorem sane_iff_shown (allocated : Bool) (calls : List AddCap) :
    Always step Ordered (initial allocated) calls ∧
    (Always step Sane (initial allocated) calls ↔ Each step Shown (initial allocated) calls) :=
  ⟨always_of_kept (fun _ a h ↦ h.step a) (sane_initial allocated).ordered calls,
    always_iff_each_of_lost (fun _ h ↦ h) (fun _ _ h hshown ↦ h.step hshown)
      (fun _ _ _ hshown ↦ not_sane_of_not_shown hshown) (sane_initial allocated)⟩

/-- The first PCIe capability is of a legacy endpoint, and the second is not looked at. -/
theorem endpoint_has_narrow : ¬ ∀ allocated calls, Always step Sane (initial allocated) calls := by
  intro h
  have hsane := (h true [.pcie ⟨1, 0, 0⟩, .pcie ⟨0, 0, 0⟩, .msi ⟨false, false, 0⟩]).last
  have hwide := hsane.wide _ rfl ⟨⟨0, 0, 0⟩, .tail _ (.head _), rfl⟩ ⟨false, false, 0⟩ (.head _)
  exact Bool.noConfusion hwide

end Pciem.Config.AddressWidth
