import Mathlib.Data.List.Basic
import Pciem.Library.Intervals
import Pciem.P2p.Regions

namespace Pciem.P2p.Whitelist

open Kernel Library.Replay Library.Intervals Regions

variable {τ : Type} {region r r' : PciemP2pRegion} {access : Access} {x : BitVec 64}
  {mgr : PciemP2pManager}

/-- What is copied is the part of the mapping that stands for the range. -/
def Confined (region : PciemP2pRegion) (access : Access) : Prop :=
  ∃ offset : ℕ, offset + access.len.toNat ≤ region.size.toNat ∧
    region.address access = region.kaddr + BitVec.ofNat 64 offset ∧
    access.physAddr = region.physStart + BitVec.ofNat 64 offset

/-- A copy is made in a region of the list, and stays in it. -/
def CopiesConfined (m : Machine τ) : Action τ → Prop
  | .copy t => ∀ access, m.checked t = some access →
    ∀ region, pciemP2pGetRegion m.mgr access.physAddr = some region →
      region ∈ m.mgr.regions ∧ Confined region access
  | _ => True

/-- The whitelist is used, and none is added to it. -/
def Uses : Action τ → Prop
  | .unregister _ | .check _ _ | .copy _ => True
  | _ => False

/-- Every copy stays in its region, in whatever way the whitelist is used from here on. -/
def Sound [DecidableEq τ] (m : Machine τ) : Prop :=
  ∀ as : List (Action τ), (∀ a ∈ as, Uses a) → Each step CopiesConfined m as

def registeredRegion (phys size : BitVec 64) (kaddr : Option (BitVec 64)) :
    Option PciemP2pRegion :=
  if size = 0 ∨ size > pciemP2pMaxTransfer then none
  else kaddr.map fun kaddr ↦ ⟨phys, size, kaddr⟩

/-- The region that the action adds. -/
def added (m : Machine τ) : Action τ → Option PciemP2pRegion
  | .parseToken token kaddr => parsedRegion m.mgr token kaddr
  | .register phys size kaddr => registeredRegion phys size kaddr
  | _ => none

/-- A new region ends where the regions end that it overlaps, and does not have the first address
of a range that is checked without having all of it. -/
structure Fits (m : Machine τ) (region : PciemP2pRegion) : Prop where
  regions : ∀ r ∈ m.mgr.regions, ∀ x, region.Has x → r.Has x → region.regionEnd = r.regionEnd
  checked : ∀ t access, m.checked t = some access → region.Has access.physAddr →
    access.accessEnd ≤ region.regionEnd

def Fitting (m : Machine τ) (a : Action τ) : Prop :=
  ∀ region, added m a = some region → Fits m region

section Region

def extent (region : PciemP2pRegion) : Extent ℕ :=
  ⟨region.physStart.toNat, region.regionEnd.toNat⟩

theorem has_iff : region.Has x ↔ (extent region).Has x.toNat := Iff.rfl

theorem allows_iff : region.Allows access ↔
    (extent region).Holds access.physAddr.toNat access.accessEnd.toNat := Iff.rfl

/-- A range that `pciem_p2p_validate_access` may accept. -/
structure Valid (access : Access) : Prop where
  len : access.len ≠ 0
  noWrap : ¬ access.accessEnd < access.physAddr

theorem Valid.lt (h : Valid access) : access.physAddr.toNat < access.accessEnd.toNat := by
  obtain ⟨hlen, hwrap⟩ := h
  rw [Access.accessEnd] at hwrap ⊢
  bv_omega

theorem Valid.toNat (h : Valid access) :
    access.accessEnd.toNat = access.physAddr.toNat + access.len.toNat := by
  obtain ⟨hlen, hwrap⟩ := h
  rw [Access.accessEnd] at hwrap ⊢
  bv_omega

/-- A region that has an address does not run past the last one. -/
theorem regionEnd_toNat (h : region.Has x) :
    region.regionEnd.toNat = region.physStart.toNat + region.size.toNat := by
  obtain ⟨hlow, hhigh⟩ := h
  rw [PciemP2pRegion.regionEnd] at hhigh ⊢
  bv_omega

theorem confined_iff (hvalid : Valid access) (hhas : region.Has access.physAddr) :
    Confined region access ↔ region.Allows access := by
  have haccess := hvalid.toNat
  have hregion := regionEnd_toNat hhas
  have hend := region.regionEnd.isLt
  have hlow : region.physStart.toNat ≤ access.physAddr.toNat := hhas.1
  rw [allows_iff, (has_iff.mp hhas).holds_iff, haccess, extent, hregion]
  dsimp only
  constructor
  · rintro ⟨offset, hle, -, hphys⟩
    have hnat : access.physAddr.toNat = region.physStart.toNat + offset := by
      rw [hphys, BitVec.toNat_add, BitVec.toNat_ofNat]
      omega
    omega
  · intro hle
    have hoffset := BitVec.toNat_sub_of_le hhas.1
    refine ⟨(access.physAddr - region.physStart).toNat, ?_, ?_, ?_⟩
    · omega
    · rw [BitVec.ofNat_toNat, BitVec.setWidth_eq]
      rfl
    · rw [BitVec.ofNat_toNat, BitVec.setWidth_eq]
      bv_omega

end Region

section Calls

variable {m : Machine τ} {a : Action τ}

theorem getRegion_some (h : pciemP2pGetRegion mgr x = some region) :
    region ∈ mgr.regions ∧ region.Has x := by
  rw [pciemP2pGetRegion] at h
  exact ⟨List.mem_of_find?_eq_some h, by simpa using List.find?_some h⟩

theorem validateAccess_ok (h : pciemP2pValidateAccess mgr access = .ok ()) :
    Valid access ∧ ∃ region ∈ mgr.regions, region.Allows access := by
  rw [pciemP2pValidateAccess] at h
  split_ifs at h with _ hlen hwrap hregion
  exact ⟨⟨fun hno ↦ hlen (.inl hno), hwrap⟩, hregion⟩

theorem mem_unregister {phys : BitVec 64}
    (h : r ∈ (pciemP2pUnregisterRegion mgr phys).2.regions) : r ∈ mgr.regions := by
  rw [pciemP2pUnregisterRegion] at h
  split_ifs at h
  · exact List.mem_of_mem_eraseP h
  · exact h

theorem registerRegion_snd (mgr : PciemP2pManager) (phys size : BitVec 64)
    (kaddr : Option (BitVec 64)) : (pciemP2pRegisterRegion mgr phys size kaddr).2 =
      (registeredRegion phys size kaddr).elim mgr fun region ↦
        { mgr.insert region with enabled := true } := by
  unfold pciemP2pRegisterRegion registeredRegion
  split_ifs
  · rfl
  · cases kaddr with
    | none => rfl
    | some kaddr => rfl

/-- What is in the list after a step was there before, or is the region that the step adds. -/
theorem mem_step [DecidableEq τ] (h : r ∈ (step m a).mgr.regions) :
    r ∈ m.mgr.regions ∨ added m a = some r := by
  cases a with
  | parseToken token kaddr =>
    rw [step, parseToken] at h
    rw [added]
    cases hparsed : parsedRegion m.mgr token kaddr with
    | none =>
      rw [hparsed] at h
      exact .inl h
    | some region =>
      rw [hparsed] at h
      simpa [PciemP2pManager.insert, eq_comm] using h
  | parseEnd count =>
    rw [step] at h
    dsimp only at h
    split_ifs at h
    · exact .inl h
    · exact .inl h
  | register phys size kaddr =>
    rw [step, registerRegion_snd] at h
    rw [added]
    cases hregistered : registeredRegion phys size kaddr with
    | none =>
      rw [hregistered] at h
      exact .inl h
    | some region =>
      rw [hregistered] at h
      simpa [PciemP2pManager.insert, eq_comm] using h
  | unregister phys => exact .inl (mem_unregister h)
  | check t access =>
    rw [step] at h
    split at h
    · exact .inl h
    · exact .inl h
  | copy t => exact .inl h

theorem limit_step [DecidableEq τ] (m : Machine τ) (a : Action τ) :
    (step m a).mgr.maxTransferSize = m.mgr.maxTransferSize := by
  cases a with
  | parseToken token kaddr =>
    rw [step, parseToken]
    split
    · rfl
    · rfl
  | parseEnd count =>
    rw [step]
    dsimp only
    split_ifs
    · rfl
    · rfl
  | register phys size kaddr =>
    rw [step, registerRegion_snd]
    cases registeredRegion phys size kaddr with
    | none => rfl
    | some region => rfl
  | unregister phys =>
    rw [step, pciemP2pUnregisterRegion]
    split_ifs
    · rfl
    · rfl
  | check t access =>
    rw [step]
    split
    · rfl
    · rfl
  | copy t => rfl

/-- What a thread has had checked after a step is checked in it, or was before. -/
theorem checked_step [DecidableEq τ] {t : τ} (h : (step m a).checked t = some access) :
    m.checked t = some access ∨
      a = .check t access ∧ pciemP2pValidateAccess m.mgr access = .ok () := by
  cases a with
  | parseToken | parseEnd | register | unregister => exact .inl h
  | check u access' =>
    rw [step] at h
    split at h
    · rename_i hvalid
      by_cases hu : t = u
      · subst hu
        simp only [Function.update_self, Option.some.injEq] at h
        subst h
        exact .inr ⟨rfl, hvalid⟩
      · simp only [Function.update_of_ne hu] at h
        exact .inl h
    · exact .inl h
  | copy u =>
    rw [step] at h
    by_cases hu : t = u
    · subst hu
      simp at h
    · simp only [Function.update_of_ne hu] at h
      exact .inl h

end Calls

section Kept

variable {m : Machine τ} {a : Action τ}

/-- Regions that overlap end at the same address, and a region that has the first address of a
range that is checked has all of it. -/
structure Inv (m : Machine τ) : Prop where
  limit : m.mgr.maxTransferSize = pciemP2pMaxTransfer
  coterminal : ∀ r ∈ m.mgr.regions, ∀ r' ∈ m.mgr.regions, Coterminal (extent r) (extent r')
  valid : ∀ t access, m.checked t = some access → Valid access
  allows : ∀ t access, m.checked t = some access → ∀ r ∈ m.mgr.regions,
    r.Has access.physAddr → r.Allows access

theorem Inv.allows_of_validate (h : Inv m) (hvalid : pciemP2pValidateAccess m.mgr access = .ok ())
    (hr : r ∈ m.mgr.regions) (hhas : r.Has access.physAddr) : r.Allows access := by
  obtain ⟨hvalid, region, hregion, hallows⟩ := validateAccess_ok hvalid
  exact (h.coterminal region hregion r hr).holds (allows_iff.mp hallows) hvalid.lt
    (has_iff.mp hhas)

/-- A region that fits ends with every region that it overlaps. -/
theorem Fits.coterminal (h : Fits m region) (hr : r ∈ m.mgr.regions) :
    Coterminal (extent region) (extent r) := by
  intro x hregion hr'
  have hlt : x < 2 ^ 64 := Nat.lt_trans hregion.2 region.regionEnd.isLt
  have hx : (BitVec.ofNat 64 x).toNat = x := by
    rw [BitVec.toNat_ofNat, Nat.mod_eq_of_lt hlt]
  have heq := h.regions r hr (BitVec.ofNat 64 x) (by rwa [has_iff, hx]) (by rwa [has_iff, hx])
  exact congrArg BitVec.toNat heq

theorem Inv.orderly [DecidableEq τ] (h : Inv m) (hfit : Fitting m a) : Inv (step m a) := by
  have hcoterminal (r r' : PciemP2pRegion) (hr : r ∈ (step m a).mgr.regions)
      (hr' : r' ∈ (step m a).mgr.regions) : Coterminal (extent r) (extent r') := by
    rcases mem_step hr with hr | hr
    · rcases mem_step hr' with hr' | hr'
      · exact h.coterminal r hr r' hr'
      · exact ((hfit r' hr').coterminal hr).symm
    · rcases mem_step hr' with hr' | hr'
      · exact (hfit r hr).coterminal hr'
      · rw [hr, Option.some.injEq] at hr'
        exact hr' ▸ coterminal_self _
  refine ⟨(limit_step m a).trans h.limit, fun r hr r' hr' ↦ hcoterminal r r' hr hr',
    fun t access hchecked ↦ ?_, fun t access hchecked r hr hhas ↦ ?_⟩
  · rcases checked_step hchecked with hchecked | ⟨-, hvalid⟩
    · exact h.valid t access hchecked
    · exact (validateAccess_ok hvalid).1
  · rcases checked_step hchecked with hchecked | ⟨rfl, hvalid⟩
    · rcases mem_step hr with hr | hr
      · exact h.allows t access hchecked r hr hhas
      · exact ⟨hhas.1, (hfit r hr).checked t access hchecked hhas⟩
    · rcases mem_step hr with hr | hr
      · exact h.allows_of_validate hvalid hr hhas
      · cases hr

theorem Inv.confined (h : Inv m) (a : Action τ) : CopiesConfined m a := by
  cases a with
  | copy t =>
    intro access hchecked region hregion
    obtain ⟨hmem, hhas⟩ := getRegion_some hregion
    have hallows := h.allows t access hchecked region hmem hhas
    exact ⟨hmem, (confined_iff (h.valid t access hchecked) hhas).mpr hallows⟩
  | parseToken | parseEnd | register | unregister | check => trivial

theorem Inv.sound [DecidableEq τ] (h : Inv m) : Sound m := by
  intro as has
  induction as generalizing m with
  | nil => trivial
  | cons a as ih =>
    have hfit : Fitting m a := by
      intro region hadded
      have ha := has a List.mem_cons_self
      cases a with
      | unregister | check | copy => cases hadded
      | parseToken | parseEnd | register => exact ha.elim
    exact ⟨h.confined a, ih (h.orderly hfit) fun b hb ↦ has b (List.mem_cons_of_mem a hb)⟩

end Kept

section Lost

variable {m : Machine τ} {a : Action τ} {t : τ} {rs : List PciemP2pRegion}

/-- The range of the address and the next one. -/
def two (y : ℕ) : Access := ⟨BitVec.ofNat 64 y, 2⟩

theorem two_toNat {y : ℕ} (h : y + 2 < 2 ^ 64) : (two y).physAddr.toNat = y ∧
    (two y).accessEnd.toNat = y + 2 ∧ Valid (two y) := by
  have hphys : (two y).physAddr.toNat = y := by
    rw [two, BitVec.toNat_ofNat, Nat.mod_eq_of_lt (by omega)]
  have hend : (two y).accessEnd.toNat = y + 2 := by
    rw [Access.accessEnd, BitVec.toNat_add, hphys]
    exact Nat.mod_eq_of_lt h
  refine ⟨hphys, hend, ?_, ?_⟩
  · simp [two]
  · rw [BitVec.lt_def]
    omega

theorem CopiesConfined.ne_end {y : ℕ} (h : CopiesConfined m (.copy t))
    (hchecked : m.checked t = some (two y))
    (hregion : pciemP2pGetRegion m.mgr (two y).physAddr = some region) (hy : y + 2 < 2 ^ 64) :
    region.regionEnd.toNat ≠ y + 1 := by
  obtain ⟨-, htwo, hvalid⟩ := two_toNat hy
  obtain ⟨-, hconfined⟩ := h _ hchecked region hregion
  have hallows := (confined_iff hvalid (getRegion_some hregion).2).mp hconfined
  have hle : (two y).accessEnd.toNat ≤ region.regionEnd.toNat := hallows.2
  omega

variable [DecidableEq τ]

theorem parsedRegion_apart {token : Option (BitVec 64 × BitVec 64)} {kaddr : Option (BitVec 64)}
    (h : parsedRegion mgr token kaddr = some region) (hr : r ∈ mgr.regions) (hregion : region.Has x)
    (hhas : r.Has x) : False := by
  cases token with
  | none => cases h
  | some token =>
    rw [parsedRegion] at h
    split_ifs at h with hsize hoverlap
    obtain ⟨kaddr', -, rfl⟩ := Option.map_eq_some_iff.mp h
    refine hoverlap ⟨r, hr, ?_, ?_⟩
    · exact Nat.lt_of_le_of_lt hregion.1 hhas.2
    · exact Nat.lt_of_le_of_lt hhas.1 hregion.2

theorem step_check (hidle : m.checked t = none) (henabled : m.mgr.enabled = true)
    (hvalid : Valid access) (hlen : access.len ≤ m.mgr.maxTransferSize) (hr : r ∈ m.mgr.regions)
    (hallows : r.Allows access) : step m (.check t access) =
      { m with checked := Function.update m.checked t (some access) } := by
  have hok : pciemP2pValidateAccess m.mgr access = .ok () := by
    rw [pciemP2pValidateAccess, if_neg (by simp [henabled]), if_neg, if_neg hvalid.noWrap,
      if_pos ⟨r, hr, hallows⟩]
    rw [not_or]
    exact ⟨hvalid.len, BitVec.not_lt.mpr hlen⟩
  rw [step, hidle, hok]

/-- The regions of the list are taken away, up to one that was added last. -/
theorem run_unregister (m : Machine τ) (rs : List PciemP2pRegion)
    (h : m.mgr.regions = rs ++ [region]) :
    (rs.map fun r ↦ Action.unregister r.physStart).foldl step m =
      { m with mgr := { m.mgr with regions := [region] } } := by
  induction rs generalizing m with
  | nil =>
    rw [List.nil_append] at h
    simp [← h]
  | cons r rs ih =>
    have hstep : step m (.unregister r.physStart) =
        { m with mgr := { m.mgr with regions := rs ++ [region] } } := by
      rw [step, pciemP2pUnregisterRegion, if_pos ⟨r, by simp [h], rfl⟩]
      simp [h]
    rw [List.map_cons, List.foldl_cons, hstep, ih _ rfl]

theorem step_added (h : added m a = some region) :
    (step m a).mgr.regions = m.mgr.regions ++ [region] ∧ (step m a).checked = m.checked := by
  cases a with
  | parseToken token kaddr =>
    rw [added] at h
    rw [step, parseToken, h]
    exact ⟨rfl, rfl⟩
  | register phys size kaddr =>
    rw [added] at h
    rw [step, registerRegion_snd, h]
    exact ⟨rfl, rfl⟩
  | parseEnd | unregister | check | copy => cases h

theorem enabled_register {phys size : BitVec 64} {kaddr : Option (BitVec 64)}
    (h : registeredRegion phys size kaddr = some region) :
    (step m (.register phys size kaddr)).mgr.enabled = true := by
  rw [step, registerRegion_snd, h]
  rfl

theorem exists_getRegion (hr : r ∈ mgr.regions) (hhas : r.Has x) :
    ∃ region, pciemP2pGetRegion mgr x = some region := by
  rw [← Option.isSome_iff_exists, pciemP2pGetRegion, List.find?_isSome]
  exact ⟨r, hr, by simpa using hhas⟩

/-- A region that has the address comes before one at the end of the list. -/
theorem getRegion_of_append (hregions : mgr.regions = rs ++ [r']) (hr : r ∈ rs) (hhas : r.Has x)
    (h : pciemP2pGetRegion mgr x = some region) : region ∈ rs := by
  have hsome : (rs.find? fun region ↦ decide (region.Has x)).isSome := by
    rw [List.find?_isSome]
    exact ⟨r, hr, by simpa using hhas⟩
  rw [pciemP2pGetRegion, hregions, List.find?_append, Option.or_of_isSome hsome] at h
  exact List.mem_of_find?_eq_some h

/-- A thread that is done with what it had checked has the two addresses checked. -/
theorem run_two (henabled : m.mgr.enabled = true)
    (hlimit : m.mgr.maxTransferSize = pciemP2pMaxTransfer) {y : ℕ} (hy : y + 2 < 2 ^ 64)
    (hr : r ∈ m.mgr.regions) (hallows : r.Allows (two y)) (t : τ) :
    [Action.copy t, .check t (two y)].foldl step m =
      { m with checked := Function.update m.checked t (some (two y)) } := by
  have hidle : (step m (.copy t)).checked t = none := Function.update_self _ _ _
  have hlen : (two y).len ≤ m.mgr.maxTransferSize := by
    rw [hlimit]
    change (2 : BitVec 64) ≤ pciemP2pMaxTransfer
    decide
  rw [List.foldl_cons, List.foldl_cons, List.foldl_nil,
    step_check hidle henabled (two_toNat hy).2.2 hlen hr hallows]
  simp [step]

/-- A region that ends after one that it overlaps: the copy is made in that one. -/
theorem not_sound_of_longer (h : Inv m) (hadded : added m a = some region)
    (henabled : (step m a).mgr.enabled = true) (hr : r ∈ m.mgr.regions) (hregion : region.Has x)
    (hhas : r.Has x) (hlt : r.regionEnd < region.regionEnd) (t : τ) : ¬ Sound (step m a) := by
  obtain ⟨hregions, hchecked⟩ := step_added hadded
  obtain ⟨y, hy, hholds, hend⟩ := exists_beyond (has_iff.mp hhas) (has_iff.mp hregion) hlt
  have hbound : y + 2 < 2 ^ 64 := Nat.lt_of_le_of_lt hholds.2 region.regionEnd.isLt
  obtain ⟨hphys, htwo, -⟩ := two_toNat hbound
  have hlast : region ∈ (step m a).mgr.regions := by simp [hregions]
  have hlimit := (limit_step m a).trans h.limit
  have hrun := run_two henabled hlimit hbound hlast (by rwa [allows_iff, hphys, htwo]) t
  intro hsound
  have heach := hsound ([.copy t, .check t (two y)] ++ [.copy t]) (by simp [Uses])
  have hcopies := heach.of_append.1
  rw [hrun] at hcopies
  have hin : r.Has (two y).physAddr := by rwa [has_iff, hphys]
  have hr' : r ∈ (step m a).mgr.regions := by simp [hregions, hr]
  obtain ⟨first, hfirst⟩ := exists_getRegion hr' hin
  have hmem := getRegion_of_append hregions hr hin hfirst
  have hfirstHas := (getRegion_some hfirst).2
  have heq : first.regionEnd.toNat = r.regionEnd.toNat :=
    h.coterminal first hmem r hr _ (has_iff.mp hfirstHas) (has_iff.mp hin)
  exact hcopies.ne_end (Function.update_self _ _ _) hfirst hbound (heq.trans hend.symm)

/-- A region that ends before one that it overlaps: when that one has been taken away, the copy
is made in the new region. -/
theorem not_sound_of_shorter (h : Inv m) (hadded : added m a = some region)
    (henabled : (step m a).mgr.enabled = true) (hr : r ∈ m.mgr.regions) (hregion : region.Has x)
    (hhas : r.Has x) (hlt : region.regionEnd < r.regionEnd) (t : τ) : ¬ Sound (step m a) := by
  obtain ⟨hregions, hchecked⟩ := step_added hadded
  obtain ⟨y, hy, hholds, hend⟩ := exists_beyond (has_iff.mp hregion) (has_iff.mp hhas) hlt
  have hbound : y + 2 < 2 ^ 64 := Nat.lt_of_le_of_lt hholds.2 r.regionEnd.isLt
  obtain ⟨hphys, htwo, -⟩ := two_toNat hbound
  have hmem : r ∈ (step m a).mgr.regions := by simp [hregions, hr]
  have hlimit := (limit_step m a).trans h.limit
  have hrun := run_two henabled hlimit hbound hmem (by rwa [allows_iff, hphys, htwo]) t
  have huses : ∀ b ∈ m.mgr.regions.map fun r ↦ (Action.unregister r.physStart : Action τ),
      Uses b := by
    intro b hb
    obtain ⟨r, -, rfl⟩ := List.mem_map.mp hb
    trivial
  intro hsound
  have heach := hsound ([.copy t, .check t (two y)] ++ (_ ++ [.copy t]))
    (List.forall_mem_append.mpr
      ⟨by simp [Uses], List.forall_mem_append.mpr ⟨huses, by simp [Uses]⟩⟩)
  have hcopies := heach.of_append.of_append.1
  have hremoved := run_unregister { step m a with
    checked := Function.update (step m a).checked t (some (two y)) } m.mgr.regions hregions
  rw [hrun, hremoved] at hcopies
  have hin : region.Has (two y).physAddr := by rwa [has_iff, hphys]
  have hfirst : [region].find? (fun r ↦ decide (r.Has (two y).physAddr)) = some region := by
    simp [hin]
  exact hcopies.ne_end (Function.update_self _ _ _) hfirst hbound hend.symm

/-- A region that does not fit makes some way of using the whitelist unsafe. -/
theorem Inv.lost [Nonempty τ] (h : Inv m) (hno : ¬ Fitting m a) : ¬ Sound (step m a) := by
  intro hsound
  refine hno fun region hadded ↦ ?_
  obtain ⟨hregions, hchecked⟩ := step_added hadded
  have hends (r : PciemP2pRegion) (hr : r ∈ m.mgr.regions) (x : BitVec 64)
      (hregion : region.Has x) (hhas : r.Has x) : region.regionEnd = r.regionEnd := by
    obtain ⟨t⟩ := ‹Nonempty τ›
    cases a with
    | parseToken token kaddr => exact (parsedRegion_apart hadded hr hregion hhas).elim
    | register phys size kaddr =>
      have henabled := enabled_register (m := m) hadded
      by_contra hne
      rcases Nat.lt_or_gt_of_ne (BitVec.toNat_ne.mp hne) with hlt | hlt
      · exact not_sound_of_shorter h hadded henabled hr hregion hhas hlt t hsound
      · exact not_sound_of_longer h hadded henabled hr hregion hhas hlt t hsound
    | parseEnd | unregister | check | copy => cases hadded
  refine ⟨hends, fun t access hstate hhas ↦ ?_⟩
  have hcopies : CopiesConfined (step m a) (.copy t) := (hsound [.copy t] (by simp [Uses])).1
  have hlast : region ∈ (step m a).mgr.regions := by simp [hregions]
  obtain ⟨first, hfirst⟩ := exists_getRegion hlast hhas
  obtain ⟨hmem, hconfined⟩ := hcopies access (hchecked ▸ hstate) first hfirst
  have hfirstHas := (getRegion_some hfirst).2
  have hallows := (confined_iff (h.valid t access hstate) hfirstHas).mp hconfined
  rw [hregions, List.mem_append, List.mem_singleton] at hmem
  rcases hmem with hmem | rfl
  · rw [hends first hmem access.physAddr hhas hfirstHas]
    exact hallows.2
  · exact hallows.2

end Lost

section Soundness

theorem inv_new : Inv (⟨.new, fun _ ↦ none⟩ : Machine τ) where
  limit := rfl
  coterminal r hr := by simp [PciemP2pManager.new] at hr
  valid t access h := by simp at h
  allows t access h := by simp at h

variable [DecidableEq τ]

theorem each_confined_of_sound {m : Machine τ} {as : List (Action τ)}
    (h : Always step Sound m as) : Each step CopiesConfined m as := by
  refine h.each fun m a hsound ↦ ?_
  cases a with
  | copy t => exact (hsound [.copy t] (by simp [Uses])).1
  | parseToken | parseEnd | register | unregister | check => trivial

/-- In a run from the new manager on, the whitelist is sound throughout just when every region
that is added fits the regions that are there and the ranges that are checked. -/
theorem p2p_sound_iff_fitting [Nonempty τ] (as : List (Action τ)) :
    Always step Sound ⟨.new, fun _ ↦ none⟩ as ↔ Each step Fitting ⟨.new, fun _ ↦ none⟩ as :=
  always_iff_each_of_lost (fun _ h ↦ h.sound) (fun _ _ h hfit ↦ h.orderly hfit)
    (fun _ _ h hno ↦ h.lost hno) inv_new

/-- The second region overlaps the first one, and has what is copied. -/
def overlapping : List (Action ℕ) :=
  [.register 0x1000 0x1000 (some 0xA000), .register 0x1800 0x1000 (some 0xC000),
    .check 0 ⟨0x1F00, 0x200⟩, .copy 0]

/-- Two threads have had ranges of two regions checked, and one of the regions is taken away before
both have copied. -/
def disjoint : List (Action ℕ) :=
  [.register 0x1000 0x1000 (some 0xA000), .check 0 ⟨0x1F00, 0x100⟩,
    .register 0x4000 0x1000 (some 0xC000), .check 1 ⟨0x4000, 0x200⟩, .copy 1, .unregister 0x1000,
    .copy 0]

theorem p2p_sound_iff_fitting_disjoint : Always step Sound ⟨.new, fun _ ↦ none⟩ disjoint := by
  have hunused {m : Machine ℕ} {a : Action ℕ} (h : added m a = none) : Fitting m a := by
    intro region hadded
    rw [h] at hadded
    cases hadded
  refine (p2p_sound_iff_fitting disjoint).mpr ⟨?_, hunused rfl, ?_, hunused rfl, hunused rfl,
    hunused rfl, hunused rfl, trivial⟩
  · intro region _
    refine ⟨fun r hr ↦ ?_, fun t access hchecked ↦ ?_⟩
    · simp [PciemP2pManager.new] at hr
    · simp at hchecked
  · intro region hadded
    cases hadded
    refine ⟨fun r hr x hregion hhas ↦ ?_, fun t access hchecked hhas ↦ ?_⟩
    · obtain rfl := List.mem_singleton.mp hr
      have hlt : (0x4000 : BitVec 64).toNat < (0x2000 : BitVec 64).toNat :=
        Nat.lt_of_le_of_lt hregion.1 hhas.2
      exact absurd hlt (by decide)
    · rcases checked_step hchecked with hbefore | ⟨hcheck, -⟩
      · cases hbefore
      · cases hcheck
        exact absurd hhas (by decide)

theorem p2p_copy_past_the_region : ¬ Each step CopiesConfined ⟨.new, fun _ ↦ none⟩ overlapping := by
  intro heach
  have hcopies := heach.2.2.2.1
  have hchecked := hcopies ⟨0x1F00, 0x200⟩ rfl ⟨0x1000, 0x1000, 0xA000⟩ rfl
  have hvalid : Valid ⟨0x1F00, 0x200⟩ := ⟨by decide, by decide⟩
  have hallows := (confined_iff hvalid (by decide)).mp hchecked.2
  revert hallows
  decide

end Soundness

end Pciem.P2p.Whitelist
