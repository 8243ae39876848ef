import Pciem.Slot.MultiFunction
import Pciem.Slot.Solitary

namespace Pciem.Slot.Atomic

open Kernel Library.Unwinding Bar.Table Bar.Placement Register Ioctl Effects Bars Invariant Solitary
  MultiFunction
open State hiding PciemRootComplex
open Attach.Hijack (PciOps)
open Bar.Register (PciemBusMode)

variable {δ : Type} {us : PciemUserspaceState δ} {v : RootComplex δ} {sv : Services}
  {svs : ℕ → Services} {s : FunctionState δ}

def barTable (v : RootComplex δ) :
    (ℕ → Config.Capabilities.PciemBarInfo) × (ℕ → PciemBarPlace) :=
  (v.placed.rc.bars, v.placed.places)

/-- What REGISTER is to leave as it was when it fails. -/
structure Restored (us us' : PciemUserspaceState δ) : Prop where
  registered : us'.registered = .unregistered
  bars : ∀ k, (us'.slot.funcs k).map barTable = (us.slot.funcs k).map barTable
  pool : us'.world.pool.allocated = us.world.pool.allocated
  ops : us'.world.ops = us.world.ops
  again : ∀ svs, (∀ k, (svs k).AllSucceed) → (pciemIoctlRegister svs (.ok ()) us').1 = .ok ()

/-- Every exposed BAR has its memory. -/
def Carved (f : PlacedFunction) : Prop :=
  ∀ i < pciStdNumBars, Exposed f.rc i → (f.places i).carvedStart ≠ 0

instance (f : PlacedFunction) : Decidable (Carved f) :=
  inferInstanceAs (Decidable (∀ _ < _, _))

/-- What is asked of a REGISTER that fails. -/
def FailsAtomically (svs : ℕ → Services) (fd : Except Errno Unit) (us : PciemUserspaceState δ) :
    Prop :=
  ∀ e, (pciemIoctlRegister svs fd us).1 = .error e →
    Restored us (pciemIoctlRegister svs fd us).2

/-- The calls that function 0 is given its device by fail. -/
def ModeFails (sv : Services) : PciemBusMode → Prop
  | .virtualRoot => sv.bridge ≠ .ok () ∨ sv.created 0 = false
  | .attachToHost => sv.found.bus = false ∨ sv.found.slot = none ∨ sv.found.scan = false

/-- No BAR has a size or memory. -/
def NoBars (f : PlacedFunction) : Prop :=
  ∀ i < pciStdNumBars, (f.rc.bars i).size = 0 ∧ (f.places i).carvedStart = 0

instance (f : PlacedFunction) : Decidable (NoBars f) :=
  inferInstanceAs (Decidable (∀ _ < _, _))

/-- The failures that leave nothing changed: that of the platform device, where the BARs have
their memory, and that of the device, where there are no BARs. -/
def Harmless (sv : Services) (us : PciemUserspaceState δ) (v : RootComplex δ) : Prop :=
  (∀ k, k ≠ 0 → us.slot.funcs k = none) ∧
    (sv.platform ≠ .ok () ∧ Carved v.placed ∨
      sv.platform = .ok () ∧ NoBars v.placed ∧ ModeFails sv v.busMode)

section Init

theorem initMode_ok_iff : (initMode sv 0 s).1 = .ok () ↔ ¬ ModeFails sv s.2.busMode := by
  cases hmode : s.2.busMode with
  | virtualRoot =>
    rw [initMode_of_virtual hmode, ModeFails, not_or, not_not, Bool.not_eq_false]
    cases hbridge : sv.bridge with
    | error e =>
      rw [initVirtual_of_error hbridge]
      exact iff_of_false nofun fun h ↦ nomatch h.1
    | ok _ =>
      rw [(onOwnBus_initVirtual hbridge 0 s).2]
      cases sv.created 0 with
      | true => exact iff_of_true rfl ⟨rfl, rfl⟩
      | false => exact iff_of_false nofun nofun
  | attachToHost =>
    rw [initMode_of_attach hmode, ModeFails]
    have hinit := hostInit_initAttach sv 0 s
    generalize pciemInitAttachToHostMode sv 0 s = result at hinit ⊢
    cases hinit with
    | early h =>
      refine iff_of_false nofun (not_not.mpr ?_)
      rcases h with h | h | h
      · exact .inl h
      · exact absurd rfl h
      · exact .inr (.inl h)
    | noDevice _ _ h => exact iff_of_false nofun (not_not.mpr (.inr (.inr h)))
    | done _ hbus _ hslot hscan =>
      refine iff_of_true rfl ?_
      rw [hbus, hslot, hscan]
      rintro (h | h | h)
      all_goals cases h

theorem not_modeFails (h : sv.AllSucceed) (busMode : PciemBusMode) : ¬ ModeFails sv busMode := by
  obtain ⟨hbus, hslot, hscan⟩ := h.found
  cases busMode with
  | virtualRoot =>
    rintro (hbridge | hcreated)
    · exact hbridge h.bridge
    · rw [h.created] at hcreated
      cases hcreated
  | attachToHost =>
    rintro (hno | hno | hno)
    · rw [hbus] at hno
      cases hno
    · rw [hno] at hslot
      cases hslot
    · rw [hscan] at hno
      cases hno

/-- Nothing but memory that is gone can stop function 0 when every call succeeds. -/
theorem completeInit_ok_iff (hsv : sv.AllSucceed) :
    (pciemCompleteInit sv 0 s).1 = .ok () ↔ Carved s.2.placed := by
  have hprepare : (prepare sv s).1 = .ok () ↔ Carved s.2.placed := by
    rw [prepare_ok_iff]
    exact forall₂_congr fun i _ ↦ ⟨fun h hexp ↦ (h hexp).1,
      fun h hexp ↦ ⟨h hexp, hsv.resource i, hsv.entry i⟩⟩
  constructor
  · intro h
    obtain ⟨placed, heq, -⟩ := completeInit_of_ok h
    exact hprepare.mp (by rw [heq])
  · intro hcarved
    have hok := hprepare.mpr hcarved
    have hstage := completeInit_stage sv 0 s
    generalize pciemCompleteInit sv 0 s = result at hstage ⊢
    cases hstage with
    | noPlatform hno =>
      rw [hsv.platform] at hno
      cases hno
    | noMemory _ heq =>
      rw [heq] at hok
      cases hok
    | noDevice _ _ hmode =>
      rw [initMode_ok_iff.mpr (not_modeFails hsv _)] at hmode
      cases hmode
    | done _ _ hmode => exact hmode

theorem bare_of_noBars {f : PlacedFunction} (h : NoBars f) (hflags : FlagsClear f.rc) :
    Bare f.rc :=
  fun i hi ↦ ⟨(h i hi).1, hflags i (h i hi).1⟩

theorem carved_of_bare {f : PlacedFunction} (h : Bare f.rc) : Carved f :=
  fun i hi hexp ↦ absurd (h i hi).1 hexp.1

theorem size_of_not_exposed {f : PlacedFunction} (hflags : FlagsClear f.rc)
    (h : ∀ i < pciStdNumBars, ¬ Exposed f.rc i) : ∀ i < pciStdNumBars, (f.rc.bars i).size = 0 := by
  intro i hi
  by_contra hsize
  have hupper : IsUpperHalf f.rc i := by
    by_contra hupper
    exact h i hi ⟨hsize, hupper⟩
  obtain ⟨hpos, hodd, h64⟩ := hupper
  refine h (i - 1) (Nat.lt_of_le_of_lt (Nat.sub_le i 1) hi) ⟨fun hzero ↦ ?_, fun hupper' ↦ ?_⟩
  · rw [hflags _ hzero] at h64
    exact h64 BitVec.zero_and
  · have hodd' := hupper'.2.1
    omega

theorem prepares_of_bare (sv : Services) {f : PlacedFunction} (h : Bare f.rc) : Prepares sv f :=
  fun i hi hexp ↦ absurd (h i hi).1 hexp.1

theorem modeFails_of_error (hplatform : sv.platform = .ok ()) (hbare : Bare s.2.placed.rc)
    {e : Errno} (h : (pciemCompleteInit sv 0 s).1 = .error e) : ModeFails sv s.2.busMode := by
  have hprepare := prepare_ok_iff.mpr (prepares_of_bare sv hbare)
  have hstage := completeInit_stage sv 0 s
  generalize pciemCompleteInit sv 0 s = result at h hstage
  cases hstage with
  | noPlatform hno =>
    rw [hplatform] at hno
    cases hno
  | noMemory _ heq =>
    rw [heq] at hprepare
    cases hprepare
  | @noDevice _ placed _ _ hmode =>
    by_contra hnot
    have hok := (initMode_ok_iff (s := withPlaced s placed)).mpr hnot
    rw [hok] at hmode
    cases hmode
  | done _ _ hok =>
    rw [h] at hok
    cases hok

theorem completeInit_of_modeFails (h : ModeFails sv s.2.busMode) :
    (pciemCompleteInit sv 0 s).1 ≠ .ok () := by
  intro hok
  obtain ⟨placed, -, hmode, -⟩ := completeInit_of_ok hok
  exact (initMode_ok_iff (s := withPlaced s placed)).mp hmode h

end Init

section Register

variable {fd : Except Errno Unit} {e : Errno}

theorem built_places (us : PciemUserspaceState δ) (v : RootComplex δ) :
    barTable (built us v).2 = barTable v := by
  obtain ⟨hbars, hplaces⟩ := bars_buildFunction us.slot.numFuncs 0 v.placed
  exact Prod.ext hbars hplaces

theorem carved_congr {v v' : RootComplex δ} (h : barTable v' = barTable v) :
    Carved v'.placed ↔ Carved v.placed := by
  obtain ⟨hbars, hplaces⟩ := Prod.mk.inj h
  have hexposed (i : ℕ) : Exposed v'.placed.rc i ↔ Exposed v.placed.rc i :=
    (Rewritten.of_bars_eq hbars).exposed_iff i
  rw [Carved, Carved]
  refine forall₂_congr fun i _ ↦ ?_
  rw [hexposed, hplaces]

theorem register_fst (hreg : us.registered = .unregistered) (hlone : Lone us v) :
    (pciemIoctlRegister svs fd us).1 = .ok () ↔
      (pciemCompleteInit (svs 0) 0 (built us v)).1 = .ok () ∧ fd = .ok () := by
  rw [register_solitary hreg hlone]
  generalize pciemCompleteInit (svs 0) 0 (built us v) = result
  obtain ⟨r, s⟩ := result
  cases r with
  | ok _ => exact (and_iff_right rfl).symm
  | error e => exact iff_of_false nofun fun h ↦ nomatch h.1

/-- A slot with function 0 alone can be registered exactly when the function has the memory of
its BARs. -/
theorem register_ok_iff (hreg : us.registered = .unregistered) (hlone : Lone us v)
    (hsv : (svs 0).AllSucceed) :
    (pciemIoctlRegister svs (.ok ()) us).1 = .ok () ↔ Carved v.placed := by
  rw [register_fst hreg hlone, completeInit_ok_iff hsv, and_iff_left rfl]
  exact carved_congr (built_places us v)

theorem lone_setFunc_zero (hlone : Lone us v) (s : FunctionState δ) :
    Lone { setFunc us s.1 0 s.2 with registered := .unregistered } s.2 :=
  ⟨setFunc_self us s.1 0 s.2, fun k hk ↦ (setFunc_of_ne hk us s.1 s.2).trans (hlone.2 k hk)⟩

/-- A slot with function 0 alone, put back as it was but for the function and the world. -/
theorem restored_iff (hlone : Lone us v) (s : FunctionState δ) :
    Restored us { setFunc us s.1 0 s.2 with registered := .unregistered } ↔
      barTable s.2 = barTable v ∧ s.1.pool.allocated = us.world.pool.allocated ∧
        s.1.ops = us.world.ops ∧ Carved v.placed := by
  have hlone' := lone_setFunc_zero hlone s
  constructor
  · intro h
    have hbars := h.bars 0
    rw [hlone'.1, hlone.1] at hbars
    have htable := Option.some.inj hbars
    refine ⟨htable, h.pool, h.ops, (carved_congr htable).mp ?_⟩
    exact (register_ok_iff rfl hlone' allSucceed_succeeding).mp
      (h.again (fun _ ↦ succeeding) fun _ ↦ allSucceed_succeeding)
  · rintro ⟨htable, hpool, hops, hcarved⟩
    refine ⟨rfl, fun k ↦ ?_, hpool, hops, fun svs hsvs ↦ ?_⟩
    · by_cases hk : k = 0
      · subst hk
        rw [hlone'.1, hlone.1, Option.map_some, Option.map_some, htable]
      · rw [hlone'.2 k hk, hlone.2 k hk]
    · exact (register_ok_iff rfl hlone' (hsvs 0)).mpr ((carved_congr htable).mpr hcarved)

theorem carvedStart_cleaned (f : PlacedFunction) {i : ℕ} (hi : i < pciStdNumBars) :
    ((cleaned f).places i).carvedStart = 0 := by
  rw [cleaned]
  dsimp only
  rw [if_pos hi, cleanedPlace]
  split_ifs with hcarved
  · rfl
  · exact not_not.mp hcarved

theorem places_cleaned {f : PlacedFunction} (hcarved : ∀ i < pciStdNumBars,
    (f.places i).carvedStart = 0) (hfree : Unallocated f) : (cleaned f).places = f.places := by
  funext i
  rw [cleaned]
  dsimp only
  split_ifs with hi
  · have hallocated := hfree i hi
    rw [cleanedPlace, if_neg (not_not.mpr (hcarved i hi))]
    cases hplace : f.places i
    rw [hplace] at hallocated
    dsimp only at hallocated
    rw [hallocated]
  · rfl

/-- The error label of the BARs takes the memory of every BAR away. -/
theorem noBars_of_restored (hflags : FlagsClear v.placed.rc) (hplatform : sv.platform = .ok ())
    (herr : (pciemCompleteInit sv 0 (built us v)).1 = .error e)
    (htable : barTable (pciemCompleteInit sv 0 (built us v)).2.2 = barTable v)
    (hcarved : Carved v.placed) : NoBars v.placed := by
  obtain ⟨s', heq, -, -⟩ := completeInit_error hplatform herr
  obtain ⟨pool, hclean, -⟩ := cleanupBars_eq s'
  rw [heq, hclean] at htable
  have hgone (i : ℕ) (hi : i < pciStdNumBars) : (v.placed.places i).carvedStart = 0 := by
    rw [← congrFun (Prod.mk.inj htable).2 i]
    exact carvedStart_cleaned _ hi
  have hsize := size_of_not_exposed hflags fun i hi hexp ↦ hcarved i hi hexp (hgone i hi)
  exact fun i hi ↦ ⟨hsize i hi, hgone i hi⟩

/-- Where there are no BARs, the error labels change nothing. -/
theorem unchanged_of_noBars (hlone : Lone us v) (hfresh : Fresh us)
    (hreg : us.registered = .unregistered) (hbars : NoBars v.placed)
    (hplatform : sv.platform = .ok ())
    (herr : (pciemCompleteInit sv 0 (built us v)).1 = .error e) :
    barTable (pciemCompleteInit sv 0 (built us v)).2.2 = barTable v ∧
      (pciemCompleteInit sv 0 (built us v)).2.1.pool = us.world.pool := by
  obtain ⟨hflags, hidle⟩ := hfresh v hlone
  obtain ⟨hrc, hplaces⟩ := bars_buildFunction us.slot.numFuncs 0 v.placed
  have hbare : Bare (built us v).2.placed.rc :=
    (Rewritten.of_bars_eq hrc).isBare (bare_of_noBars hbars hflags)
  obtain ⟨s', heq, hprepared, hpool⟩ := completeInit_error hplatform herr
  obtain ⟨pool, hclean, hsame⟩ := cleanupBars_eq s'
  have hplaces' : s'.2.placed.places = v.placed.places := (hprepared.places hbare).trans hplaces
  have hzero (i : ℕ) (hi : i < pciStdNumBars) : (s'.2.placed.places i).carvedStart = 0 := by
    rw [hplaces']
    exact (hbars i hi).2
  have hfree : Unallocated s'.2.placed := by
    intro i hi
    rw [hplaces']
    exact (hidle hreg).2 i hi
  rw [heq, hclean]
  exact ⟨Prod.ext ((hprepared.rc.bare hbare).trans hrc)
    ((places_cleaned hzero hfree).trans hplaces'), (hsame hzero).trans hpool⟩

theorem restored_iff_harmless (svs : ℕ → Services) (fd : Except Errno Unit) (hus : Reachable us)
    (hreg : us.registered = .unregistered) (h0 : us.slot.funcs 0 = some v) :
    Restored us (pciemIoctlRegister svs fd us).2 ↔ Harmless (svs 0) us v := by
  have hwf := wellFormed_of_reachable hus
  have hfresh := fresh_of_reachable hus
  constructor
  · intro h
    have hnone (k : ℕ) (hk : k ≠ 0) : us.slot.funcs k = none := by
      by_contra hfn
      have hkept := keeps_register svs fd us hwf
      have hfn' := (hkept.isSome k).trans (Option.isSome_iff_ne_none.mpr hfn)
      exact register_ne_ok (hkept.wellFormed hwf) hk hfn' _ _
        (h.again (fun _ ↦ succeeding) fun _ ↦ allSucceed_succeeding)
    have hlone : Lone us v := ⟨h0, hnone⟩
    have hflags := (hfresh v hlone).1
    cases hinit : (pciemCompleteInit (svs 0) 0 (built us v)).1 with
    | ok _ =>
      have hregistered := h.registered
      rw [register_of_init_ok hreg hlone hinit] at hregistered
      cases hregistered
    | error e' =>
      rw [register_of_init_error hreg hlone hinit, restored_iff hlone] at h
      obtain ⟨htable, -, -, hcarved⟩ := h
      refine ⟨hnone, ?_⟩
      cases hplatform : (svs 0).platform with
      | error e'' => exact .inl ⟨nofun, hcarved⟩
      | ok _ =>
        have hbars := noBars_of_restored hflags hplatform hinit htable hcarved
        obtain ⟨hrc, -⟩ := bars_buildFunction us.slot.numFuncs 0 v.placed
        have hbare : Bare (built us v).2.placed.rc :=
          (Rewritten.of_bars_eq hrc).isBare (bare_of_noBars hbars hflags)
        exact .inr ⟨rfl, hbars, modeFails_of_error hplatform hbare hinit⟩
  · rintro ⟨hnone, hcases⟩
    have hlone : Lone us v := ⟨h0, hnone⟩
    obtain ⟨hplatform, hcarved⟩ | ⟨hplatform, hbars, hmode⟩ := hcases
    · cases hplatform' : (svs 0).platform with
      | ok _ => exact absurd hplatform' hplatform
      | error e' =>
        have hinit := completeInit_of_platform_error (k := 0) (s := built us v) hplatform'
        rw [register_of_init_error hreg hlone (by rw [hinit]), restored_iff hlone, hinit]
        exact ⟨built_places us v, rfl, rfl, hcarved⟩
    · cases hinit : (pciemCompleteInit (svs 0) 0 (built us v)).1 with
      | ok _ => exact absurd hinit (completeInit_of_modeFails (s := built us v) hmode)
      | error e' =>
        obtain ⟨htable, hpool⟩ := unchanged_of_noBars hlone hfresh hreg hbars hplatform hinit
        obtain ⟨-, hops⟩ := idle_register hlone hfresh hreg hinit
        rw [register_of_init_error hreg hlone hinit, restored_iff hlone]
        exact ⟨htable, congrArg PciemMempool.allocated hpool, hops,
          carved_of_bare (bare_of_noBars hbars (hfresh v hlone).1)⟩

/-- A REGISTER that fails leaves everything as it was exactly in these cases. -/
theorem fails_atomically_iff (hus : Reachable us) (hreg : us.registered = .unregistered)
    (h0 : us.slot.funcs 0 = some v) (svs : ℕ → Services) (fd : Except Errno Unit)
    (herr : (pciemIoctlRegister svs fd us).1 = .error e) :
    FailsAtomically svs fd us ↔ Harmless (svs 0) us v := by
  rw [← restored_iff_harmless svs fd hus hreg h0]
  exact ⟨fun h ↦ h e herr, fun h _ _ ↦ h⟩

end Register

section OneBar

def createOne : List (Command ℕ) :=
  [.createDevice true ⟨0, 0⟩ (some 0) true, .configure true 0 (.setConfig endpoint),
    .configure true 0 (.addBar ⟨⟨0, 0, 0x1000⟩, 0x1000⟩)]

/-- An fd for which function 0 has been created and configured, with a BAR of a page. -/
def oneBar : PciemUserspaceState ℕ :=
  createOne.foldl step (opened .hardware (fun _ ↦ false) ⟨12, 0x1000, 0x1000, fun _ ↦ false⟩)

theorem reachable_oneBar : Reachable oneBar := ⟨_, _, _, createOne, rfl⟩

theorem lone_oneBar : ∃ v, Lone oneBar v ∧ v.busMode = .virtualRoot ∧
    v.placed.places 0 = ⟨0x1000, 0x1FFF, 0, false⟩ := by
  refine ⟨_, ⟨rfl, fun k hk ↦ ?_⟩, rfl, rfl⟩
  by_contra hsome
  have hrange := (wellFormed_of_reachable reachable_oneBar).range k
    (Option.isSome_iff_ne_none.mpr hsome)
  have hnone : ∀ j < 8, j ≠ 0 → (oneBar.slot.funcs j).isNone := by decide
  exact hsome (Option.isNone_iff_eq_none.mp (hnone k hrange hk))

theorem fails_atomically_iff_platform :
    FailsAtomically (fun _ ↦ { succeeding with platform := .error .enomem }) (.ok ()) oneBar :=
  (fails_atomically_iff (v := (oneBar.slot.funcs 0).get rfl) reachable_oneBar rfl rfl _ _
      (e := .enomem) rfl).mpr
    ⟨lone_oneBar.choose_spec.1.2, .inl ⟨nofun, by decide⟩⟩

/-- The BAR has lost its memory when no root bus can be made. -/
theorem bridge_failure_drops_memory : ¬ ∀ (us : PciemUserspaceState ℕ) (svs : ℕ → Services)
    (fd : Except Errno Unit), Reachable us → us.registered = .unregistered →
      (us.slot.funcs 0).isSome → FailsAtomically svs fd us := by
  intro h
  obtain ⟨v, hlone, hmode, hplace⟩ := lone_oneBar
  let svs : ℕ → Services := fun _ ↦ { succeeding with bridge := .error .enomem }
  have hfails := h oneBar svs (.ok ()) reachable_oneBar rfl rfl
  have hne : (pciemIoctlRegister svs (.ok ()) oneBar).1 ≠ .ok () := by
    rw [Ne, register_fst rfl hlone, not_and]
    have hfails : ModeFails (svs 0) v.busMode := by
      rw [hmode]
      exact .inl nofun
    exact fun hok ↦ absurd hok (completeInit_of_modeFails (s := built oneBar v) hfails)
  cases herr : (pciemIoctlRegister svs (.ok ()) oneBar).1 with
  | ok _ => exact hne herr
  | error e =>
    have hharmless := (restored_iff_harmless _ _ reachable_oneBar rfl hlone.1).mp (hfails e herr)
    obtain ⟨-, ⟨hplatform, -⟩ | ⟨-, hbars, -⟩⟩ := hharmless
    · exact hplatform rfl
    · have hzero := (hbars 0 (by decide)).2
      rw [hplace] at hzero
      cases hzero

end OneBar

end Pciem.Slot.Atomic
