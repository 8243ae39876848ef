import Pciem.Library.Replay
import Pciem.Slot.Bars
import Pciem.Slot.Destroy
import Pciem.Slot.MultiFunction
import Pciem.Slot.Solitary

namespace Pciem.Slot.Teardown

open Kernel Library.Unwinding Library.Replay Bar.Table Bar.Placement Register Ioctl Effects Bars
  Invariant MultiFunction Destroy Solitary
open State hiding PciemRootComplex
open Attach.Hijack (PciOps)

variable {δ : Type} {us : PciemUserspaceState δ} {v : RootComplex δ} {sv : Services}
  {svs : ℕ → Services} {k n : ℕ} {s s' : FunctionState δ}

/-- A function in virtual-root mode comes to make a root bus. -/
def MakesBus (sv : Services) (f : PlacedFunction) : Prop :=
  sv.platform = .ok () ∧ Prepares sv f ∧ sv.bridge = .ok ()

/-- And finds its device on it. -/
def MakesDevice (sv : Services) (k : ℕ) (f : PlacedFunction) : Prop :=
  MakesBus sv f ∧ sv.created k = true

/-- What the initialisation of a function in virtual-root mode does to the root buses. -/
inductive BusInit (sv : Services) (k : ℕ) (s : FunctionState δ) :
    Except Errno Unit × FunctionState δ → Prop
  | untouched {e : Errno} {s' : FunctionState δ} : ¬ MakesBus sv s.2.placed →
      s'.2.pciemPdev = s.2.pciemPdev → s'.2.rootBus = s.2.rootBus →
      s'.1.rootBuses = s.1.rootBuses → BusInit sv k s (.error e, s')
  /-- The error label takes the root bus that the function has had. -/
  | dropped {e : Errno} {s' : FunctionState δ} : ¬ MakesBus sv s.2.placed →
      s'.2.pciemPdev = none → s'.2.rootBus = none →
      (∀ n, s'.1.rootBuses n = true ↔ s.1.rootBuses n = true ∧ s.2.rootBus ≠ some (.root n)) →
      BusInit sv k s (.error e, s')
  | noDevice {e : Errno} {s' : FunctionState δ} : MakesBus sv s.2.placed →
      sv.created k = false → s'.2.pciemPdev = none → s'.2.rootBus = none →
      (∀ n, s'.1.rootBuses n = true ↔ s.1.rootBuses n = true ∧ n ≠ s.1.nextBus) →
      BusInit sv k s (.error e, s')
  | made {s' : FunctionState δ} : MakesDevice sv k s.2.placed → OnOwnBus true k s s' →
      BusInit sv k s (.ok (), s')

section Init

theorem failDevice_virtual (hmode : s.2.busMode = .virtualRoot) :
    (failDevice s).2.pciemPdev = none ∧ (failDevice s).2.rootBus = none ∧
      ∀ n, (failDevice s).1.rootBuses n = true ↔
        s.1.rootBuses n = true ∧ s.2.rootBus ≠ some (.root n) := by
  have hpdev : (dropPdev s).2.pciemPdev = none ∧ (dropPdev s).2.rootBus = s.2.rootBus ∧
      (dropPdev s).2.busMode = s.2.busMode ∧ (dropPdev s).1.rootBuses = s.1.rootBuses := by
    rw [dropPdev, hmode]
    split
    · rename_i hnone
      exact ⟨hnone, rfl, hmode, rfl⟩
    · exact ⟨rfl, rfl, hmode, rfl⟩
  rw [failDevice]
  generalize dropPdev s = s' at hpdev ⊢
  obtain ⟨hnone, hbus, hmode', hbuses⟩ := hpdev
  rw [dropBus, hmode', hmode, ← hbus, ← hbuses]
  dsimp only
  cases hroot : s'.2.rootBus with
  | none => exact ⟨hnone, hroot, fun n ↦ by simp⟩
  | some bus =>
    refine ⟨hnone, rfl, fun n ↦ ?_⟩
    dsimp only
    rw [World.removeRootBus]
    dsimp only
    split_ifs with heq
    · exact iff_of_false (by simp) fun hand ↦ hand.2 (congrArg some heq)
    · exact (and_iff_left fun hno ↦ heq (Option.some.inj hno)).symm

theorem cleanupBars_view (s : FunctionState δ) :
    (pciemCleanupBars s).2.pciemPdev = s.2.pciemPdev ∧
      (pciemCleanupBars s).2.rootBus = s.2.rootBus ∧
      (pciemCleanupBars s).1.rootBuses = s.1.rootBuses := by
  obtain ⟨pool, heq, -⟩ := cleanupBars_eq s
  rw [heq]
  exact ⟨rfl, rfl, rfl⟩

/-- The root bus that was made for the function goes again. -/
theorem failDevice_onOwnBus (hmode : s.2.busMode = .virtualRoot) (h : OnOwnBus false k s s') :
    (failDevice s').2.pciemPdev = none ∧ (failDevice s').2.rootBus = none ∧
      ∀ n, (failDevice s').1.rootBuses n = true ↔
        s.1.rootBuses n = true ∧ n ≠ s.1.nextBus := by
  obtain ⟨hpdev, hbus, hbuses⟩ := failDevice_virtual (h.busMode.trans hmode)
  refine ⟨hpdev, hbus, fun n ↦ (hbuses n).trans ?_⟩
  rw [h.rootBus, h.rootBuses]
  by_cases hn : n = s.1.nextBus
  · subst hn
    exact iff_of_false (fun hand ↦ hand.2 rfl) fun hand ↦ hand.2 rfl
  · rw [Function.update_of_ne hn]
    exact and_congr_right fun _ ↦ iff_of_true (fun heq ↦ hn (PciBus.root.inj
      (Option.some.inj heq)).symm) hn

theorem busInit_completeInit (sv : Services) (k : ℕ) (hmode : s.2.busMode = .virtualRoot) :
    BusInit sv k s (pciemCompleteInit sv k s) := by
  have hown := onOwnBus_completeInit sv k hmode
  have hprepare : (prepare sv s).1 = .ok () ↔ Prepares sv s.2.placed := prepare_ok_iff
  have hstage := completeInit_stage sv k s
  generalize pciemCompleteInit sv k s = result at hown hstage ⊢
  cases hstage with
  | noPlatform hno =>
    refine .untouched (fun hmakes ↦ ?_) rfl rfl rfl
    cases hno.symm.trans hmakes.1
  | @noMemory _ placed _ heq =>
    have hview := cleanupBars_view (withPlaced s placed)
    generalize pciemCleanupBars (withPlaced s placed) = s' at hview ⊢
    refine .untouched (fun hmakes ↦ ?_) hview.1 hview.2.1 hview.2.2
    have hok := hprepare.mpr hmakes.2.1
    rw [heq] at hok
    cases hok
  | @noDevice e placed hplatform heq herr =>
    have hprepares : Prepares sv s.2.placed := hprepare.mp (by rw [heq])
    have hmode' : (withPlaced s placed).2.busMode = .virtualRoot := hmode
    have hview := cleanupBars_view (failDevice (initMode sv k (withPlaced s placed)).2)
    generalize pciemCleanupBars (failDevice (initMode sv k (withPlaced s placed)).2) = s' at hview ⊢
    obtain ⟨hpdev', hbus', hbuses'⟩ := hview
    rw [initMode_of_virtual hmode'] at herr hpdev' hbus' hbuses'
    cases hbridge : sv.bridge with
    | error e' =>
      obtain ⟨hpdev, hbus, hbuses⟩ := failDevice_virtual hmode'
      rw [initVirtual_of_error hbridge] at hpdev' hbus' hbuses'
      refine .dropped (fun hmakes ↦ ?_) (hpdev'.trans hpdev) (hbus'.trans hbus) fun n ↦ ?_
      · cases hbridge.symm.trans hmakes.2.2
      · rw [hbuses']
        exact hbuses n
    | ok _ =>
      obtain ⟨honown, hresult⟩ := onOwnBus_initVirtual hbridge k (withPlaced s placed)
      have hcreated : sv.created k = false := by
        cases hcreated : sv.created k with
        | false => rfl
        | true =>
          rw [herr, hcreated] at hresult
          cases hresult
      rw [hcreated] at honown
      obtain ⟨hpdev, hbus, hbuses⟩ := failDevice_onOwnBus hmode' honown
      refine .noDevice ⟨hplatform, hprepares, hbridge⟩ hcreated (hpdev'.trans hpdev)
        (hbus'.trans hbus) fun n ↦ ?_
      rw [hbuses']
      exact hbuses n
  | @done placed hplatform heq hok =>
    have hprepares : Prepares sv s.2.placed := hprepare.mp (by rw [heq])
    have hmode' : (withPlaced s placed).2.busMode = .virtualRoot := hmode
    have hown' := hown hok
    have hmakes : sv.bridge = .ok () ∧ sv.created k = true := by
      rw [initMode_of_virtual hmode'] at hok
      cases hbridge : sv.bridge with
      | error e =>
        rw [initVirtual_of_error hbridge] at hok
        cases hok
      | ok _ =>
        refine ⟨rfl, ?_⟩
        have hresult := (onOwnBus_initVirtual hbridge k (withPlaced s placed)).2
        cases hcreated : sv.created k with
        | true => rfl
        | false =>
          rw [hok, hcreated] at hresult
          cases hresult
    generalize initMode sv k (withPlaced s placed) = result at hok hown' ⊢
    obtain ⟨r, s'⟩ := result
    cases hok
    exact .made ⟨⟨hplatform, hprepares, hmakes.1⟩, hmakes.2⟩ hown'

/-- On the bus of the host no root bus comes or goes, and only function 0 gets a device. -/
theorem attach_completeInit (sv : Services) (k : ℕ) (hmode : s.2.busMode = .attachToHost) :
    (pciemCompleteInit sv k s).2.1.rootBuses = s.1.rootBuses ∧
      (k ≠ 0 → s.2.pciemPdev = none → s.2.rootBus = none →
        (pciemCompleteInit sv k s).2.2.pciemPdev = none ∧
          (pciemCompleteInit sv k s).2.2.rootBus = none) := by
  have hstage := completeInit_stage sv k s
  generalize pciemCompleteInit sv k s = result at hstage ⊢
  have hinit (placed : PlacedFunction) :
      (initMode sv k (withPlaced s placed)).2.1.rootBuses = s.1.rootBuses ∧
        (initMode sv k (withPlaced s placed)).2.2.busMode = .attachToHost ∧
        (k ≠ 0 → (initMode sv k (withPlaced s placed)).2 = withPlaced s placed) := by
    have hmode' : (withPlaced s placed).2.busMode = .attachToHost := hmode
    rw [initMode_of_attach hmode']
    have hhost := hostInit_initAttach sv k (withPlaced s placed)
    generalize pciemInitAttachToHostMode sv k (withPlaced s placed) = result at hhost ⊢
    cases hhost with
    | early => exact ⟨rfl, hmode', fun _ ↦ rfl⟩
    | noDevice _ hk _ => exact ⟨rfl, hmode', fun hne ↦ absurd hk hne⟩
    | done _ _ hk => exact ⟨rfl, hmode', fun hne ↦ absurd hk hne⟩
  have hfail (s : FunctionState δ) (hmode : s.2.busMode = .attachToHost) :
      (failDevice s).1.rootBuses = s.1.rootBuses ∧
        (s.2.pciemPdev = none → s.2.rootBus = none →
          (failDevice s).2.pciemPdev = none ∧ (failDevice s).2.rootBus = none) := by
    have hpdev : (dropPdev s).1.rootBuses = s.1.rootBuses ∧
        (dropPdev s).2.busMode = .attachToHost ∧
        (s.2.pciemPdev = none → dropPdev s = s) := by
      rw [dropPdev]
      split
      · exact ⟨rfl, hmode, fun _ ↦ rfl⟩
      · rename_i hsome
        rw [hmode]
        refine ⟨rfl, rfl, fun hnone ↦ ?_⟩
        cases hnone.symm.trans hsome
    have hbus (s : FunctionState δ) (hmode : s.2.busMode = .attachToHost) :
        (dropBus s).1.rootBuses = s.1.rootBuses ∧ (dropBus s).2 = s.2 := by
      rw [dropBus, hmode]
      dsimp only
      split
      · exact ⟨rfl, rfl⟩
      · exact ⟨rfl, rfl⟩
    rw [failDevice]
    obtain ⟨hbuses, hsame⟩ := hbus (dropPdev s) hpdev.2.1
    refine ⟨hbuses.trans hpdev.1, fun hnone hroot ↦ ?_⟩
    rw [hsame, hpdev.2.2 hnone]
    exact ⟨hnone, hroot⟩
  cases hstage with
  | noPlatform => exact ⟨rfl, fun _ hpdev hbus ↦ ⟨hpdev, hbus⟩⟩
  | @noMemory _ placed _ _ =>
    obtain ⟨hpdev, hbus, hbuses⟩ := cleanupBars_view (withPlaced s placed)
    dsimp only
    exact ⟨hbuses, fun _ hnone hroot ↦ ⟨hpdev.trans hnone, hbus.trans hroot⟩⟩
  | @noDevice _ placed _ _ _ =>
    obtain ⟨hsame, hmode', hother⟩ := hinit placed
    obtain ⟨hbuses, hnone⟩ := hfail _ hmode'
    have hview := cleanupBars_view (failDevice (initMode sv k (withPlaced s placed)).2)
    dsimp only
    refine ⟨hview.2.2.trans (hbuses.trans hsame), fun hk hpdev hroot ↦ ?_⟩
    obtain ⟨hpdev', hroot'⟩ := hnone (by rw [hother hk]; exact hpdev)
      (by rw [hother hk]; exact hroot)
    exact ⟨hview.1.trans hpdev', hview.2.1.trans hroot'⟩
  | @done placed _ _ _ =>
    obtain ⟨hsame, -, hother⟩ := hinit placed
    refine ⟨hsame, fun hk hpdev hroot ↦ ?_⟩
    rw [hother hk]
    exact ⟨hpdev, hroot⟩

end Init

section Slot

/-- Function 0 and its root bus change, and nothing else. -/
theorem owned_setFunc_zero {world : World δ} {v' : RootComplex δ} (h : Owned us)
    (hbuses : ∀ n, world.rootBuses n = true ↔
      v'.busMode = .virtualRoot ∧ v'.rootBus = some (.root n))
    (hkind : v'.busMode = .virtualRoot → v'.rootBus ≠ some .host)
    (hfresh : ∀ n, world.rootBuses n = true → n < world.nextBus) :
    Owned (setFunc us world 0 v') where
  others k w hk hw := h.others k w hk ((setFunc_of_ne hk us world v').symm.trans hw)
  own n := by
    refine (hbuses n).trans ⟨fun hv ↦ ⟨v', setFunc_self us world 0 v', hv⟩, ?_⟩
    rintro ⟨w, hw, hv⟩
    obtain rfl := Option.some.inj ((setFunc_self us world 0 v').symm.trans hw)
    exact hv
  kind w hw := by
    obtain rfl := Option.some.inj ((setFunc_self us world 0 v').symm.trans hw)
    exact hkind
  fresh := hfresh

theorem owned_setFunc_other {world : World δ} {v' : RootComplex δ} (h : Owned us) (hk : k ≠ 0)
    (hpdev : v'.pciemPdev = none) (hbus : v'.rootBus = none)
    (hbuses : ∀ n, world.rootBuses n = true ↔ us.world.rootBuses n = true)
    (hnext : us.world.nextBus ≤ world.nextBus) : Owned (setFunc us world k v') where
  others j w hj hw := by
    by_cases hjk : j = k
    · subst hjk
      obtain rfl := Option.some.inj ((setFunc_self us world j v').symm.trans hw)
      exact ⟨hpdev, hbus⟩
    · exact h.others j w hj ((setFunc_of_ne hjk us world v').symm.trans hw)
  own n := by
    rw [setFunc_of_ne (Ne.symm hk)]
    exact (hbuses n).trans (h.own n)
  kind w hw := h.kind w ((setFunc_of_ne (Ne.symm hk) us world v').symm.trans hw)
  fresh n hn := Nat.lt_of_lt_of_le (h.fresh n ((hbuses n).mp hn)) hnext

theorem own_iff (h : Owned us) (h0 : us.slot.funcs 0 = some v) (n : ℕ) :
    us.world.rootBuses n = true ↔ v.busMode = .virtualRoot ∧ v.rootBus = some (.root n) := by
  refine (h.own n).trans ⟨?_, fun hv ↦ ⟨v, h0, hv⟩⟩
  rintro ⟨w, hw, hv⟩
  obtain rfl := Option.some.inj (h0.symm.trans hw)
  exact hv

/-- Function 0 is initialised, and has no root bus to lose. -/
theorem owned_initZero (h : Owned us) (h0 : us.slot.funcs 0 = some v)
    (hkeeps : v.busMode = .virtualRoot → v.rootBus.isSome → ¬ MakesBus sv v.placed) :
    Owned (onFunc 0 (pciemCompleteInit sv 0) us).2 := by
  have hown := own_iff h h0
  have hframe := frame_completeInit sv 0 (us.world, v)
  rw [onFunc_of_some h0]
  cases hmode : v.busMode with
  | attachToHost =>
    obtain ⟨hbuses, -⟩ := attach_completeInit (s := (us.world, v)) sv 0 hmode
    have hmode' := hframe.busMode.trans hmode
    refine owned_setFunc_zero h (fun n ↦ ?_) (fun hno ↦ nomatch hmode'.symm.trans hno) fun n hn ↦ ?_
    · rw [hbuses, hmode', hown, hmode]
      exact iff_of_false (fun hno ↦ nomatch hno.1) fun hno ↦ nomatch hno.1
    · rw [hbuses, hown, hmode] at hn
      cases hn.1
  | virtualRoot =>
    have hinit := busInit_completeInit (s := (us.world, v)) sv 0 hmode
    have hmode' := hframe.busMode.trans hmode
    have hnext := hframe.nextBus
    have hnone (hmakes : MakesBus sv v.placed) : v.rootBus = none := by
      cases hbus : v.rootBus with
      | none => rfl
      | some bus => exact absurd hmakes (hkeeps hmode (by rw [hbus]; rfl))
    generalize pciemCompleteInit sv 0 (us.world, v) = result at hinit hmode' hnext ⊢
    have hgone {s' : FunctionState δ} (hbus : s'.2.rootBus = none)
        (hall : ∀ n, s'.1.rootBuses n ≠ true) : Owned (setFunc us s'.1 0 s'.2) := by
      refine owned_setFunc_zero h (fun n ↦ ?_) (fun _ ↦ ?_) fun n hn ↦ absurd hn (hall n)
      · rw [hbus]
        exact iff_of_false (hall n) fun hno ↦ nomatch hno.2
      · rw [hbus]
        nofun
    cases hinit with
    | @untouched _ s' _ _ hbus hbuses =>
      refine owned_setFunc_zero h (fun n ↦ ?_) (fun _ ↦ ?_) fun n hn ↦ ?_
      · rw [hbuses, hmode', hbus, hown, hmode]
      · rw [hbus]
        exact h.kind v h0 hmode
      · rw [hbuses] at hn
        exact Nat.lt_of_lt_of_le (h.fresh n hn) hnext
    | dropped _ _ hbus hbuses =>
      refine hgone hbus fun n hn ↦ ?_
      obtain ⟨hpresent, hne⟩ := (hbuses n).mp hn
      exact hne ((hown n).mp hpresent).2
    | noDevice hmakes _ _ hbus hbuses =>
      refine hgone hbus fun n hn ↦ ?_
      cases (hnone hmakes).symm.trans ((hown n).mp ((hbuses n).mp hn).1).2
    | @made s' hmakes hmade =>
      have hold (n : ℕ) : us.world.rootBuses n ≠ true := by
        intro hn
        cases (hnone hmakes.1).symm.trans ((hown n).mp hn).2
      have hnew (n : ℕ) : s'.1.rootBuses n = true ↔ n = us.world.nextBus := by
        rw [hmade.rootBuses]
        by_cases hn : n = us.world.nextBus
        · subst hn
          exact iff_of_true (Function.update_self _ _ _) rfl
        · rw [Function.update_of_ne hn]
          exact iff_of_false (hold n) hn
      refine owned_setFunc_zero h (fun n ↦ ?_) (fun _ ↦ ?_) fun n hn ↦ ?_
      · rw [hnew, hmade.rootBus, and_iff_right hmode']
        exact ⟨fun hn ↦ hn ▸ rfl, fun heq ↦ (PciBus.root.inj (Option.some.inj heq)).symm⟩
      · rw [hmade.rootBus]
        nofun
      · rw [(hnew n).mp hn]
        exact Nat.lt_of_lt_of_eq (Nat.lt_succ_self _) hmade.nextBus.symm

/-- Function 0 gets a second root bus, and the first one is lost. -/
theorem orphan_initZero (h : Owned us) (h0 : us.slot.funcs 0 = some v)
    (hmode : v.busMode = .virtualRoot) (hbus : v.rootBus.isSome) (hmakes : MakesBus sv v.placed) :
    ∃ n, n < us.world.nextBus ∧ Orphan n (onFunc 0 (pciemCompleteInit sv 0) us).2 := by
  have hown := own_iff h h0
  obtain ⟨bus, hbus⟩ := Option.isSome_iff_exists.mp hbus
  cases bus with
  | host => exact absurd hbus (h.kind v h0 hmode)
  | root n =>
    have hpresent : us.world.rootBuses n = true := (hown n).mpr ⟨hmode, hbus⟩
    have hlt := h.fresh n hpresent
    refine ⟨n, hlt, ?_⟩
    have hinit := busInit_completeInit (s := (us.world, v)) sv 0 hmode
    rw [onFunc_of_some h0]
    generalize pciemCompleteInit sv 0 (us.world, v) = result at hinit ⊢
    have horphan {s' : FunctionState δ} (hn : s'.1.rootBuses n = true)
        (hne : s'.2.rootBus ≠ some (.root n)) : Orphan n (setFunc us s'.1 0 s'.2) := by
      refine ⟨hn, fun k w hw ↦ ?_⟩
      by_cases hk : k = 0
      · subst hk
        obtain rfl := Option.some.inj ((setFunc_self us s'.1 0 s'.2).symm.trans hw)
        exact hne
      · rw [(h.others k w hk ((setFunc_of_ne hk us s'.1 s'.2).symm.trans hw)).2]
        nofun
    cases hinit with
    | untouched hno => exact absurd hmakes hno
    | dropped hno => exact absurd hmakes hno
    | noDevice _ _ _ hnone hbuses =>
      refine horphan ((hbuses n).mpr ⟨hpresent, Nat.ne_of_lt hlt⟩) ?_
      rw [hnone]
      nofun
    | made _ hmade =>
      refine horphan ?_ ?_
      · rw [hmade.rootBuses]
        exact (Function.update_of_ne (Nat.ne_of_lt hlt) _ _).trans hpresent
      · rw [hmade.rootBus]
        intro heq
        exact Nat.ne_of_gt hlt (PciBus.root.inj (Option.some.inj heq))

theorem owned_initOther (sv : Services) (h : Owned us) (hk : k ≠ 0) (hfn : us.slot.funcs k = some v)
    (hno : v.busMode = .virtualRoot → ¬ MakesDevice sv k v.placed) :
    Owned (onFunc k (pciemCompleteInit sv k) us).2 := by
  obtain ⟨hpdev, hbus⟩ := h.others k v hk hfn
  have hframe := frame_completeInit sv k (us.world, v)
  rw [onFunc_of_some hfn]
  cases hmode : v.busMode with
  | attachToHost =>
    obtain ⟨hbuses, hnone⟩ := attach_completeInit (s := (us.world, v)) sv k hmode
    obtain ⟨hpdev', hbus'⟩ := hnone hk hpdev hbus
    exact owned_setFunc_other h hk hpdev' hbus' (fun n ↦ by rw [hbuses]) hframe.nextBus
  | virtualRoot =>
    have hinit := busInit_completeInit (s := (us.world, v)) sv k hmode
    have hnext := hframe.nextBus
    generalize pciemCompleteInit sv k (us.world, v) = result at hinit hnext ⊢
    cases hinit with
    | untouched _ hpdev' hbus' hbuses =>
      exact owned_setFunc_other h hk (hpdev'.trans hpdev) (hbus'.trans hbus)
        (fun n ↦ by rw [hbuses]) hnext
    | dropped _ hpdev' hbus' hbuses =>
      refine owned_setFunc_other h hk hpdev' hbus' (fun n ↦ (hbuses n).trans ?_) hnext
      refine and_iff_left ?_
      rw [hbus]
      nofun
    | noDevice _ _ hpdev' hbus' hbuses =>
      exact owned_setFunc_other h hk hpdev' hbus' (fun n ↦ (hbuses n).trans
        (and_iff_left_of_imp fun hn ↦ Nat.ne_of_lt (h.fresh n hn))) hnext
    | made hmakes => exact absurd hmakes (hno hmode)

theorem setFunc_funcs (us : PciemUserspaceState δ) (world : World δ) (k : ℕ) (v : RootComplex δ)
    {j : ℕ} {w : RootComplex δ} (hw : (setFunc us world k v).slot.funcs j = some w) :
    j = k ∧ w = v ∨ j ≠ k ∧ us.slot.funcs j = some w := by
  by_cases hj : j = k
  · subst hj
    exact .inl ⟨rfl, Option.some.inj (hw.symm.trans (setFunc_self us world j v))⟩
  · exact .inr ⟨hj, (setFunc_of_ne hj us world v).symm.trans hw⟩

variable {func0 fn : RootComplex δ}

/-- A function that joins function 0 takes over its root bus. -/
theorem orphan_attachFunc (sv : Services) (h0 : us.slot.funcs 0 = some func0)
    (hfn : us.slot.funcs k = some fn) (hmode : func0.busMode = .virtualRoot)
    (hpresent : us.world.rootBuses n = true)
    (hothers : ∀ j w, j ≠ k → us.slot.funcs j = some w → w.rootBus ≠ some (.root n))
    (hzero : func0.rootBus ≠ some (.root n))
    (hrefused : k = 0 ∨ k ≥ pciemMaxFunctions ∨ func0.bridgePriv = none ∨ func0.rootBus = none →
      fn.rootBus ≠ some (.root n)) : Orphan n (attachFunc sv k us).2 := by
  have hjoined := attachFunction_joined (k := k) sv fn hmode us.world
  rw [attachFunc, h0, hfn]
  dsimp only
  generalize pciemAttachFunction sv k us.world func0 fn = result at hjoined ⊢
  have horphan (world : World δ) (fn' : RootComplex δ)
      (hbuses : world.rootBuses = us.world.rootBuses) (hne : fn'.rootBus ≠ some (.root n)) :
      Orphan n (setFunc (setFunc us world 0 func0) world k fn') := by
    refine ⟨(congrFun hbuses n).trans hpresent, fun j w hw ↦ ?_⟩
    rcases setFunc_funcs _ _ _ _ hw with ⟨-, rfl⟩ | ⟨hj, hw⟩
    · exact hne
    · rcases setFunc_funcs _ _ _ _ hw with ⟨-, rfl⟩ | ⟨-, hw⟩
      · exact hzero
      · exact hothers j w hj hw
  cases hjoined with
  | refused hcases => exact horphan _ _ rfl (hrefused hcases)
  | noDevice hbus => exact horphan { us.world with priv := _ } _ rfl (hbus ▸ hzero)
  | joined hbus => exact horphan { us.world with priv := _ } _ rfl (hbus ▸ hzero)

/-- A later function makes a root bus of its own and then gives it up for that of function 0. -/
theorem orphan_registerOther_made (h : Owned us) (hk : k ≠ 0) (hk' : k < pciemMaxFunctions)
    (h0 : us.slot.funcs 0 = some func0) (hmode0 : func0.busMode = .virtualRoot)
    (hbus0 : func0.rootBus.isSome) (hpriv0 : func0.bridgePriv.isSome)
    (hfn : us.slot.funcs k = some fn) (hmode : fn.busMode = .virtualRoot)
    (hmakes : MakesDevice (svs k) k fn.placed) :
    Orphan us.world.nextBus (registerOther svs k us).2 := by
  have hold : us.world.rootBuses us.world.nextBus ≠ true :=
    fun hn ↦ Nat.lt_irrefl _ (h.fresh _ hn)
  have hzero : func0.rootBus ≠ some (.root us.world.nextBus) :=
    fun heq ↦ hold ((own_iff h h0 _).mpr ⟨hmode0, heq⟩)
  have hinit := busInit_completeInit (s := (us.world, fn)) (svs k) k hmode
  rw [registerOther, andThen]
  have honFunc := onFunc_of_some (x := pciemCompleteInit (svs k) k) hfn
  generalize pciemCompleteInit (svs k) k (us.world, fn) = result at hinit honFunc
  rw [honFunc]
  cases hinit with
  | untouched hno => exact absurd hmakes.1 hno
  | dropped hno => exact absurd hmakes.1 hno
  | noDevice _ hcreated => cases hcreated.symm.trans hmakes.2
  | @made s' _ hmade =>
    dsimp only
    refine orphan_attachFunc (svs k) ((setFunc_of_ne (Ne.symm hk) us s'.1 s'.2).trans h0)
      (setFunc_self us s'.1 k s'.2) hmode0 ?_ (fun j w hj hw ↦ ?_) hzero fun hcases ↦ ?_
    · change s'.1.rootBuses us.world.nextBus = true
      rw [hmade.rootBuses]
      exact Function.update_self _ _ _
    · have hw' := (setFunc_of_ne hj us s'.1 s'.2).symm.trans hw
      by_cases hj0 : j = 0
      · subst hj0
        obtain rfl := Option.some.inj (h0.symm.trans hw')
        exact hzero
      · simp [(h.others j w hj0 hw').2]
    · rcases hcases with hno | hno | hno | hno
      · exact absurd hno hk
      · exact absurd hk' (Nat.not_lt.mpr hno)
      · rw [hno] at hpriv0
        cases hpriv0
      · rw [hno] at hbus0
        cases hbus0

theorem orphan_registerOther (h : Orphan n us) (hn : n < us.world.nextBus) (hk : k ≠ 0)
    (h0 : us.slot.funcs 0 = some func0) (hmode0 : func0.busMode = .virtualRoot)
    (hmode : ∀ fn, us.slot.funcs k = some fn → fn.busMode = .virtualRoot) :
    Orphan n (registerOther svs k us).2 := by
  cases hfn : us.slot.funcs k with
  | none =>
    rw [registerOther, andThen_of_ok (by rw [onFunc_of_none hfn]), onFunc_of_none hfn,
      attachFunc_of_none hfn]
    exact h
  | some fn =>
    have hinit := busInit_completeInit (s := (us.world, fn)) (svs k) k (hmode fn hfn)
    rw [registerOther, andThen]
    have honFunc := onFunc_of_some (x := pciemCompleteInit (svs k) k) hfn
    generalize pciemCompleteInit (svs k) k (us.world, fn) = result at hinit honFunc
    rw [honFunc]
    have hset {s' : FunctionState δ} (hpresent : s'.1.rootBuses n = true)
        (hne : s'.2.rootBus ≠ some (.root n)) : Orphan n (setFunc us s'.1 k s'.2) := by
      refine ⟨hpresent, fun j w hw ↦ ?_⟩
      rcases setFunc_funcs _ _ _ _ hw with ⟨-, rfl⟩ | ⟨-, hw⟩
      · exact hne
      · exact h.unowned j w hw
    cases hinit with
    | untouched _ _ hbus hbuses =>
      exact hset (by rw [hbuses]; exact h.present) (by rw [hbus]; exact h.unowned k fn hfn)
    | dropped _ _ hbus hbuses =>
      exact hset ((hbuses n).mpr ⟨h.present, h.unowned k fn hfn⟩) (by simp [hbus])
    | noDevice _ _ _ hbus hbuses =>
      exact hset ((hbuses n).mpr ⟨h.present, Nat.ne_of_lt hn⟩) (by simp [hbus])
    | @made s' _ hmade =>
      have hne : s'.2.rootBus ≠ some (.root n) := by
        rw [hmade.rootBus]
        intro heq
        exact Nat.ne_of_gt hn (PciBus.root.inj (Option.some.inj heq))
      have hafter : Orphan n (setFunc us s'.1 k s'.2) := by
        refine hset ?_ hne
        rw [hmade.rootBuses]
        exact (Function.update_of_ne (Nat.ne_of_lt hn) _ _).trans h.present
      dsimp only
      exact orphan_attachFunc (svs k) ((setFunc_of_ne (Ne.symm hk) us s'.1 s'.2).trans h0)
        (setFunc_self us s'.1 k s'.2) hmode0 hafter.present (fun j w _ hw ↦ hafter.unowned j w hw)
        (h.unowned 0 func0 h0) fun _ ↦ hne

end Slot

/-- In virtual-root mode, function 0 makes no second root bus, and once it has its device the
next function does not get one on a root bus of its own. -/
def Tidy (us : PciemUserspaceState δ) (c : Command δ) : Prop :=
  match c with
  | .register svs _ => us.registered = .unregistered → us.slot.busMode = .virtualRoot →
      ∀ v, us.slot.funcs 0 = some v →
        (v.rootBus.isSome → ¬ MakesBus (svs 0) v.placed) ∧
        (MakesDevice (svs 0) 0 v.placed → ∀ k fn, First us k → us.slot.funcs k = some fn →
          ¬ MakesDevice (svs k) k fn.placed)
  | _ => True

section Run

theorem makesBus_build (numFuncs k : ℕ) (f : PlacedFunction) :
    MakesBus sv (buildFunction numFuncs k f) ↔ MakesBus sv f := by
  obtain ⟨hbars, hplaces⟩ := bars_buildFunction numFuncs k f
  rw [MakesBus, MakesBus, prepares_congr hbars hplaces]

theorem funcs_buildFunctions (hv : us.slot.funcs k = some v) :
    (buildFunctions us).slot.funcs k =
      some { v with placed := buildFunction us.slot.numFuncs k v.placed } := by
  rw [buildFunctions]
  dsimp only
  rw [hv]
  rfl

theorem owned_buildFunctions (h : Owned us) : Owned (buildFunctions us) := by
  have hfunc (k : ℕ) (w : RootComplex δ) (hw : (buildFunctions us).slot.funcs k = some w) :
      ∃ v, us.slot.funcs k = some v ∧ w.pciemPdev = v.pciemPdev ∧ w.rootBus = v.rootBus ∧
        w.busMode = v.busMode := by
    obtain ⟨v, hv, rfl⟩ := Option.map_eq_some_iff.mp hw
    exact ⟨v, hv, rfl, rfl, rfl⟩
  refine ⟨fun k w hk hw ↦ ?_, fun n ↦ ?_, fun w hw ↦ ?_, h.fresh⟩
  · obtain ⟨v, hv, hpdev, hbus, -⟩ := hfunc k w hw
    rw [hpdev, hbus]
    exact h.others k v hk hv
  · refine (h.own n).trans ⟨?_, ?_⟩
    · rintro ⟨v, hv, hmode, hbus⟩
      exact ⟨_, funcs_buildFunctions hv, hmode, hbus⟩
    · rintro ⟨w, hw, hmode, hbus⟩
      obtain ⟨v, hv, -, hbus', hmode'⟩ := hfunc 0 w hw
      exact ⟨v, hv, hmode' ▸ hmode, hbus' ▸ hbus⟩
  · obtain ⟨v, hv, -, hbus, hmode⟩ := hfunc 0 w hw
    rw [hbus, hmode]
    exact h.kind v hv

/-- The state after a REGISTER, but for the registration. -/
theorem register_state (svs : ℕ → Services) (fd : Except Errno Unit)
    (hreg : us.registered = .unregistered) (h0 : (us.slot.funcs 0).isSome) : ∃ r,
    (pciemIoctlRegister svs fd us).2 =
      { (registerFunctions svs { us with registered := .registering }).2 with
        registered := r } := by
  have hstart := startRegistration_of_unregistered hreg h0
  let us' : PciemUserspaceState δ := { us with registered := .registering }
  change pciemStartRegistration us = (.ok (), us') at hstart
  rw [pciemIoctlRegister, andThen_of_ok (by rw [hstart]), hstart]
  dsimp only
  cases hresult : (registerFunctions svs us').1 with
  | ok _ =>
    have hok : (onError (registerFunctions svs) pciemCancelRegistration us').1 = .ok () :=
      onError_fst.trans hresult
    rw [andThen_of_ok hok, onError_of_ok hresult]
    exact ⟨.registered, rfl⟩
  | error e =>
    have herr : (onError (registerFunctions svs) pciemCancelRegistration us').1 = .error e :=
      onError_fst.trans hresult
    rw [andThen_of_error herr, onError_of_error hresult]
    exact ⟨.unregistered, rfl⟩

/-- The first stage of REGISTER, and what function 0 looks like after it. -/
theorem func0_of_init (h0 : us.slot.funcs 0 = some v) (hmode : v.busMode = .virtualRoot)
    (hok : (onFunc 0 (pciemCompleteInit sv 0) us).1 = .ok ()) :
    MakesDevice sv 0 v.placed ∧
      ∃ w, (onFunc 0 (pciemCompleteInit sv 0) us).2.slot.funcs 0 = some w ∧
        w.busMode = .virtualRoot ∧ w.rootBus.isSome ∧ w.bridgePriv.isSome := by
  have hinit := busInit_completeInit (s := (us.world, v)) sv 0 hmode
  rw [onFunc_of_some h0] at hok ⊢
  generalize pciemCompleteInit sv 0 (us.world, v) = result at hok hinit ⊢
  cases hinit with
  | untouched => cases hok
  | dropped => cases hok
  | noDevice => cases hok
  | @made s' hmakes hmade =>
    refine ⟨hmakes, s'.2, setFunc_self us s'.1 0 s'.2, hmade.busMode.trans hmode, ?_, ?_⟩
    · rw [hmade.rootBus]
      rfl
    · rw [hmade.bridgePriv]
      rfl

theorem init_ok_of_makesDevice (hmode : s.2.busMode = .virtualRoot)
    (h : MakesDevice sv k s.2.placed) : (pciemCompleteInit sv k s).1 = .ok () := by
  have hinit := busInit_completeInit sv k hmode
  generalize pciemCompleteInit sv k s = result at hinit ⊢
  cases hinit with
  | untouched hno => exact absurd h.1 hno
  | dropped hno => exact absurd h.1 hno
  | noDevice _ hcreated => cases hcreated.symm.trans h.2
  | made => rfl

theorem makesDevice_of_ok (hmode : s.2.busMode = .virtualRoot)
    (h : (pciemCompleteInit sv k s).1 = .ok ()) : MakesDevice sv k s.2.placed := by
  have hinit := busInit_completeInit sv k hmode
  generalize pciemCompleteInit sv k s = result at h hinit
  cases hinit with
  | untouched => cases h
  | dropped => cases h
  | noDevice => cases h
  | made hmakes => exact hmakes

theorem funcs_onFunc {x : FunctionCall δ} (hk : k ≠ 0) (us : PciemUserspaceState δ) :
    (onFunc 0 x us).2.slot.funcs k = us.slot.funcs k := by
  cases h0 : us.slot.funcs 0 with
  | none => rw [onFunc_of_none h0]
  | some v =>
    rw [onFunc_of_some h0]
    exact setFunc_of_ne hk us _ _

theorem owned_registerOther (h : Owned us) (hk : k ≠ 0) (hfn : us.slot.funcs k = some v)
    (hno : v.busMode = .virtualRoot → ¬ MakesDevice (svs k) k v.placed) :
    Owned (registerOther svs k us).2 := by
  have hinit := owned_initOther (svs k) h hk hfn hno
  cases hok : (onFunc k (pciemCompleteInit (svs k) k) us).1 with
  | error e =>
    rw [registerOther, andThen_of_error hok]
    exact hinit
  | ok _ =>
    rw [onFunc_of_some hfn] at hok
    cases hmode : v.busMode with
    | attachToHost =>
      exact absurd (eq_zero_of_completeInit_attach (s := (us.world, v)) hmode hok) hk
    | virtualRoot =>
      have hbus := busInit_completeInit (s := (us.world, v)) (svs k) k hmode
      generalize pciemCompleteInit (svs k) k (us.world, v) = result at hok hbus
      cases hbus with
      | untouched => cases hok
      | dropped => cases hok
      | noDevice => cases hok
      | made hmakes => exact absurd hmakes (hno hmode)

theorem alone_of_not_first (h : ¬ ∃ k, First us k) (k : ℕ) (hk : k ≠ 0) :
    us.slot.funcs k = none := by
  by_contra hsome
  exact h (exists_first hk (Option.isSome_iff_ne_none.mpr hsome))

theorem owned_registerFunctions (hwf : WellFormed us) (h : Owned us)
    (h0 : us.slot.funcs 0 = some v)
    (hzero : v.busMode = .virtualRoot → v.rootBus.isSome → ¬ MakesBus (svs 0) v.placed)
    (hothers : v.busMode = .virtualRoot → MakesDevice (svs 0) 0 v.placed → ∀ k fn, First us k →
      us.slot.funcs k = some fn → ¬ MakesDevice (svs k) k fn.placed) :
    Owned (registerFunctions svs us).2 := by
  have h0' := funcs_buildFunctions h0
  have hinit : Owned (onFunc 0 (pciemCompleteInit (svs 0) 0) (buildFunctions us)).2 :=
    owned_initZero (owned_buildFunctions h) h0' fun hmode hbus hmakes ↦
      hzero hmode hbus ((makesBus_build _ _ _).mp hmakes)
  cases hok : (onFunc 0 (pciemCompleteInit (svs 0) 0) (buildFunctions us)).1 with
  | error e =>
    rw [registerFunctions_of_error svs hok]
    exact hinit
  | ok _ =>
    by_cases hex : ∃ k, First us k
    · obtain ⟨k, hfirst⟩ := hex
      obtain ⟨fn, hfn⟩ := Option.isSome_iff_exists.mp hfirst.isSome
      rw [registerFunctions_first svs hwf hfirst hok]
      have hfn' := (funcs_onFunc (x := pciemCompleteInit (svs 0) 0) hfirst.ne
        (buildFunctions us)).trans (funcs_buildFunctions hfn)
      refine owned_registerOther hinit hfirst.ne hfn' fun hmode hmakes ↦ ?_
      have hmode0 : v.busMode = .virtualRoot :=
        (hwf.mode 0 v h0).trans ((hwf.mode k fn hfn).symm.trans hmode)
      have hdevice := (func0_of_init h0' hmode0 hok).1
      exact hothers hmode0 ⟨(makesBus_build _ _ _).mp hdevice.1, hdevice.2⟩ k fn hfirst hfn
        ⟨(makesBus_build _ _ _).mp hmakes.1, hmakes.2⟩
    · rw [registerFunctions_of_alone svs hok fun k hk ↦ alone_of_not_first hex k hk]
      exact hinit

theorem orphan_registerFunctions_zero (hwf : WellFormed us) (h : Owned us)
    (h0 : us.slot.funcs 0 = some v) (hmode : v.busMode = .virtualRoot) (hbus : v.rootBus.isSome)
    (hmakes : MakesBus (svs 0) v.placed) : ∃ n, Orphan n (registerFunctions svs us).2 := by
  have h0' := funcs_buildFunctions h0
  have hbuilt := kept_buildFunctions us
  have hkept := kept_onFunc (k := 0) (frame_completeInit (svs 0) 0) (buildFunctions us)
  obtain ⟨n, hn, horphan⟩ := orphan_initZero (owned_buildFunctions h) h0' hmode hbus
    ((makesBus_build _ _ _).mpr hmakes)
  refine ⟨n, ?_⟩
  cases hok : (onFunc 0 (pciemCompleteInit (svs 0) 0) (buildFunctions us)).1 with
  | error e =>
    rw [registerFunctions_of_error svs hok]
    exact horphan
  | ok _ =>
    by_cases hex : ∃ k, First us k
    · obtain ⟨k, hfirst⟩ := hex
      obtain ⟨-, w, hw, hwmode, -⟩ := func0_of_init h0' hmode hok
      rw [registerFunctions_first svs hwf hfirst hok]
      refine orphan_registerOther horphan (Nat.lt_of_lt_of_le hn hkept.nextBus) hfirst.ne hw hwmode
        fun fn hfn ↦ ?_
      have hwf' := hkept.wellFormed (hbuilt.wellFormed hwf)
      rw [hwf'.mode k fn hfn, ← hwf'.mode 0 w hw]
      exact hwmode
    · rw [registerFunctions_of_alone svs hok fun k hk ↦ alone_of_not_first hex k hk]
      exact horphan

theorem orphan_registerFunctions_other (hwf : WellFormed us) (h : Owned us)
    (h0 : us.slot.funcs 0 = some v) (hmode : v.busMode = .virtualRoot)
    (hzero : v.rootBus.isSome → ¬ MakesBus (svs 0) v.placed)
    (hmakes : MakesDevice (svs 0) 0 v.placed) {fn : RootComplex δ} (hfirst : First us k)
    (hfn : us.slot.funcs k = some fn) (hmakes' : MakesDevice (svs k) k fn.placed) :
    ∃ n, Orphan n (registerFunctions svs us).2 := by
  have h0' := funcs_buildFunctions h0
  have hinit : Owned (onFunc 0 (pciemCompleteInit (svs 0) 0) (buildFunctions us)).2 :=
    owned_initZero (owned_buildFunctions h) h0' fun _ hbus hno ↦
      hzero hbus ((makesBus_build _ _ _).mp hno)
  have hok : (onFunc 0 (pciemCompleteInit (svs 0) 0) (buildFunctions us)).1 = .ok () := by
    rw [onFunc_of_some h0']
    exact init_ok_of_makesDevice hmode ⟨(makesBus_build _ _ _).mpr hmakes.1, hmakes.2⟩
  obtain ⟨-, w, hw, hwmode, hwbus, hwpriv⟩ := func0_of_init h0' hmode hok
  rw [registerFunctions_first svs hwf hfirst hok]
  have hfn' := (funcs_onFunc (x := pciemCompleteInit (svs 0) 0) hfirst.ne
    (buildFunctions us)).trans (funcs_buildFunctions hfn)
  have hfnmode : fn.busMode = .virtualRoot :=
    (hwf.mode k fn hfn).trans ((hwf.mode 0 v h0).symm.trans hmode)
  exact ⟨_, orphan_registerOther_made hinit hfirst.ne (hwf.range k hfirst.isSome) hw hwmode hwbus
    hwpriv hfn' hfnmode ⟨(makesBus_build _ _ _).mpr hmakes'.1, hmakes'.2⟩⟩

theorem owned_congr (h : Owned us) (r : Dma.Indirect.Registration) :
    Owned { us with registered := r } :=
  ⟨h.others, h.own, h.kind, h.fresh⟩

theorem owned_withFunction (h : Owned us) {req : PciemCreateDevice}
    (hvacant : Vacant us req.func.toNat) (address : δ) (capMgr : Bool) :
    Owned (withFunction us req address capMgr) := by
  have hset : Owned (setFunc us us.world req.func.toNat
      (newFunction address (newMode us req) capMgr)) := by
    by_cases hk : req.func.toNat = 0
    · have hnone (n : ℕ) : us.world.rootBuses n ≠ true := by
        intro hn
        obtain ⟨v, hv, -⟩ := (h.own n).mp hn
        rw [← hk, hvacant.empty] at hv
        cases hv
      rw [hk]
      exact owned_setFunc_zero h (fun n ↦ iff_of_false (hnone n) fun hno ↦ nomatch hno.2)
        (fun _ ↦ nofun) h.fresh
    · exact owned_setFunc_other h hk rfl rfl (fun _ ↦ Iff.rfl) (Nat.le_refl _)
  exact ⟨hset.others, hset.own, hset.kind, hset.fresh⟩

theorem owned_withTable (h : Owned us) (hv : us.slot.funcs k = some v) (placed : PlacedFunction)
    (call : Device.Setup.Call) : Owned (withTable us k v placed call) := by
  by_cases hk : k = 0
  · subst hk
    have hown := own_iff h hv
    exact owned_setFunc_zero h (fun n ↦ hown n) (h.kind v hv) h.fresh
  · obtain ⟨hpdev, hbus⟩ := h.others k v hk hv
    exact owned_setFunc_other h hk hpdev hbus (fun _ ↦ Iff.rfl) (Nat.le_refl _)

/-- REGISTER does nothing where there is no function, or where it has been called already. -/
theorem register_of_refused (svs : ℕ → Services) (fd : Except Errno Unit)
    (h : ¬ (us.registered = .unregistered ∧ (us.slot.funcs 0).isSome)) :
    (pciemIoctlRegister svs fd us).2 = us := by
  by_cases hreg : us.registered = .unregistered
  · have hnone : us.slot.funcs 0 = none :=
      Option.not_isSome_iff_eq_none.mp fun hsome ↦ h ⟨hreg, hsome⟩
    have hstart : pciemStartRegistration us = (.error .einval, us) := by
      rw [pciemStartRegistration, hnone]
      rfl
    rw [pciemIoctlRegister, andThen_of_error (by rw [hstart]), hstart]
  · exact register_of_not_unregistered svs fd hreg

theorem owned_step (hwf : WellFormed us) (h : Owned us) (c : Command δ) (htidy : Tidy us c) :
    Owned (step us c) := by
  cases c with
  | createDevice argCopied req memory capMgr =>
    obtain ⟨e, heq⟩ | ⟨address, hvacant, heq⟩ := createDevice_cases us argCopied req memory capMgr
    · rw [step, pciemDeviceIoctl, heq]
      exact h
    · rw [step, pciemDeviceIoctl, heq]
      exact owned_withFunction h hvacant address capMgr
  | configure argCopied func call =>
    obtain ⟨e, heq⟩ | ⟨v, placed, -, hv, -, heq⟩ := configure_cases us argCopied func call
    · rw [step, pciemDeviceIoctl, heq]
      exact h
    · rw [step, pciemDeviceIoctl, heq]
      exact owned_withTable h hv placed call
  | register svs fd =>
    change Owned (pciemIoctlRegister svs fd us).2
    by_cases hstarts : us.registered = .unregistered ∧ (us.slot.funcs 0).isSome
    · obtain ⟨hreg, hsome⟩ := hstarts
      obtain ⟨v, hv⟩ := Option.isSome_iff_exists.mp hsome
      obtain ⟨r, heq⟩ := register_state svs fd hreg hsome
      have hwf' : WellFormed { us with registered := .registering } :=
        ⟨hwf.mode, hwf.range, hwf.zero⟩
      have hfunctions : Owned (registerFunctions svs { us with registered := .registering }).2 := by
        refine owned_registerFunctions hwf' (owned_congr h .registering) hv (fun hmode ↦ ?_)
          fun hmode hmakes k fn hfirst ↦ ?_
        · exact (htidy hreg ((hwf.mode 0 v hv).symm.trans hmode) v hv).1
        · exact (htidy hreg ((hwf.mode 0 v hv).symm.trans hmode) v hv).2 hmakes k fn
            ⟨hfirst.ne, hfirst.isSome, hfirst.before⟩
      rw [heq]
      exact owned_congr hfunctions r
    · rw [register_of_refused svs fd hstarts]
      exact h
  | start | injectIrq | dma | dmaAtomic | p2p | getBarInfo | setEventfd | setIrqfd | dmaIndirect
    | traceBar => exact h

theorem orphan_step (hwf : WellFormed us) (h : Owned us) (c : Command δ) (hno : ¬ Tidy us c) :
    ∃ n, Orphan n (step us c) := by
  cases c with
  | register svs fd =>
    change ∃ n, Orphan n (pciemIoctlRegister svs fd us).2
    rw [Tidy] at hno
    push Not at hno
    obtain ⟨hreg, hmode, v, hv, hcases⟩ := hno
    have hmode0 := (hwf.mode 0 v hv).trans hmode
    obtain ⟨r, heq⟩ := register_state svs fd hreg (by rw [hv]; rfl)
    have horphan : ∃ n, Orphan n
        (registerFunctions svs { us with registered := .registering }).2 := by
      have hwf' : WellFormed { us with registered := .registering } :=
        ⟨hwf.mode, hwf.range, hwf.zero⟩
      have h' := owned_congr h .registering
      by_cases hzero : v.rootBus.isSome → ¬ MakesBus (svs 0) v.placed
      · obtain ⟨hmakes, k, fn, hfirst, hfn, hmakes'⟩ := hcases hzero
        exact orphan_registerFunctions_other hwf' h' hv hmode0 hzero hmakes
          ⟨hfirst.ne, hfirst.isSome, hfirst.before⟩ hfn hmakes'
      · rw [Classical.not_imp, not_not] at hzero
        exact orphan_registerFunctions_zero hwf' h' hv hmode0 hzero.1 hzero.2
    obtain ⟨n, horphan⟩ := horphan
    rw [heq]
    exact ⟨n, horphan.present, horphan.unowned⟩
  | createDevice | configure | start | injectIrq | dma | dmaAtomic | p2p | getBarInfo | setEventfd
    | setIrqfd | dmaIndirect | traceBar => exact absurd trivial hno

theorem owned_opened (ops : PciOps δ) (hostDevices : ℕ → Bool) (pool : PciemMempool) :
    Owned (opened ops hostDevices pool) :=
  ⟨nofun, fun _ ↦ iff_of_false nofun fun ⟨_, hv, _⟩ ↦ (nomatch hv), nofun, nofun⟩

/-- Every state of a run can be torn down cleanly exactly when every REGISTER is a tidy one. -/
theorem clean_teardown_iff (ops : PciOps δ) (hostDevices : ℕ → Bool) (pool : PciemMempool)
    (cs : List (Command δ)) : Always step CleanTeardown (opened ops hostDevices pool) cs ↔
      Each step Tidy (opened ops hostDevices pool) cs := by
  refine always_iff_each_of_lost (I := fun us ↦ WellFormed us ∧ Owned us) ?_ ?_ ?_
    ⟨wellFormed_opened ops hostDevices pool, owned_opened ops hostDevices pool⟩
  · exact fun us hus ↦ cleanTeardown_of_owned hus.2
  · exact fun us c hus htidy ↦ ⟨wellFormed_step hus.1 c, owned_step hus.1 hus.2 c htidy⟩
  · intro us c hus hno hclean
    obtain ⟨n, horphan⟩ := orphan_step hus.1 hus.2 c hno
    exact not_clean_of_orphan horphan hclean

section SecondRegister

/-- Function 0 keeps the root bus that it got, although the call fails for the next function. -/
theorem func0_of_failed (hwf : WellFormed us) (hreg : us.registered = .unregistered)
    (h0 : us.slot.funcs 0 = some v) (hmode : v.busMode = .virtualRoot)
    (hmakes : MakesDevice (svs 0) 0 v.placed) {fn : RootComplex δ} (hfirst : First us k)
    (hfn : us.slot.funcs k = some fn) (hno : ¬ MakesDevice (svs k) k fn.placed)
    (fd : Except Errno Unit) :
    (pciemIoctlRegister svs fd us).2.registered = .unregistered ∧
      ∃ w, (pciemIoctlRegister svs fd us).2.slot.funcs 0 = some w ∧ w.rootBus.isSome ∧
        Prepared v.placed w.placed := by
  have hstart := startRegistration_of_unregistered hreg (by rw [h0]; rfl)
  let us' : PciemUserspaceState δ := { us with registered := .registering }
  change pciemStartRegistration us = (.ok (), us') at hstart
  have hwf' : WellFormed us' := ⟨hwf.mode, hwf.range, hwf.zero⟩
  have hfirst' : First us' k := ⟨hfirst.ne, hfirst.isSome, hfirst.before⟩
  have h0' : (buildFunctions us').slot.funcs 0 = _ := funcs_buildFunctions h0
  have hfn' : (buildFunctions us').slot.funcs k = _ := funcs_buildFunctions hfn
  have hok : (onFunc 0 (pciemCompleteInit (svs 0) 0) (buildFunctions us')).1 = .ok () := by
    rw [onFunc_of_some h0']
    exact init_ok_of_makesDevice hmode ⟨(makesBus_build _ _ _).mpr hmakes.1, hmakes.2⟩
  obtain ⟨-, w, hw, -, hbus, -⟩ := func0_of_init h0' hmode hok
  have hprepared : Prepared v.placed w.placed := by
    rw [onFunc_of_some h0'] at hok hw
    obtain rfl := Option.some.inj ((setFunc_self _ _ _ _).symm.trans hw)
    obtain ⟨hbars, hplaces⟩ := bars_buildFunction us.slot.numFuncs 0 v.placed
    exact (Prepared.of_rewritten (.of_bars_eq hbars) hplaces).trans
      (prepared_completeInit_of_ok hok)
  have hfunctions := registerFunctions_first svs hwf' hfirst' hok
  have hmiddle := (funcs_onFunc (x := pciemCompleteInit (svs 0) 0) hfirst.ne
    (buildFunctions us')).trans hfn'
  have hfnmode : fn.busMode = .virtualRoot :=
    (hwf.mode k fn hfn).trans ((hwf.mode 0 v h0).symm.trans hmode)
  generalize (onFunc 0 (pciemCompleteInit (svs 0) 0) (buildFunctions us')).2 = middle
    at hw hfunctions hmiddle
  have herr : ∃ e, (onFunc k (pciemCompleteInit (svs k) k) middle).1 = .error e := by
    rw [onFunc_of_some hmiddle]
    cases hresult : (pciemCompleteInit (svs k) k (middle.world, _)).1 with
    | error e => exact ⟨e, rfl⟩
    | ok _ =>
      obtain ⟨hbus, hcreated⟩ := makesDevice_of_ok hfnmode hresult
      exact absurd ⟨(makesBus_build _ _ _).mp hbus, hcreated⟩ hno
  obtain ⟨e, herr⟩ := herr
  have hfailed : registerFunctions svs us' =
      (.error e, (onFunc k (pciemCompleteInit (svs k) k) middle).2) := by
    rw [hfunctions, registerOther, andThen_of_error herr]
  have hresult : (pciemIoctlRegister svs fd us).2 =
      pciemCancelRegistration (onFunc k (pciemCompleteInit (svs k) k) middle).2 := by
    have hundone : onError (registerFunctions svs) pciemCancelRegistration us' =
        (.error e, pciemCancelRegistration (registerFunctions svs us').2) :=
      onError_of_error (by rw [hfailed])
    rw [pciemIoctlRegister, andThen_of_ok (by rw [hstart]), hstart]
    dsimp only
    rw [andThen_of_error (by rw [hundone]), hundone, hfailed]
  rw [hresult]
  exact ⟨rfl, w, (onFunc_zero hfirst.ne).trans hw, hbus, hprepared⟩

/-- The PCI core looks at a bus from function 0 on. -/
def firstOnly : Services :=
  { succeeding with created := fun k ↦ k = 0 }

theorem owned_twoFunctions : Owned (twoFunctions 0) := by
  have hopened := wellFormed_opened (δ := ℕ) .hardware (fun _ ↦ false)
    ⟨12, 0x1000, 0x1000, fun _ ↦ false⟩
  have hfirst := wellFormed_step hopened (.createDevice true ⟨0, 0⟩ (some 0) true)
  have hsecond := wellFormed_step hfirst (.createDevice true ⟨0, 1⟩ (some 1) true)
  have hthird := wellFormed_step hsecond (.configure true 0 (.setConfig endpoint))
  exact owned_step hthird (owned_step hsecond (owned_step hfirst (owned_step hopened
    (owned_opened _ _ _) _ trivial) _ trivial) _ trivial)
    (.configure true 1 (.setConfig endpoint)) trivial

theorem makesDevice_firstOnly {f : PlacedFunction} (hbare : Bare f.rc) :
    MakesDevice firstOnly k f ↔ k = 0 := by
  have hprepares : Prepares firstOnly f := fun i hi hexposed ↦ absurd (hbare i hi).1 hexposed.1
  constructor
  · intro h
    exact of_decide_eq_true h.2
  · intro hk
    exact ⟨⟨rfl, hprepares, rfl⟩, decide_eq_true hk⟩

/-- The call fails for the next function, and another one makes a second root bus for
function 0. -/
theorem orphan_again (hwf : WellFormed us) (h : Owned us) (hreg : us.registered = .unregistered)
    (hmode : us.slot.busMode = .virtualRoot) (h0 : us.slot.funcs 0 = some v)
    (hbare : Bare v.placed.rc) (hbus : v.rootBus = none) {fn : RootComplex δ} (hfirst : First us k)
    (hfn : us.slot.funcs k = some fn) (hbare' : Bare fn.placed.rc) (fd fd' : Except Errno Unit) :
    ∃ n, Orphan n (step (step us (.register (fun _ ↦ firstOnly) fd))
      (.register (fun _ ↦ firstOnly) fd')) := by
  have hno : ¬ MakesDevice firstOnly k fn.placed :=
    fun hmakes ↦ hfirst.ne ((makesDevice_firstOnly hbare').mp hmakes)
  have htidy : Tidy us (.register (fun _ ↦ firstOnly) fd) := by
    intro _ _ u hu
    obtain rfl := Option.some.inj (h0.symm.trans hu)
    refine ⟨fun hsome ↦ ?_, fun _ j u hfirst _ hmakes ↦ hfirst.ne (of_decide_eq_true hmakes.2)⟩
    rw [hbus] at hsome
    cases hsome
  obtain ⟨hreg', w, hw, hwbus, hprepared⟩ :
      (pciemIoctlRegister (fun _ ↦ firstOnly) fd us).2.registered = .unregistered ∧
        ∃ w, (pciemIoctlRegister (fun _ ↦ firstOnly) fd us).2.slot.funcs 0 = some w ∧
          w.rootBus.isSome ∧ Prepared v.placed w.placed :=
    func0_of_failed hwf hreg h0 ((hwf.mode 0 v h0).trans hmode)
      ((makesDevice_firstOnly hbare).mpr rfl) hfirst hfn hno fd
  have hmode' : (pciemIoctlRegister (fun _ ↦ firstOnly) fd us).2.slot.busMode = .virtualRoot :=
    (keeps_register _ _ us hwf).busMode.trans hmode
  refine orphan_step (wellFormed_step hwf _) (owned_step hwf h _ htidy) _ fun htidy ↦ ?_
  exact (htidy hreg' hmode' w hw).1 hwbus
    ((makesDevice_firstOnly (hprepared.rc.isBare hbare)).mpr rfl).1

/-- Function 1 is never found on a bus of its own. -/
theorem first_root_bus_stays : ¬ ∀ (ops : PciOps ℕ) (hostDevices : ℕ → Bool)
    (pool : PciemMempool) (cs : List (Command ℕ)),
      Always step CleanTeardown (opened ops hostDevices pool) cs := by
  intro h
  have halways := h .hardware (fun _ ↦ false) ⟨12, 0x1000, 0x1000, fun _ ↦ false⟩
    (createTwo 0 ++ [.register (fun _ ↦ firstOnly) (.ok ()),
      .register (fun _ ↦ firstOnly) (.ok ())])
  have hclean : CleanTeardown (step (step (twoFunctions 0) (.register (fun _ ↦ firstOnly) (.ok ())))
      (.register (fun _ ↦ firstOnly) (.ok ()))) :=
    halways.2.2.2.2.2.2
  obtain ⟨v, hv, hbus, hbare⟩ : ∃ v, (twoFunctions 0).slot.funcs 0 = some v ∧ v.rootBus = none ∧
      Bare v.placed.rc := ⟨_, rfl, rfl, fun i hi ↦ ⟨rfl, rfl⟩⟩
  obtain ⟨fn, hfn, hbare'⟩ : ∃ fn, (twoFunctions 0).slot.funcs 1 = some fn ∧ Bare fn.placed.rc :=
    ⟨_, rfl, fun i hi ↦ ⟨rfl, rfl⟩⟩
  have hfirst : First (twoFunctions 0) 1 := ⟨by decide, by rw [hfn]; rfl, by omega⟩
  obtain ⟨n, horphan⟩ := orphan_again (wellFormed_of_reachable ⟨_, _, _, createTwo 0, rfl⟩)
    owned_twoFunctions rfl rfl hv hbare hbus hfirst hfn hbare' (.ok ()) (.ok ())
  exact not_clean_of_orphan horphan hclean

end SecondRegister

end Run

end Pciem.Slot.Teardown
