import Pciem.Slot.Invariant

namespace Pciem.Slot.Destroy

open Kernel Register Ioctl Effects Invariant
open State hiding PciemRootComplex
open Attach.Hijack (PciOps)

variable {δ : Type} {us : PciemUserspaceState δ} {v : RootComplex δ} {k n : ℕ}

/-- A call that takes an object away from the PCI core. -/
inductive Removal
  | device (dev : PciDev)
  | rootBus (bus : PciBus)
deriving DecidableEq

/-- The object of the second call is gone after the first one; a root bus takes its devices with
it. -/
def Removal.Removes : Removal → Removal → Prop
  | .device dev, call => call = .device dev
  | .rootBus bus, .rootBus bus' => bus = bus'
  | .rootBus bus, .device dev => dev.bus = bus

instance : (c c' : Removal) → Decidable (c.Removes c')
  | .device _, _ => inferInstanceAs (Decidable (_ = _))
  | .rootBus _, .rootBus _ => inferInstanceAs (Decidable (_ = _))
  | .rootBus _, .device _ => inferInstanceAs (Decidable (_ = _))

def teardownPdev (s : FunctionState δ) : List Removal × FunctionState δ :=
  match s.2.pciemPdev with
  | none => ([], s)
  | some dev => ([.device dev], s.1.stopAndRemove dev, { s.2 with pciemPdev := none })

def teardownBus (s : FunctionState δ) : List Removal × FunctionState δ :=
  match s.2.rootBus with
  | none => ([], s)
  | some bus =>
    match s.2.busMode with
    | .virtualRoot => ([.rootBus bus], s.1.removeRootBus bus, { s.2 with rootBus := none })
    | .attachToHost =>
      ([], { s.1 with ops := s.2.hijack.originalOps.getD s.1.ops }, { s.2 with rootBus := none })

/-- The removals of `pciem_teardown_device`, and what they leave. -/
def pciemTeardownDevice (s : FunctionState δ) : List Removal × FunctionState δ :=
  let (calls, s) := teardownPdev s
  let (calls', s) := teardownBus s
  (calls ++ calls', pciemCleanupBars s)

def destroyFunction (d : List Removal × PciemUserspaceState δ) (k : ℕ) :
    List Removal × PciemUserspaceState δ :=
  match d.2.slot.funcs k with
  | none => d
  | some v =>
    let (calls, world, _) := pciemTeardownDevice (d.2.world, v)
    (d.1 ++ calls, { d.2 with
      world, slot := { d.2.slot with funcs := Function.update d.2.slot.funcs k none } })

def pciemUserspaceDestroy (us : PciemUserspaceState δ) : List Removal × PciemUserspaceState δ :=
  (List.range pciemMaxFunctions).foldl destroyFunction ([], us)

/-- No call is made for an object that is gone, and no root bus stays. -/
structure CleanTeardown (us : PciemUserspaceState δ) : Prop where
  once : (pciemUserspaceDestroy us).1.Pairwise fun c c' ↦ ¬ c.Removes c'
  rootBuses : ∀ n, (pciemUserspaceDestroy us).2.world.rootBuses n = false

/-- Function 0 alone has PCI objects, and the root buses that are there are its own. -/
structure Owned (us : PciemUserspaceState δ) : Prop where
  others : ∀ k v, k ≠ 0 → us.slot.funcs k = some v → v.pciemPdev = none ∧ v.rootBus = none
  own : ∀ n, us.world.rootBuses n = true ↔ ∃ v, us.slot.funcs 0 = some v ∧
    v.busMode = .virtualRoot ∧ v.rootBus = some (.root n)
  kind : ∀ v, us.slot.funcs 0 = some v → v.busMode = .virtualRoot → v.rootBus ≠ some .host
  fresh : ∀ n, us.world.rootBuses n = true → n < us.world.nextBus

/-- A root bus is there that no function has. -/
structure Orphan (n : ℕ) (us : PciemUserspaceState δ) : Prop where
  present : us.world.rootBuses n = true
  unowned : ∀ k v, us.slot.funcs k = some v → v.rootBus ≠ some (.root n)

section Teardown

variable {s : FunctionState δ}

theorem cleanupBars_world (s : FunctionState δ) :
    (pciemCleanupBars s).1.rootBuses = s.1.rootBuses := by
  obtain ⟨pool, heq, -⟩ := cleanupBars_eq s
  rw [heq]

theorem rootBuses_teardownPdev (s : FunctionState δ) :
    (teardownPdev s).2.1.rootBuses = s.1.rootBuses ∧
      (teardownPdev s).2.2.rootBus = s.2.rootBus ∧ (teardownPdev s).2.2.busMode = s.2.busMode := by
  rw [teardownPdev]
  split
  · exact ⟨rfl, rfl, rfl⟩
  · exact ⟨rfl, rfl, rfl⟩

theorem rootBuses_teardown (s : FunctionState δ) (n : ℕ) :
    (pciemTeardownDevice s).2.1.rootBuses n =
      if s.2.rootBus = some (.root n) ∧ s.2.busMode = .virtualRoot then false
      else s.1.rootBuses n := by
  have hpdev := rootBuses_teardownPdev s
  rw [pciemTeardownDevice]
  dsimp only
  generalize (teardownPdev s).2 = s' at hpdev ⊢
  obtain ⟨hbuses, hroot, hmode⟩ := hpdev
  rw [cleanupBars_world, ← hbuses, ← hroot, ← hmode, teardownBus]
  cases hbus : s'.2.rootBus with
  | none =>
    rw [if_neg]
    rintro ⟨hno, -⟩
    cases hno
  | some bus =>
    cases hcase : s'.2.busMode with
    | virtualRoot =>
      dsimp only
      rw [World.removeRootBus]
      dsimp only
      by_cases heq : bus = .root n
      · rw [if_pos heq, if_pos ⟨congrArg some heq, rfl⟩]
      · rw [if_neg heq, if_neg fun hand ↦ heq (Option.some.inj hand.1)]
    | attachToHost =>
      rw [if_neg]
      rintro ⟨-, hno⟩
      cases hno

theorem teardown_of_none (hpdev : s.2.pciemPdev = none) (hbus : s.2.rootBus = none) :
    (pciemTeardownDevice s).1 = [] := by
  rw [pciemTeardownDevice, teardownPdev, hpdev]
  dsimp only
  rw [teardownBus, hbus]
  rfl

theorem once_teardown (s : FunctionState δ) :
    (pciemTeardownDevice s).1.Pairwise fun c c' ↦ ¬ c.Removes c' := by
  have hpdev : (teardownPdev s).1 = [] ∨ ∃ dev, (teardownPdev s).1 = [.device dev] := by
    rw [teardownPdev]
    split
    · exact .inl rfl
    · exact .inr ⟨_, rfl⟩
  have hbus (s : FunctionState δ) :
      (teardownBus s).1 = [] ∨ ∃ bus, (teardownBus s).1 = [.rootBus bus] := by
    rw [teardownBus]
    split
    · exact .inl rfl
    · split
      · exact .inr ⟨_, rfl⟩
      · exact .inl rfl
  rw [pciemTeardownDevice]
  dsimp only
  rcases hpdev with hpdev | ⟨dev, hpdev⟩ <;>
    rcases hbus (teardownPdev s).2 with hbus | ⟨bus, hbus⟩ <;> rw [hpdev, hbus]
  · exact .nil
  · exact List.pairwise_singleton _ _
  · exact List.pairwise_singleton _ _
  · exact List.pairwise_pair.mpr nofun

end Teardown

section Destroy

variable {d : List Removal × PciemUserspaceState δ} {ks : List ℕ}

theorem destroyFunction_of_none (h : d.2.slot.funcs k = none) : destroyFunction d k = d := by
  rw [destroyFunction, h]

theorem destroyFunction_of_some (h : d.2.slot.funcs k = some v) : destroyFunction d k =
    (d.1 ++ (pciemTeardownDevice (d.2.world, v)).1, { d.2 with
      world := (pciemTeardownDevice (d.2.world, v)).2.1
      slot := { d.2.slot with funcs := Function.update d.2.slot.funcs k none } }) := by
  rw [destroyFunction, h]

theorem orphan_destroyFunction (h : Orphan n d.2) (k : ℕ) : Orphan n (destroyFunction d k).2 := by
  cases hv : d.2.slot.funcs k with
  | none =>
    rw [destroyFunction_of_none hv]
    exact h
  | some v =>
    rw [destroyFunction_of_some hv]
    refine ⟨?_, fun j w hw ↦ ?_⟩
    · rw [rootBuses_teardown, if_neg fun hand ↦ h.unowned k v hv hand.1]
      exact h.present
    · dsimp only at hw
      by_cases hj : j = k
      · rw [hj, Function.update_self] at hw
        cases hw
      · rw [Function.update_of_ne hj] at hw
        exact h.unowned j w hw

theorem not_clean_of_orphan (h : Orphan n us) : ¬ CleanTeardown us := by
  have hfold (ks : List ℕ) (d : List Removal × PciemUserspaceState δ) (hd : Orphan n d.2) :
      Orphan n (ks.foldl destroyFunction d).2 := by
    induction ks generalizing d with
    | nil => exact hd
    | cons k ks ih => exact ih _ (orphan_destroyFunction hd k)
  intro hclean
  have hpresent := (hfold (List.range pciemMaxFunctions) ([], us) h).present
  have hgone := hclean.rootBuses n
  rw [pciemUserspaceDestroy, hpresent] at hgone
  cases hgone

theorem foldl_destroyFunction (hks : ∀ k ∈ ks, k ≠ 0) (h : ∀ k v, k ≠ 0 →
    d.2.slot.funcs k = some v → v.pciemPdev = none ∧ v.rootBus = none) :
    (ks.foldl destroyFunction d).1 = d.1 ∧
      (ks.foldl destroyFunction d).2.world.rootBuses = d.2.world.rootBuses := by
  induction ks generalizing d with
  | nil => exact ⟨rfl, rfl⟩
  | cons k ks ih =>
    have hks' : ∀ j ∈ ks, j ≠ 0 := fun j hj ↦ hks j (List.mem_cons_of_mem k hj)
    rw [List.foldl_cons]
    cases hv : d.2.slot.funcs k with
    | none =>
      rw [destroyFunction_of_none hv]
      exact ih hks' h
    | some v =>
      obtain ⟨hpdev, hbus⟩ := h k v (hks k List.mem_cons_self) hv
      have hrest : ∀ j w, j ≠ 0 → (destroyFunction d k).2.slot.funcs j = some w →
          w.pciemPdev = none ∧ w.rootBus = none := by
        intro j w hj hw
        rw [destroyFunction_of_some hv] at hw
        dsimp only at hw
        by_cases hjk : j = k
        · rw [hjk, Function.update_self] at hw
          cases hw
        · rw [Function.update_of_ne hjk] at hw
          exact h j w hj hw
      obtain ⟨hcalls, hbuses⟩ := ih hks' hrest
      refine ⟨hcalls.trans ?_, hbuses.trans ?_⟩
      · rw [destroyFunction_of_some hv, teardown_of_none (s := (d.2.world, v)) hpdev hbus]
        exact List.append_nil _
      · rw [destroyFunction_of_some hv]
        funext n
        rw [rootBuses_teardown, if_neg]
        rintro ⟨hno, -⟩
        cases hbus.symm.trans hno

theorem cleanTeardown_of_owned (h : Owned us) : CleanTeardown us := by
  have hrange : List.range pciemMaxFunctions = 0 :: List.range' 1 (pciemMaxFunctions - 1) := rfl
  have hne : ∀ k ∈ List.range' 1 (pciemMaxFunctions - 1), k ≠ 0 := fun k hk ↦
    Nat.one_le_iff_ne_zero.mp (List.mem_range'_1.mp hk).1
  have hfirst : (destroyFunction ([], us) 0).1.Pairwise (fun c c' ↦ ¬ c.Removes c') ∧
      (∀ n, (destroyFunction ([], us) 0).2.world.rootBuses n = false) ∧
      ∀ k v, k ≠ 0 → (destroyFunction ([], us) 0).2.slot.funcs k = some v →
        v.pciemPdev = none ∧ v.rootBus = none := by
    cases h0 : us.slot.funcs 0 with
    | none =>
      rw [destroyFunction_of_none (d := ([], us)) h0]
      refine ⟨.nil, fun n ↦ ?_, h.others⟩
      by_contra hpresent
      obtain ⟨v, hv, -⟩ := (h.own n).mp (Bool.not_eq_false _ ▸ hpresent)
      cases h0.symm.trans hv
    | some v =>
      rw [destroyFunction_of_some (d := ([], us)) h0]
      refine ⟨once_teardown _, fun n ↦ ?_, fun k w hk hw ↦ ?_⟩
      · rw [rootBuses_teardown]
        split_ifs with hown
        · rfl
        · by_contra hpresent
          obtain ⟨v', hv', hmode, hbus⟩ := (h.own n).mp (Bool.not_eq_false _ ▸ hpresent)
          obtain rfl := Option.some.inj (h0.symm.trans hv')
          exact hown ⟨hbus, hmode⟩
      · exact h.others k w hk ((Function.update_of_ne hk _ _).symm.trans hw)
  obtain ⟨honce, hbuses, hothers⟩ := hfirst
  obtain ⟨hcalls, hsame⟩ := foldl_destroyFunction hne hothers
  refine ⟨?_, fun n ↦ ?_⟩
  · rw [pciemUserspaceDestroy, hrange, List.foldl_cons, hcalls]
    exact honce
  · rw [pciemUserspaceDestroy, hrange, List.foldl_cons, hsame]
    exact hbuses n

end Destroy

end Pciem.Slot.Destroy
