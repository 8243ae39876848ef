import Pciem.Pool.Accounts
import Pciem.Slot.Bars
import Pciem.Slot.Destroy
import Pciem.Slot.Stepwise

namespace Pciem.Pool.Ranges

open Kernel Library.Unwinding Bar.Placement Allocate Accounts Ledger
  Slot.Register Slot.Ioctl Slot.Effects Slot.Bars Slot.Destroy Slot.Stepwise
open Bar.Table hiding addBar
open Config.Capabilities (PciemCap PciemCapConfig PciemCapManager)
open Slot.Invariant (createDevice_cases withFunction)
open Slot.State hiding PciemRootComplex
open Attach.Hijack (PciOps)

variable {δ : Type}

section Ledgers

def carvedOf (place : PciemBarPlace) : Option Carved :=
  if place.carvedStart = 0 then none else some ⟨place.carvedStart, place.carvedEnd⟩

def functionLedger (s : FunctionState δ) : Ledger ℕ :=
  ⟨s.1.pool, fun b ↦ carvedOf (s.2.placed.places b)⟩

def slotRange (slot : PciemSlotState δ) (p : ℕ × ℕ) : Option Carved :=
  (slot.funcs p.1).bind fun v ↦ carvedOf (v.placed.places p.2)

def slotLedger (us : PciemUserspaceState δ) : Ledger (ℕ × ℕ) := ⟨us.world.pool, slotRange us.slot⟩

end Ledgers

section Function

variable {sv : Services} {k : ℕ} {s s' : FunctionState δ}

theorem functionLedger_congr (hpool : s'.1.pool = s.1.pool)
    (hplaces : s'.2.placed.places = s.2.placed.places) : functionLedger s' = functionLedger s := by
  simp only [functionLedger, hpool, hplaces]

theorem functionLedger_prepareBar (sv : Services) (i : ℕ) (s : FunctionState δ) :
    functionLedger (prepareBar sv i s).2 = functionLedger s := by
  rw [prepareBar, completeInitBar]
  dsimp only
  split_ifs
  · rfl
  · rfl
  · rfl
  · cases sv.resource i with
    | error e => rfl
    | ok _ =>
      simp only [functionLedger, Ledger.mk.injEq, true_and]
      funext b
      by_cases hb : b = i
      · subst hb
        simp [carvedOf]
      · simp [hb]

theorem functionLedger_prepare (sv : Services) (s : FunctionState δ) :
    functionLedger (prepare sv s).2 = functionLedger s := by
  let P : FunctionState δ → Prop := fun s' ↦ functionLedger s' = functionLedger s
  have hbars : Triple P (forEach (prepareBar sv) (List.range pciStdNumBars)) P P := by
    refine .forEach fun i _ ↦ ⟨fun s' hs' _ ↦ ?_, fun s' _ hs' _ ↦ ?_⟩
    · exact (functionLedger_prepareBar sv i s').trans hs'
    · exact (functionLedger_prepareBar sv i s').trans hs'
  have hreserve (s' : FunctionState δ) : (pciemReserveBarsRes sv s').2 = s' := by
    obtain ⟨r, hr⟩ := forEach_reserveBar sv (List.range pciStdNumBars) s'
    rw [pciemReserveBarsRes, hr]
  rw [prepare]
  cases hok : (forEach (prepareBar sv) (List.range pciStdNumBars) s).1 with
  | ok _ =>
    rw [andThen_of_ok hok, hreserve]
    exact hbars.ok s rfl hok
  | error e =>
    rw [andThen_of_error hok]
    exact hbars.error s e rfl hok

theorem functionLedger_initMode (sv : Services) (k : ℕ) (s : FunctionState δ) :
    functionLedger (initMode sv k s).2 = functionLedger s := by
  refine functionLedger_congr (prepared_initMode sv k s).2 ?_
  rw [initMode]
  split
  · rw [pciemInitVirtualRootMode]
    split
    · rfl
    · exact (rewritten_busInit sv _ _).2
  · rw [pciemInitAttachToHostMode]
    split
    · rfl
    · split
      · rfl
      · split
        · rfl
        · have hplaces := (rewritten_storeBars s.2.placed).2
          dsimp only
          generalize Bar.Register.storeBars s.2.placed = placed at hplaces ⊢
          split
          · exact hplaces
          · exact hplaces

theorem functionLedger_failDevice (s : FunctionState δ) :
    functionLedger (failDevice s) = functionLedger s := by
  have hpdev : functionLedger (dropPdev s) = functionLedger s := by
    rw [dropPdev]
    split
    · rfl
    · split
      · rfl
      · rfl
  have hbus (s : FunctionState δ) : functionLedger (dropBus s) = functionLedger s := by
    rw [dropBus]
    split
    · split
      · rfl
      · rfl
    · split
      · rfl
      · rfl
  rw [failDevice, hbus, hpdev]

theorem functionLedger_cleanupBar (s : FunctionState δ) (i : ℕ) :
    functionLedger (cleanupBar s i) = (functionLedger s).release i := by
  by_cases hstart : (s.2.placed.places i).carvedStart = 0
  · rw [release_of_none (if_pos hstart)]
    simp only [functionLedger, cleanupBar, pciemCleanupBar, hstart, ne_eq, not_true_eq_false,
      if_false, Ledger.mk.injEq, true_and]
    funext b
    by_cases hb : b = i
    · subst hb
      simp [carvedOf, hstart]
    · simp [hb]
  · rw [release_of_some (c := ⟨(s.2.placed.places i).carvedStart, (s.2.placed.places i).carvedEnd⟩)
      (if_neg hstart)]
    simp only [functionLedger, cleanupBar, pciemCleanupBar, hstart, ne_eq, not_false_eq_true,
      if_true, Ledger.mk.injEq]
    refine ⟨rfl, ?_⟩
    funext b
    by_cases hb : b = i
    · subst hb
      simp [carvedOf]
    · simp [hb]

theorem functionLedger_cleanupBars (s : FunctionState δ) : functionLedger (pciemCleanupBars s) =
    (List.range pciStdNumBars).foldl Ledger.release (functionLedger s) := by
  have hfold (is : List ℕ) (s : FunctionState δ) : functionLedger (is.foldl cleanupBar s) =
      is.foldl Ledger.release (functionLedger s) := by
    induction is generalizing s with
    | nil => rfl
    | cons i is ih => rw [List.foldl_cons, ih, functionLedger_cleanupBar, List.foldl_cons]
  exact hfold _ s

theorem releases_completeInit (sv : Services) (k : ℕ) (s : FunctionState δ) :
    Releases (functionLedger s) (functionLedger (pciemCompleteInit sv k s).2) := by
  have hprepared {r : Except Errno Unit} {placed : PlacedFunction}
      (h : prepare sv s = (r, withPlaced s placed)) :
      functionLedger (withPlaced s placed) = functionLedger s := by
    rw [← functionLedger_prepare sv s, h]
  have hstage := completeInit_stage sv k s
  generalize pciemCompleteInit sv k s = result at hstage ⊢
  cases hstage with
  | noPlatform => exact .refl _
  | noMemory _ hprepare =>
    exact ⟨_, by rw [functionLedger_cleanupBars, hprepared hprepare]⟩
  | noDevice _ hprepare _ =>
    exact ⟨_, by rw [functionLedger_cleanupBars, functionLedger_failDevice,
      functionLedger_initMode, hprepared hprepare]⟩
  | done _ hprepare _ =>
    rw [functionLedger_initMode, hprepared hprepare]
    exact .refl _

theorem functionLedger_teardown (s : FunctionState δ) :
    functionLedger (pciemTeardownDevice s).2 =
      (List.range pciStdNumBars).foldl Ledger.release (functionLedger s) := by
  have hpdev : functionLedger (teardownPdev s).2 = functionLedger s := by
    rw [teardownPdev]
    split
    · rfl
    · rfl
  have hbus (s : FunctionState δ) : functionLedger (teardownBus s).2 = functionLedger s := by
    rw [teardownBus]
    split
    · rfl
    · split
      · rfl
      · rfl
  rw [pciemTeardownDevice]
  dsimp only
  rw [functionLedger_cleanupBars, hbus, hpdev]

end Function

section Slot

variable {us us' : PciemUserspaceState δ} {k : ℕ} {v : RootComplex δ}

/-- The ledger of a slot is that of one of its functions, beside those of the others. -/
theorem slotLedger_of_some (hv : us.slot.funcs k = some v) : slotLedger us =
    (functionLedger (us.world, v)).within k fun j b ↦ slotRange us.slot (j, b) := by
  simp only [slotLedger, functionLedger, within, Ledger.mk.injEq, true_and]
  funext p
  obtain ⟨j, b⟩ := p
  by_cases hj : j = k
  · simp [hj, slotRange, hv]
  · simp [hj]

theorem slotLedger_setFunc (us : PciemUserspaceState δ) (world : World δ) (k : ℕ)
    (v : RootComplex δ) : slotLedger (setFunc us world k v) =
      (functionLedger (world, v)).within k fun j b ↦ slotRange us.slot (j, b) := by
  simp only [slotLedger, functionLedger, within, Ledger.mk.injEq]
  refine ⟨rfl, ?_⟩
  funext p
  obtain ⟨j, b⟩ := p
  by_cases hj : j = k
  · simp [hj, slotRange, setFunc]
  · simp [hj, slotRange, setFunc]

theorem releases_onFunc {x : FunctionCall δ}
    (hx : ∀ s, Releases (functionLedger s) (functionLedger (x s).2)) (k : ℕ)
    (us : PciemUserspaceState δ) : Releases (slotLedger us) (slotLedger (onFunc k x us).2) := by
  cases hv : us.slot.funcs k with
  | none =>
    rw [onFunc_of_none hv]
    exact .refl _
  | some v =>
    rw [onFunc_of_some hv, slotLedger_setFunc, slotLedger_of_some hv]
    exact (hx (us.world, v)).within

theorem slotLedger_attachFunc (sv : Services) (k : ℕ) (us : PciemUserspaceState δ) :
    slotLedger (attachFunc sv k us).2 = slotLedger us := by
  have hjoin (func0 fn : RootComplex δ) :
      (pciemAttachFunction sv k us.world func0 fn).2.1.pool = us.world.pool ∧
        (pciemAttachFunction sv k us.world func0 fn).2.2.1.placed = func0.placed ∧
        (pciemAttachFunction sv k us.world func0 fn).2.2.2.placed.places = fn.placed.places := by
    have hplaces := (rewritten_storeBars fn.placed).2
    rw [pciemAttachFunction]
    generalize Bar.Register.storeBars fn.placed = placed at hplaces ⊢
    split
    · exact ⟨rfl, rfl, rfl⟩
    · split
      · split
        · dsimp only
          split
          · exact ⟨rfl, rfl, rfl⟩
          · exact ⟨rfl, rfl, rfl⟩
        · exact ⟨rfl, rfl, rfl⟩
      · dsimp only
        split
        · exact ⟨rfl, rfl, hplaces⟩
        · exact ⟨rfl, rfl, hplaces⟩
  rw [attachFunc]
  cases h0 : us.slot.funcs 0 with
  | none => rfl
  | some func0 =>
    cases hfn : us.slot.funcs k with
    | none => rfl
    | some fn =>
      obtain ⟨hpool, hplaced, hplaces⟩ := hjoin func0 fn
      dsimp only
      simp only [slotLedger, Ledger.mk.injEq]
      refine ⟨hpool, ?_⟩
      funext p
      obtain ⟨j, b⟩ := p
      by_cases hj : j = k
      · subst hj
        simp [slotRange, setFunc, hplaces, hfn]
      · by_cases hj0 : j = 0
        · subst hj0
          simp [slotRange, setFunc, hj, hplaced, h0]
        · simp [slotRange, setFunc, hj, hj0]

theorem slotLedger_buildFunctions (us : PciemUserspaceState δ) :
    slotLedger (buildFunctions us) = slotLedger us := by
  simp only [slotLedger, buildFunctions, Ledger.mk.injEq, true_and]
  funext p
  obtain ⟨j, b⟩ := p
  cases hv : us.slot.funcs j with
  | none => simp [slotRange, hv]
  | some v => simp [slotRange, hv, (bars_buildFunction us.slot.numFuncs j v.placed).2]

/-- REGISTER, whether it succeeds or fails, gives back some ranges. -/
theorem releases_register (svs : ℕ → Services) (fd : Except Errno Unit)
    (us : PciemUserspaceState δ) :
    Releases (slotLedger us) (slotLedger (pciemIoctlRegister svs fd us).2) := by
  let P : PciemUserspaceState δ → Prop := fun us' ↦ Releases (slotLedger us) (slotLedger us')
  have hsame {x : SlotCall δ} (hx : ∀ us, slotLedger (x us).2 = slotLedger us) :
      Triple P x P P := by
    have hkept (us' : PciemUserspaceState δ) (hus' : P us') : P (x us').2 := by
      change Releases _ _
      rw [hx]
      exact hus'
    exact ⟨fun us' hus' _ ↦ hkept us' hus', fun us' _ hus' _ ↦ hkept us' hus'⟩
  have hinit (k : ℕ) : Triple P (onFunc k (pciemCompleteInit (svs k) k)) P P :=
    ⟨fun us' hus' _ ↦ hus'.trans (releases_onFunc (releases_completeInit (svs k) k) k us'),
      fun us' _ hus' _ ↦ hus'.trans (releases_onFunc (releases_completeInit (svs k) k) k us')⟩
  have hstart : Triple P pciemStartRegistration P P := by
    refine hsame fun us' ↦ ?_
    rw [pciemStartRegistration]
    split
    · rfl
    · split
      · rfl
      · rfl
      · rfl
  have hfunctions : Triple P (registerFunctions svs) P P :=
    .andThen (.update fun us' hus' ↦ by
      change Releases _ (slotLedger (buildFunctions us'))
      rw [slotLedger_buildFunctions]
      exact hus') <| .andThen (hinit 0) <| .forEach fun k _ ↦
        .andThen (hinit k) (hsame fun us' ↦ slotLedger_attachFunc (svs k) k us')
  have hregister : Triple P (pciemIoctlRegister svs fd) P P :=
    .andThen hstart <| .andThen (.onError hfunctions fun _ h ↦ h) <|
      .andThen (.update fun _ h ↦ h) (hsame fun _ ↦ rfl)
  cases hok : (pciemIoctlRegister svs fd us).1 with
  | ok _ => exact hregister.ok us (.refl _) hok
  | error e => exact hregister.error us e (.refl _) hok

/-- Every range is that of a BAR which the loops of the teardown come to. -/
def Indexed (us : PciemUserspaceState δ) : Prop :=
  ∀ k b, slotRange us.slot (k, b) ≠ none → k < pciemMaxFunctions ∧ b < pciStdNumBars

theorem Indexed.of_releases (h : Indexed us)
    (hreleases : Releases (slotLedger us) (slotLedger us')) : Indexed us' := by
  intro k b hne
  refine h k b fun hnone ↦ hne ?_
  exact hreleases.range_eq_none hnone

theorem releases_destroyFunction {d : List Removal × PciemUserspaceState δ} (h : Indexed d.2)
    (k : ℕ) : Releases (slotLedger d.2) (slotLedger (destroyFunction d k).2) ∧
      ∀ b, slotRange (destroyFunction d k).2.slot (k, b) = none := by
  rw [destroyFunction]
  cases hv : d.2.slot.funcs k with
  | none => exact ⟨.refl _, fun b ↦ by simp [slotRange, hv]⟩
  | some v =>
    have hteardown := functionLedger_teardown (d.2.world, v)
    dsimp only
    generalize pciemTeardownDevice (d.2.world, v) = t at hteardown ⊢
    refine ⟨?_, fun b ↦ by simp [slotRange]⟩
    have hresult : slotLedger { d.2 with
        world := t.2.1
        slot := { d.2.slot with funcs := Function.update d.2.slot.funcs k none } } =
        (functionLedger t.2).within k fun j b ↦ slotRange d.2.slot (j, b) := by
      simp only [slotLedger, within, Ledger.mk.injEq]
      refine ⟨rfl, ?_⟩
      funext p
      obtain ⟨j, b⟩ := p
      by_cases hj : j = k
      · subst hj
        rw [if_pos rfl, hteardown, range_releases]
        split_ifs with hb
        · simp [slotRange]
        · have hnone : slotRange d.2.slot (j, b) = none := by
            by_contra hne
            exact hb (List.mem_range.mpr (h j b hne).2)
          simpa [slotRange, hv, functionLedger] using hnone.symm
      · simp [slotRange, hj]
    rw [hresult, hteardown, slotLedger_of_some hv]
    exact Releases.within ⟨_, rfl⟩

/-- When the slot is destroyed, every range goes back to the pool. -/
theorem releases_destroy (h : Indexed us) :
    Releases (slotLedger us) (slotLedger (pciemUserspaceDestroy us).2) ∧
      ∀ p, slotRange (pciemUserspaceDestroy us).2.slot p = none := by
  have hrun (n : ℕ) : Releases (slotLedger us)
      (slotLedger ((List.range n).foldl destroyFunction ([], us)).2) ∧
        ∀ k b, k < n → slotRange ((List.range n).foldl destroyFunction ([], us)).2.slot (k, b) =
          none := by
    induction n with
    | zero => exact ⟨.refl _, fun k b hk ↦ absurd hk (Nat.not_lt_zero k)⟩
    | succ n ih =>
      obtain ⟨hreleases, hnone⟩ := ih
      rw [List.range_succ, List.foldl_append]
      obtain ⟨hstep, hself⟩ := releases_destroyFunction (h.of_releases hreleases) n
      refine ⟨hreleases.trans hstep, fun k b hk ↦ ?_⟩
      rcases Nat.lt_succ_iff_lt_or_eq.mp hk with hk | rfl
      · exact hstep.range_eq_none (hnone k b hk)
      · exact hself b
  obtain ⟨hreleases, hnone⟩ := hrun pciemMaxFunctions
  refine ⟨hreleases, fun p ↦ ?_⟩
  by_contra hne
  exact hne (hnone p.1 p.2 (h.of_releases hreleases p.1 p.2 hne).1)

end Slot

section Request

variable {us : PciemUserspaceState δ} {s : FunctionState δ} {cfg : PciemBarConfig} {page : ℕ}
  {argCopied : Bool} {func : BitVec 8} {v : RootComplex δ}

/-- The BAR is one to have memory, and the pool has a chunk for it. -/
structure Takes (pool : PciemMempool) (cfg : PciemBarConfig) (page : ℕ) : Prop where
  index : cfg.barIndex.toNat < pciStdNumBars
  size : cfg.size ≠ 0
  power : cfg.size &&& (cfg.size - 1) = 0
  first : FirstChunk pool cfg.size page

/-- The request gets to the function. -/
structure Admits (us : PciemUserspaceState δ) (argCopied : Bool) (func : BitVec 8)
    (v : RootComplex δ) : Prop where
  unregistered : pciemCheckUnregistered us = .ok ()
  copied : argCopied = true
  found : usGetRc us func.toNat = some v

theorem addBar_of_takes (h : Takes s.1.pool cfg page) : addBar cfg s =
    andThen (require (chunkAddress s.1.pool page ≠ 0) .enomem)
      (writeChunk cfg.barIndex.toNat cfg.size cfg.flags (chunkAddress s.1.pool page))
      ({ s.1 with pool := s.1.pool.setChunk (chunkAddress s.1.pool page) cfg.size true }, s.2) := by
  rw [addBar, andThen_require_of_pos h.index, andThen_require_of_pos (.inr h.power), registerBar,
    andThen_require_of_pos h.index, if_neg h.size, andThen_require_of_pos h.power, withChunk_eq,
    poolAlloc_of_first h.size h.power h.first]

theorem functionLedger_writeChunk (size : BitVec 64) (flags : BitVec 32) {phys : BitVec 64}
    (hphys : phys ≠ 0) (i : ℕ) (s : FunctionState δ) :
    functionLedger (writeChunk i size flags phys s).2 =
      ⟨s.1.pool, Function.update (functionLedger s).range i (some ⟨phys, phys + size - 1⟩)⟩ := by
  simp only [functionLedger, writeChunk, andThen, writeBar, writePlace, update, withPlaced,
    PlacedFunction.setBarInfo, Ledger.mk.injEq, true_and]
  funext b
  by_cases hb : b = i
  · subst hb
    simpa [carvedOf] using hphys
  · simp [hb]

theorem functionLedger_addBar_carve (h : Takes s.1.pool cfg page)
    (haddr : chunkAddress s.1.pool page ≠ 0) : functionLedger (addBar cfg s).2 =
      (functionLedger s).carve cfg.barIndex.toNat (chunkAddress s.1.pool page) cfg.size := by
  rw [addBar_of_takes h, andThen_require_of_pos haddr, functionLedger_writeChunk _ _ haddr]
  rfl

/-- A chunk at the address 0 is lost. -/
theorem functionLedger_addBar_zero (h : Takes s.1.pool cfg page)
    (haddr : chunkAddress s.1.pool page = 0) : functionLedger (addBar cfg s).2 =
      ⟨s.1.pool.setChunk (chunkAddress s.1.pool page) cfg.size true, (functionLedger s).range⟩ := by
  rw [addBar_of_takes h, andThen_require_of_neg (not_not.mpr haddr)]
  rfl

theorem functionLedger_addBar_of_not (h : ∀ page, ¬ Takes s.1.pool cfg page) :
    functionLedger (addBar cfg s).2 = functionLedger s := by
  rw [addBar]
  by_cases hindex : cfg.barIndex.toNat < pciStdNumBars
  case neg => rw [andThen_require_of_neg hindex]
  rw [andThen_require_of_pos hindex]
  by_cases hvalid : cfg.size = 0 ∨ cfg.size &&& (cfg.size - 1) = 0
  case neg => rw [andThen_require_of_neg hvalid]
  rw [andThen_require_of_pos hvalid, registerBar, andThen_require_of_pos hindex]
  by_cases hsize : cfg.size = 0
  · rw [if_pos hsize]
    rfl
  · have hpower : cfg.size &&& (cfg.size - 1) = 0 := hvalid.resolve_left hsize
    have hnone (page : ℕ) : ¬ FirstChunk s.1.pool cfg.size page := fun hfirst ↦
      h page ⟨hindex, hsize, hpower, hfirst⟩
    rw [if_neg hsize, andThen_require_of_pos hpower, withChunk_eq, poolAlloc_of_none hnone,
      andThen_require_of_neg (not_not.mpr rfl)]

theorem Admits.funcs (h : Admits us argCopied func v) :
    func.toNat < pciemMaxFunctions ∧ us.slot.funcs func.toNat = some v := by
  have hfound := h.found
  rw [usGetRc] at hfound
  split_ifs at hfound with hlt
  exact ⟨Nat.not_le.mp hlt, hfound⟩

theorem onRequested_of_admits (h : Admits us argCopied func v) (x : FunctionCall δ) :
    onRequested argCopied func x us = onFunc func.toNat x us := by
  rw [onRequested, andThen_of_ok h.unregistered]
  dsimp only
  rw [andThen_require_of_pos h.copied, andThen_test_of_pos (by simp [h.found])]

theorem onRequested_of_not (h : ∀ v, ¬ Admits us argCopied func v) (x : FunctionCall δ) :
    (onRequested argCopied func x us).2 = us := by
  rw [onRequested]
  cases hcheck : pciemCheckUnregistered us with
  | error e => rw [andThen_of_error (by rw [hcheck])]
  | ok _ =>
    rw [andThen_of_ok (by rw [hcheck])]
    by_cases hcopied : argCopied = true
    case neg => rw [andThen_require_of_neg hcopied]
    rw [andThen_require_of_pos hcopied]
    cases hv : usGetRc us func.toNat with
    | none => rw [andThen_test_of_neg (by simp [hv])]
    | some v => exact absurd ⟨hcheck, hcopied, hv⟩ (h v)

/-- A call that is not an ADD_BAR which takes a chunk takes nothing of the pool. -/
theorem releases_onRequested {x : FunctionCall δ}
    (hx : ∀ v, Admits us argCopied func v →
      Releases (functionLedger (us.world, v)) (functionLedger (x (us.world, v)).2)) :
    Releases (slotLedger us) (slotLedger (onRequested argCopied func x us).2) := by
  by_cases h : ∃ v, Admits us argCopied func v
  · obtain ⟨v, hv⟩ := h
    have hfuncs := hv.funcs.2
    rw [onRequested_of_admits hv, onFunc_of_some hfuncs, slotLedger_setFunc,
      slotLedger_of_some hfuncs]
    exact (hx v hv).within
  · rw [onRequested_of_not fun v hv ↦ h ⟨v, hv⟩]
    exact .refl _

theorem functionLedger_addCapability (cfg : PciemCapConfig) (s : FunctionState δ) :
    functionLedger (addCapability cfg s).2 = functionLedger s := by
  have hcap (check : PciemCapManager → Except Errno Unit) (isExtended : Bool)
      (size : BitVec 8) (cap : PciemCap) :
      functionLedger (addCap check isExtended size cap s).2 = functionLedger s := by
    let p : FunctionState δ → Prop := fun s ↦ hasRoom s.2.placed.rc = true
    rw [addCap]
    by_cases hroom : p s
    case neg => rw [andThen_test_of_neg (p := p) hroom]
    rw [andThen_test_of_pos (p := p) hroom]
    cases hcheck : s.2.placed.rc.capMgr.elim (.ok ()) check with
    | ok _ =>
      rw [andThen_of_ok hcheck]
      rfl
    | error e => rw [andThen_of_error hcheck]
  cases cfg with
  | msi | msix | pcie | pasid | pm => exact hcap _ _ _ _
  | unsupported => rfl

theorem slotLedger_createDevice (argCopied : Bool) (req : PciemCreateDevice) (memory : Option δ)
    (capMgr : Bool) (us : PciemUserspaceState δ) :
    slotLedger (createDevice argCopied req memory capMgr us).2 = slotLedger us := by
  rw [createDevice_eq]
  rcases createDevice_cases us argCopied req memory capMgr with
    ⟨e, heq⟩ | ⟨address, hvacant, heq⟩
  · rw [heq]
  · rw [heq]
    simp only [slotLedger, withFunction, Ledger.mk.injEq, true_and]
    funext p
    obtain ⟨k, b⟩ := p
    by_cases hk : k = req.func.toNat
    · subst hk
      simp only [slotRange, Function.update_self, Option.bind_some, hvacant.empty,
        Option.bind_none]
      rfl
    · simp [slotRange, hk]

theorem slotLedger_addBar_carve (hv : Admits us argCopied func v)
    (h : Takes us.world.pool cfg page) (haddr : chunkAddress us.world.pool page ≠ 0) :
    slotLedger (onRequested argCopied func (addBar cfg) us).2 =
      (slotLedger us).carve (func.toNat, cfg.barIndex.toNat) (chunkAddress us.world.pool page)
        cfg.size := by
  have hfuncs := hv.funcs.2
  rw [onRequested_of_admits hv, onFunc_of_some hfuncs, slotLedger_setFunc,
    functionLedger_addBar_carve h haddr, slotLedger_of_some hfuncs, within_carve]

theorem slotLedger_addBar_zero (hv : Admits us argCopied func v)
    (h : Takes us.world.pool cfg page) (haddr : chunkAddress us.world.pool page = 0) :
    slotLedger (onRequested argCopied func (addBar cfg) us).2 =
      ⟨us.world.pool.setChunk (chunkAddress us.world.pool page) cfg.size true,
        (slotLedger us).range⟩ := by
  have hfuncs := hv.funcs.2
  rw [onRequested_of_admits hv, onFunc_of_some hfuncs, slotLedger_setFunc,
    functionLedger_addBar_zero h haddr, slotLedger_of_some hfuncs]
  rfl

end Request

end Pciem.Pool.Ranges
