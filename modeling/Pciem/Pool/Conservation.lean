import Mathlib.Tactic.IntervalCases
import Pciem.Library.Replay
import Pciem.Pool.Ranges
import Pciem.Slot.Fds

namespace Pciem.Pool.Conservation

open Kernel Library.Replay Library.Ownership Bar.Table Allocate Accounts Ledger Ranges
  Slot.Register Slot.Destroy Slot.Stepwise Slot.Fds
open Slot.State hiding PciemRootComplex
open Slot.Ioctl (RootComplex)
open Attach.Hijack (PciOps)

variable {ι δ : Type}

/-- The ranges of the BARs of all functions that are there; a BAR has the name of its fd, that of
its function and its index. -/
def ledger (m : Machine ι δ) : Ledger (ι × ℕ × ℕ) :=
  ⟨m.world.pool, fun p ↦ (m.fds p.1).bind fun fd ↦ slotRange fd.slot p.2⟩

/-- What is taken of the pool is what the BARs of the functions have, each of them its own, and
nothing is taken when no fd is open. -/
structure Conserved (m : Machine ι δ) : Prop where
  balanced : (ledger m).Conserved
  free : (∀ i, m.fds i = none) → ∀ page, m.world.pool.allocated page = false

/-- The action is an ADD_BAR that takes the chunk at `page` for the BAR `o`. -/
inductive Carves (m : Machine ι δ) : Slot.Fds.Action ι δ → ι × ℕ × ℕ → BitVec 64 → ℕ → Prop
  | addBar {i : ι} {fd : FdState δ} {func : BitVec 8} {v : RootComplex δ} {cfg : PciemBarConfig}
      {page : ℕ} : m.fds i = some fd → Admits (m.state fd) true func v →
      Takes m.world.pool cfg page → Carves m (.request i (.addBar true func cfg))
        (i, func.toNat, cfg.barIndex.toNat) cfg.size page

/-- A BAR that takes a chunk has no range yet, and the chunk is not at the address 0. -/
def Orderly (m : Machine ι δ) (a : Slot.Fds.Action ι δ) : Prop :=
  ∀ o size page, Carves m a o size page →
    (ledger m).range o = none ∧ chunkAddress m.world.pool page ≠ 0

/-- What the module begins with. `pciem_pool_init` leaves the pool as it is where there is no
region. -/
inductive Loaded (insertResource : BitVec 64 → BitVec 64 → Bool) (pageShift : ℕ) :
    PciemMempool → Prop
  | noRegion : Loaded insertResource pageShift ⟨pageShift, 0, 0, fun _ ↦ false⟩
  | region {base size : BitVec 64} {created added : Bool} {pool : PciemMempool} :
      pciemPoolInit insertResource pageShift base size created added = .ok pool →
      Loaded insertResource pageShift pool

variable {m : Machine ι δ} {i : ι} {fd : FdState δ} {us : PciemUserspaceState δ}
  {o : ι × ℕ × ℕ} {size : BitVec 64} {page : ℕ}

section Kept

/-- The ranges are those of BARs which a teardown comes to. -/
def Within (m : Machine ι δ) : Prop :=
  ∀ i k b, (ledger m).range (i, k, b) ≠ none → k < pciemMaxFunctions ∧ b < pciStdNumBars

theorem Within.indexed (h : Within m) (hfd : m.fds i = some fd) : Indexed (m.state fd) := by
  intro k b hne
  refine h i k b ?_
  simp only [ledger, hfd, Option.bind_some]
  exact hne

theorem Carves.free {a : Slot.Fds.Action ι δ} (h : Carves m a o size page) :
    size ≠ 0 ∧ FreeChunk m.world.pool size page := by
  obtain ⟨-, -, htakes⟩ := h
  exact ⟨htakes.size, htakes.first.1⟩

theorem Carves.index {a : Slot.Fds.Action ι δ} (h : Carves m a o size page) :
    o.2.1 < pciemMaxFunctions ∧ o.2.2 < pciStdNumBars := by
  obtain ⟨-, hv, htakes⟩ := h
  exact ⟨hv.funcs.1, htakes.index⟩

/-- What is kept while every action is orderly. -/
structure Inv (m : Machine ι δ) : Prop where
  ledger : Ledger.Inv (ledger m)
  within : Within m

theorem Inv.conserved (h : Inv m) : Conserved m := by
  refine ⟨h.ledger.conserved, fun hclosed page ↦ ?_⟩
  have hnone (o : ι × ℕ × ℕ) : (Conservation.ledger m).owned o = ∅ := by
    simp [owned, Conservation.ledger, hclosed]
  have hempty : used m.world.pool = ∅ := h.ledger.conserved.eq_empty hnone
  have hpage : page ∉ used m.world.pool := by simp [hempty]
  simpa [used] using hpage

end Kept

section Step

variable [DecidableEq ι]

theorem ledger_of_some (hfd : m.fds i = some fd) : ledger m =
    (slotLedger (m.state fd)).within i fun j p ↦ (m.fds j).bind fun fd ↦ slotRange fd.slot p := by
  simp only [ledger, slotLedger, within, Machine.state, Ledger.mk.injEq, true_and]
  funext p
  obtain ⟨j, p⟩ := p
  by_cases hj : j = i
  · simp [hj, hfd]
  · simp [hj]

theorem ledger_put (m : Machine ι δ) (i : ι) (us : PciemUserspaceState δ) : ledger (m.put i us) =
    (slotLedger us).within i fun j p ↦ (m.fds j).bind fun fd ↦ slotRange fd.slot p := by
  simp only [ledger, slotLedger, within, Machine.put, Ledger.mk.injEq, true_and]
  funext p
  obtain ⟨j, p⟩ := p
  by_cases hj : j = i
  · simp [hj]
  · simp [hj]

theorem releases_put (hfd : m.fds i = some fd)
    (h : Releases (slotLedger (m.state fd)) (slotLedger us)) :
    Releases (ledger m) (ledger (m.put i us)) := by
  rw [ledger_put, ledger_of_some hfd]
  exact h.within

theorem ledger_start (hfd : m.fds i = none) : ledger (step m (.start i)) = ledger m := by
  simp only [step, hfd, ledger, Ledger.mk.injEq, true_and]
  funext p
  obtain ⟨j, p⟩ := p
  by_cases hj : j = i
  · simp [hj, hfd, FdState.new, slotRange]
  · simp [hj]

theorem releases_final (hwithin : Within m) (hfd : m.fds i = some fd) :
    Releases (ledger m) (ledger (step m (.final i))) := by
  obtain ⟨hreleases, hnone⟩ := releases_destroy (hwithin.indexed hfd)
  have hresult : ledger (step m (.final i)) = (slotLedger
      (pciemUserspaceDestroy (m.state fd)).2).within i
        fun j p ↦ (m.fds j).bind fun fd ↦ slotRange fd.slot p := by
    simp only [step, hfd, ledger, slotLedger, within, Ledger.mk.injEq, true_and]
    funext p
    obtain ⟨j, p⟩ := p
    by_cases hj : j = i
    · simp [hj, hnone]
    · simp [hj]
  rw [hresult, ledger_of_some hfd]
  exact hreleases.within

/-- An action that takes no chunk only gives back ranges. -/
theorem releases_step (hwithin : Within m) {a : Slot.Fds.Action ι δ}
    (hno : ∀ o size page, ¬ Carves m a o size page) :
    Releases (ledger m) (ledger (step m a)) := by
  cases a with
  | start i =>
    cases hfd : m.fds i with
    | none =>
      rw [ledger_start hfd]
      exact .refl _
    | some fd =>
      rw [step, hfd]
      exact .refl _
  | request i r =>
    cases hfd : m.fds i with
    | none =>
      rw [step, hfd]
      exact .refl _
    | some fd =>
      rw [step, hfd]
      refine releases_put hfd ?_
      cases r with
      | createDevice argCopied req memory capMgr =>
        rw [serve, slotLedger_createDevice]
        exact .refl _
      | addBar argCopied func cfg =>
        refine releases_onRequested fun v hv ↦ ?_
        rw [functionLedger_addBar_of_not]
        · exact .refl _
        · intro page htakes
          have hcopied := hv.copied
          subst hcopied
          exact hno _ _ _ (.addBar hfd hv htakes)
      | addCapability argCopied func cfg =>
        refine releases_onRequested fun v _ ↦ ?_
        rw [functionLedger_addCapability]
        exact .refl _
      | setConfig argCopied func cfg => exact releases_onRequested fun v _ ↦ .refl _
  | register i svs outcome =>
    cases hfd : m.fds i with
    | none =>
      rw [step, hfd]
      exact .refl _
    | some fd =>
      rw [step, hfd]
      exact releases_put hfd (releases_register svs outcome _)
  | final i =>
    cases hfd : m.fds i with
    | none =>
      rw [step, hfd]
      exact .refl _
    | some fd => exact releases_final hwithin hfd

theorem ledger_step_of_carves {a : Slot.Fds.Action ι δ} (h : Carves m a o size page)
    (haddr : chunkAddress m.world.pool page ≠ 0) :
    ledger (step m a) = (ledger m).carve o (chunkAddress m.world.pool page) size := by
  obtain ⟨hfd, hv, htakes⟩ := h
  rw [step, hfd]
  dsimp only
  rw [ledger_put, serve, slotLedger_addBar_carve hv htakes haddr, within_carve,
    ← ledger_of_some hfd]
  rfl

theorem ledger_step_of_zero {a : Slot.Fds.Action ι δ} (h : Carves m a o size page)
    (haddr : chunkAddress m.world.pool page = 0) : ledger (step m a) =
      ⟨m.world.pool.setChunk (chunkAddress m.world.pool page) size true, (ledger m).range⟩ := by
  obtain ⟨hfd, hv, htakes⟩ := h
  rw [step, hfd]
  dsimp only
  rw [ledger_put, serve, slotLedger_addBar_zero hv htakes haddr, ledger_of_some hfd]
  rfl

theorem Inv.orderly {a : Slot.Fds.Action ι δ} (h : Inv m) (horderly : Orderly m a) :
    Inv (step m a) := by
  by_cases hcarves : ∃ o size page, Carves m a o size page
  · obtain ⟨o, size, page, hcarves⟩ := hcarves
    obtain ⟨hnone, haddr⟩ := horderly o size page hcarves
    obtain ⟨hsize, hfree⟩ := hcarves.free
    have hstep := ledger_step_of_carves hcarves haddr
    refine ⟨hstep ▸ h.ledger.carve hnone hsize hfree haddr, fun i k b hne ↦ ?_⟩
    by_cases ho : (i, k, b) = o
    · have hindex := hcarves.index
      rw [← ho] at hindex
      exact hindex
    · refine h.within i k b fun hno ↦ hne ?_
      simpa [hstep, carve, ho] using hno
  · have hreleases := releases_step h.within fun o size page hno ↦ hcarves ⟨o, size, page, hno⟩
    refine ⟨h.ledger.releases hreleases, fun i k b hne ↦ h.within i k b fun hno ↦ hne ?_⟩
    exact hreleases.range_eq_none hno

theorem Inv.lost {a : Slot.Fds.Action ι δ} (h : Inv m) (hno : ¬ Orderly m a) :
    ¬ Conserved (step m a) := by
  intro hconserved
  refine hno fun o size page hcarves ↦ ?_
  obtain ⟨hsize, hfree⟩ := hcarves.free
  have hbalanced := hconserved.balanced
  by_cases haddr : chunkAddress m.world.pool page = 0
  · rw [ledger_step_of_zero hcarves haddr] at hbalanced
    exact absurd hbalanced (h.ledger.not_conserved_zero hsize hfree)
  · rw [ledger_step_of_carves hcarves haddr] at hbalanced
    refine ⟨?_, haddr⟩
    by_contra hsome
    exact h.ledger.not_conserved_carve hsome hfree hbalanced

end Step

section Loaded

variable {insertResource : BitVec 64 → BitVec 64 → Bool} {last : BitVec 64} {pageShift : ℕ}

theorem Loaded.fresh {pool : PciemMempool}
    (hinsert : ∀ start stop, insertResource start stop = true → start ≤ stop ∧ stop ≤ last)
    (hlast : last < BitVec.allOnes 64) (h : Loaded insertResource pageShift pool) :
    pool.base.toNat + pool.totalSize.toNat < 2 ^ 64 ∧ ∀ page, pool.allocated page = false := by
  cases h with
  | noRegion => simp
  | region hinit =>
    obtain ⟨hne, hres, rfl⟩ := poolInit_of_ok hinit
    obtain ⟨hle, hstop⟩ := hinsert _ _ hres
    refine ⟨?_, fun _ ↦ rfl⟩
    dsimp only
    bv_omega

/-- A machine whose pool has two pages. -/
def twoPages : Machine ℕ ℕ :=
  ⟨(Slot.Ioctl.opened .hardware (fun _ ↦ false) ⟨12, 0x1000, 0x2000, fun _ ↦ false⟩).world,
    fun _ ↦ none⟩

end Loaded

end Pciem.Pool.Conservation
