import Mathlib.Data.Finset.Card
import Pciem.Slot.Concurrent

namespace Pciem.Slot.Creation

open Kernel Library.Unwinding Library.Interleaving Library.Replay Register Ioctl Effects Invariant
  Concurrent
open State hiding PciemRootComplex
open Attach.Hijack (PciOps)
open Bar.Register (PciemBusMode)

variable {ι δ : Type} {us us' : PciemUserspaceState δ} {c : Command δ} {k : ℕ}

/-- CREATE_DEVICE has returned 0 for function `k`, with its root complex at the address. -/
def Created (k : ℕ) (address : δ) (c : Command δ) (q : Point) : Prop :=
  ∃ argCopied req capMgr, c = .createDevice argCopied req (some address) capMgr ∧
    req.func.toNat = k ∧ q = .returned (.returned (.ok ()))

/-- The functions that are there. -/
def present (us : PciemUserspaceState δ) : Finset ℕ :=
  (Finset.range pciemMaxFunctions).filter fun k ↦ (us.slot.funcs k).isSome

/-- No function is lost, and the slot says what it has. -/
structure Lossless (s : Fd ι δ) : Prop where
  stays : ∀ i k address, s.At (Created k address) i →
    ∃ v, s.shared.slot.funcs k = some v ∧ v.address = address
  once : ∀ i j k a b, s.At (Created k a) i → s.At (Created k b) j → i = j
  count : s.shared.slot.numFuncs = (present s.shared).card
  zero : ∀ k, (s.shared.slot.funcs k).isSome → (s.shared.slot.funcs 0).isSome
  mode : ∀ k v, s.shared.slot.funcs k = some v → v.busMode = s.shared.slot.busMode

/-- The mode of the slot is not changed once function 0 is there, and a function is stored where
there is none yet; function 0 while the slot has still the mode that it asks for. -/
def Orderly (us : PciemUserspaceState δ) (c : Command δ) (q : Point) : Prop :=
  match c, q with
  | .createDevice _ req (some _) _, .checked =>
    req.func.toNat = 0 → (us.slot.funcs 0).isSome → requestedMode req.flags = us.slot.busMode
  | .createDevice _ req (some _) _, .allocated _ =>
    us.slot.funcs req.func.toNat = none ∧
      (req.func.toNat = 0 → us.slot.busMode = requestedMode req.flags)
  | _, _ => True

/-- The next step of a call is an orderly one. -/
def OrderlyTurn (s : Fd ι δ) : Turn ι (Command δ) → Prop
  | .enter _ _ => True
  | .next i => ∀ c q, s.calls i = some (c, q) → Orderly s.shared c q

section Kept

theorem kept_registered (us : PciemUserspaceState δ) (r : Dma.Indirect.Registration) :
    Kept us { us with registered := r } :=
  ⟨rfl, rfl, fun _ ↦ rfl, Nat.le_refl _, fun _ _ _ h ↦ h⟩

theorem kept_configureChecked (us : PciemUserspaceState δ) (argCopied : Bool) (func : BitVec 8)
    (call : Device.Setup.Call) : Kept us (configureChecked us argCopied func call).2 := by
  rw [configureChecked]
  split_ifs
  · exact .refl us
  · split
    · exact .refl us
    · rename_i v hv
      split
      · exact .refl us
      · have hfunc : us.slot.funcs func.toNat = some v := by
          rw [usGetRc] at hv
          split_ifs at hv
          exact hv
        exact kept_setFunc hfunc ⟨rfl, rfl, Nat.le_refl _, fun _ _ _ h ↦ h⟩

theorem kept_initFunction (svs : ℕ → Services) (f : ℕ) (hwf : WellFormed us) :
    Kept us (initFunction svs f us).2 := by
  rw [initFunction]
  split_ifs with hf
  · exact kept_onFunc (frame_completeInit (svs 0) 0) us
  · exact kept_registerOther svs hwf hf

theorem kept_registerNext (svs : ℕ → Services) (fd : Except Errno Unit) (q : Point)
    (hwf : WellFormed us) : Kept us (registerNext svs fd q us).2 := by
  cases q with
  | checked => exact kept_buildFunctions us
  | turn f =>
    rw [registerNext]
    split_ifs
    · have hkept := kept_initFunction svs f hwf
      generalize initFunction svs f us = result at hkept ⊢
      obtain ⟨r, us'⟩ := result
      cases r with
      | ok _ => exact hkept
      | error e => exact hkept
    · exact kept_registered us .registered
  | failed e => exact kept_registered us .unregistered
  | _ => exact .refl us

/-- Only CREATE_DEVICE adds a function or changes the mode of the slot. -/
theorem kept_run (hwf : WellFormed us) (before : Option Point)
    (h : ∀ argCopied req memory capMgr, c ≠ .createDevice argCopied req memory capMgr) :
    Kept us (ioctl.run c before us).2 := by
  cases before with
  | none =>
    cases c with
    | createDevice argCopied req memory capMgr => exact absurd rfl (h argCopied req memory capMgr)
    | register svs fd => exact kept_startRegistration us
    | _ => exact .refl us
  | some q =>
    cases c with
    | createDevice argCopied req memory capMgr => exact absurd rfl (h argCopied req memory capMgr)
    | register svs fd => exact kept_registerNext svs fd q hwf
    | configure argCopied func call =>
      cases q with
      | checked => exact kept_configureChecked us argCopied func call
      | _ => exact .refl us
    | setEventfd | traceBar => exact .refl us
    | start | injectIrq | dma | dmaAtomic | p2p | getBarInfo | setIrqfd | dmaIndirect =>
      cases q <;> exact .refl us

end Kept

/-- The function of the request can be created but for a function that is there. -/
structure Placeable (us : PciemUserspaceState δ) (func : ℕ) : Prop where
  range : func < pciemMaxFunctions
  zero : func ≠ 0 → (us.slot.funcs 0).isSome

/-- What a CREATE_DEVICE relies on at its points, and leaves behind. -/
def Relies (req : PciemCreateDevice) (memory : Option δ) (us : PciemUserspaceState δ) :
    Point → Prop
  | .checked => Placeable us req.func.toNat
  | .allocated mode => Placeable us req.func.toNat ∧ mode = newMode us req
  | .returned (.returned (.ok ())) =>
    ∀ address, memory = some address → ∃ v, us.slot.funcs req.func.toNat = some v ∧
      v.address = address
  | _ => True

def Assertion (c : Command δ) (q : Point) (us : PciemUserspaceState δ) : Prop :=
  match c with
  | .createDevice _ req memory _ => Relies req memory us q
  | _ => True

/-- Every function that is there has been stored by one call, which has returned. -/
structure Inv (s : Fd ι δ) : Prop where
  wellFormed : WellFormed s.shared
  count : s.shared.slot.numFuncs = (present s.shared).card
  relies : Asserts Assertion s
  once : ∀ i j k a b, s.At (Created k a) i → s.At (Created k b) j → i = j
  stored : ∀ k, (s.shared.slot.funcs k).isSome → ∃ i a, s.At (Created k a) i

theorem inv_initial (ops : PciOps δ) (hostDevices : ℕ → Bool) (pool : PciemMempool) :
    Inv (Config.initial (opened ops hostDevices pool) : Fd ι δ) where
  wellFormed := wellFormed_opened ops hostDevices pool
  count := (Finset.card_eq_zero.mpr (Finset.filter_eq_empty_iff.mpr fun _ _ ↦ nofun)).symm
  relies := asserts_initial _
  once _ _ _ _ _ hi := (not_at_of_none rfl hi).elim
  stored _ hk := nomatch hk

theorem lossless_of_inv {s : Fd ι δ} (h : Inv s) : Lossless s where
  stays i k address hi := by
    obtain ⟨c, q, hq, argCopied, req, capMgr, rfl, rfl, rfl⟩ := hi
    exact h.relies i _ _ hq address rfl
  once := h.once
  count := h.count
  zero := h.wellFormed.zero
  mode := h.wellFormed.mode

section Step

variable [DecidableEq ι] {s : Fd ι δ} {i : ι} {before : Option Point}
  {m : Point × PciemUserspaceState δ} {req : PciemCreateDevice} {memory : Option δ} {q : Point}
  {argCopied capMgr : Bool} {address : δ}

theorem Placeable.mono {func : ℕ} (h : Placeable us func)
    (hzero : (us.slot.funcs 0).isSome → (us'.slot.funcs 0).isSome) : Placeable us' func :=
  ⟨h.range, fun hne ↦ hzero (h.zero hne)⟩

/-- What a call relies on stays with the mode of the slot and with its functions. -/
theorem relies_mono (h : Relies req memory us q)
    (hmode : (us.slot.funcs 0).isSome → us'.slot.busMode = us.slot.busMode)
    (hfuncs : ∀ k v, us.slot.funcs k = some v →
      ∃ v', us'.slot.funcs k = some v' ∧ v'.address = v.address) :
    Relies req memory us' q := by
  have hzero (h0 : (us.slot.funcs 0).isSome) : (us'.slot.funcs 0).isSome := by
    obtain ⟨v, hv⟩ := Option.isSome_iff_exists.mp h0
    obtain ⟨v', hv', -⟩ := hfuncs 0 v hv
    rw [hv']
    rfl
  unfold Relies at h ⊢
  split at h
  · exact h.mono hzero
  · refine ⟨h.1.mono hzero, h.2.trans ?_⟩
    rw [newMode, newMode]
    split_ifs with hfunc
    · rfl
    · exact (hmode (h.1.zero hfunc)).symm
  · intro address haddress
    obtain ⟨v, hv, hident⟩ := h address haddress
    obtain ⟨v', hv', hident'⟩ := hfuncs _ v hv
    exact ⟨v', hv', hident'.trans hident⟩
  · trivial

theorem present_of_kept (h : Kept us us') : present us' = present us := by
  rw [present, present]
  exact Finset.filter_congr fun k _ ↦ by rw [h.isSome]

theorem at_created_move (before : Option Point) (hi : s.calls i = before.map (Prod.mk c))
    (hcreated : ∀ k a, Created k a c m.1 ↔ Held (Created k a) c before) (k : ℕ) (a : δ) (j : ι) :
    (s.move i c m).At (Created k a) j ↔ s.At (Created k a) j := by
  by_cases hj : j = i
  · subst hj
    rw [at_move_self, at_iff_held hi]
    exact hcreated k a
  · exact at_move_of_ne hj

theorem inv_move_kept (h : Inv s) (hi : s.calls i = before.map (Prod.mk c))
    (hkept : Kept s.shared m.2) (hown : Assertion c m.1 m.2)
    (hcreated : ∀ k a, Created k a c m.1 ↔ Held (Created k a) c before) : Inv (s.move i c m) := by
  have hsame := at_created_move before hi hcreated
  refine ⟨hkept.wellFormed h.wellFormed, ?_, h.relies.move hown fun j c' q _ _ hA ↦ ?_,
    fun j l k a b hj hl ↦ h.once j l k a b ((hsame k a j).mp hj) ((hsame k b l).mp hl),
    fun k hk ↦ ?_⟩
  · change m.2.slot.numFuncs = (present m.2).card
    rw [present_of_kept hkept, hkept.numFuncs]
    exact h.count
  · cases c' with
    | createDevice argCopied req memory capMgr =>
      refine relies_mono hA (fun _ ↦ hkept.busMode) fun k v hv ↦ ?_
      obtain ⟨v', hv', haddress, -⟩ := hkept.exists_func hv
      exact ⟨v', hv', haddress⟩
    | _ => trivial
  · obtain ⟨j, a, hj⟩ := h.stored k (hkept.isSome k ▸ hk)
    exact ⟨j, a, (hsame k a j).mpr hj⟩

theorem createCheck_ok (h : createCheck us argCopied req = .ok ()) :
    Placeable us req.func.toNat := by
  unfold createCheck at h
  dsimp only at h
  split_ifs at h with hcopied hrange hbusy hfirst
  refine ⟨Nat.lt_of_not_le hrange, fun hne ↦ ?_⟩
  by_contra h0
  rw [Option.not_isSome_iff_eq_none, ← Option.isNone_iff_eq_none] at h0
  exact hfirst ⟨Nat.pos_of_ne_zero hne, h0⟩

theorem newMode_setMode : newMode (setMode us req) req = newMode us req := by
  rw [newMode]
  split_ifs with hfunc
  · rw [newMode, if_pos hfunc]
  · rfl

theorem not_created {q : Point} (hq : q ≠ .returned (.returned (.ok ()))) (k : ℕ) (a : δ) :
    ¬ Created k a c q := fun ⟨_, _, _, _, _, heq⟩ ↦ hq heq

/-- While function 0 is not there, the other calls do not rely on the mode of the slot. -/
theorem inv_setMode (h : Inv s)
    (hi : s.calls i = some (.createDevice argCopied req memory capMgr, .checked))
    (horderly : req.func.toNat = 0 → (s.shared.slot.funcs 0).isSome →
      requestedMode req.flags = s.shared.slot.busMode) :
    Inv (s.move i (.createDevice argCopied req memory capMgr)
      (.allocated (newMode s.shared req), setMode s.shared req)) := by
  have hplaceable : Placeable s.shared req.func.toNat := h.relies i _ _ hi
  have hmode (h0 : (s.shared.slot.funcs 0).isSome) :
      (setMode s.shared req).slot.busMode = s.shared.slot.busMode := by
    change newMode s.shared req = s.shared.slot.busMode
    rw [newMode]
    split_ifs with hfunc
    · exact horderly hfunc h0
    · rfl
  have hsame := at_created_move (some .checked)
    (m := (.allocated (newMode s.shared req), setMode s.shared req)) hi fun k a ↦
      iff_of_false (not_created (q := .allocated _) (by simp) k a)
        (not_created (q := .checked) (by simp) k a)
  refine ⟨⟨fun k v hv ↦ ?_, h.wellFormed.range, h.wellFormed.zero⟩, h.count,
    h.relies.move ⟨⟨hplaceable.range, hplaceable.zero⟩, newMode_setMode.symm⟩ ?_,
    fun j l k a b hj hl ↦ h.once j l k a b ((hsame k a j).mp hj) ((hsame k b l).mp hl),
    fun k hk ↦ ?_⟩
  · refine (h.wellFormed.mode k v hv).trans (hmode (h.wellFormed.zero k ?_)).symm
    exact Option.isSome_iff_exists.mpr ⟨v, hv⟩
  · rintro j c' q - - hA
    cases c' with
    | createDevice argCopied req memory capMgr =>
      exact relies_mono hA hmode fun k v hv ↦ ⟨v, hv, rfl⟩
    | _ => trivial
  · obtain ⟨j, a, hj⟩ := h.stored k hk
    exact ⟨j, a, (hsame k a j).mpr hj⟩

theorem storeFunction_eq (hmode : newMode us req = us.slot.busMode) (address : δ)
    (capMgr : Bool) :
    storeFunction us req.func.toNat (newFunction address (newMode us req) capMgr) =
      withFunction us req address capMgr := by
  rw [storeFunction, withFunction, hmode]

theorem present_withFunction (hrange : req.func.toNat < pciemMaxFunctions) (address : δ)
    (capMgr : Bool) :
    present (withFunction us req address capMgr) = insert req.func.toNat (present us) := by
  ext k
  rw [present, present, Finset.mem_insert, Finset.mem_filter, Finset.mem_filter,
    Finset.mem_range, withFunction]
  dsimp only
  by_cases hk : k = req.func.toNat
  · subst hk
    rw [Function.update_self]
    exact iff_of_true ⟨hrange, rfl⟩ (.inl rfl)
  · rw [Function.update_of_ne hk, or_iff_right hk]

theorem inv_store (h : Inv s) {mode : PciemBusMode}
    (hi : s.calls i = some (.createDevice argCopied req (some address) capMgr, .allocated mode))
    (hempty : s.shared.slot.funcs req.func.toNat = none)
    (hslot : req.func.toNat = 0 → s.shared.slot.busMode = requestedMode req.flags) :
    Inv (s.move i (.createDevice argCopied req (some address) capMgr)
      (.returned (.returned (.ok ())),
        storeFunction s.shared req.func.toNat (newFunction address mode capMgr))) := by
  obtain ⟨hplaceable, rfl⟩ : Placeable s.shared req.func.toNat ∧ mode = newMode s.shared req :=
    h.relies i _ _ hi
  have hmode : newMode s.shared req = s.shared.slot.busMode := by
    rw [newMode]
    split_ifs with hfunc
    · exact (hslot hfunc).symm
    · rfl
  have hvacant : Vacant s.shared req.func.toNat := ⟨hplaceable.range, hempty, hplaceable.zero⟩
  rw [storeFunction_eq hmode]
  have hfuncs (k : ℕ) (v : RootComplex δ) (hv : s.shared.slot.funcs k = some v) :
      (withFunction s.shared req address capMgr).slot.funcs k = some v := by
    have hk : k ≠ req.func.toNat := by
      rintro rfl
      cases hempty.symm.trans hv
    exact (Function.update_of_ne hk _ _).trans hv
  have hnew : (withFunction s.shared req address capMgr).slot.funcs req.func.toNat =
      some (newFunction address (newMode s.shared req) capMgr) := Function.update_self _ _ _
  -- a function that a call has created is there, so it is not the new one
  have hold (j : ι) (a : δ) : ¬ s.At (Created req.func.toNat a) j := by
    intro hj
    obtain ⟨v, hv, -⟩ := (lossless_of_inv h).stays j _ a hj
    cases hempty.symm.trans hv
  refine ⟨wellFormed_withFunction h.wellFormed hvacant address capMgr, ?_, ?_,
    fun j l k a b hj hl ↦ ?_, fun k hk ↦ ?_⟩
  · change s.shared.slot.numFuncs + 1 =
      (present (withFunction s.shared req address capMgr)).card
    rw [present_withFunction hplaceable.range, Finset.card_insert_of_notMem, h.count]
    rw [present, Finset.mem_filter, hempty]
    simp
  · refine h.relies.move (fun a ha ↦ ?_) ?_
    · obtain rfl := Option.some.inj ha
      exact ⟨_, hnew, rfl⟩
    · rintro j c' q - - hA
      cases c' with
      | createDevice argCopied' req' memory' capMgr' =>
        exact relies_mono hA (fun _ ↦ hmode) fun k v hv ↦ ⟨v, hfuncs k v hv, rfl⟩
      | _ => trivial
  · by_cases hji : j = i
    · subst hji
      obtain ⟨_, _, _, hc, hk, -⟩ := at_move_self.mp hj
      cases hc
      subst hk
      by_contra hne
      exact hold l b ((at_move_of_ne (Ne.symm hne)).mp hl)
    · have hj' := (at_move_of_ne hji).mp hj
      by_cases hli : l = i
      · subst hli
        obtain ⟨_, _, _, hc, hk, -⟩ := at_move_self.mp hl
        cases hc
        subst hk
        exact absurd hj' (hold j a)
      · exact h.once j l k a b hj' ((at_move_of_ne hli).mp hl)
  · by_cases hkf : k = req.func.toNat
    · subst hkf
      exact ⟨i, address, at_move_self.mpr ⟨argCopied, req, capMgr, rfl, rfl, rfl⟩⟩
    · have hk' : (s.shared.slot.funcs k).isSome := by
        rw [← Function.update_of_ne hkf (some (newFunction address (newMode s.shared req) capMgr))
          s.shared.slot.funcs]
        exact hk
      obtain ⟨j, a, hj⟩ := h.stored k hk'
      refine ⟨j, a, (at_move_of_ne ?_).mpr hj⟩
      rintro rfl
      exact not_created (q := .allocated _) (by simp) k a ((at_iff hi).mp hj)

theorem inv_create (h : Inv s)
    (hi : s.calls i = before.map (Prod.mk (.createDevice argCopied req memory capMgr)))
    (horderly : ∀ q, before = some q →
      Orderly s.shared (.createDevice argCopied req memory capMgr) q) :
    Inv (s.move i (.createDevice argCopied req memory capMgr)
      (ioctl.run (.createDevice argCopied req memory capMgr) before s.shared)) := by
  cases before with
  | none =>
    refine inv_move_kept h hi (.refl _) ?_ fun k a ↦ iff_of_false ?_ id
    · change Relies req memory s.shared (.ofCheck (createCheck s.shared argCopied req))
      cases hok : createCheck s.shared argCopied req with
      | ok _ => exact createCheck_ok hok
      | error e => trivial
    · change ¬ Created k a _ (.ofCheck (createCheck s.shared argCopied req))
      cases createCheck s.shared argCopied req with
      | ok _ => exact not_created (q := .checked) nofun k a
      | error e => exact not_created (q := .returned (.returned (.error e))) nofun k a
  | some q =>
    cases q with
    | checked =>
      cases memory with
      | none =>
        exact inv_move_kept h hi (.refl _) trivial fun k a ↦
          iff_of_false (not_created (q := .returned (.returned (.error .enomem))) nofun k a)
            (not_created (q := .checked) nofun k a)
      | some address => exact inv_setMode h hi (horderly .checked rfl)
    | allocated mode =>
      cases memory with
      | none => exact inv_move_kept h hi (.refl _) (h.relies i _ _ hi) fun _ _ ↦ Iff.rfl
      | some address =>
        obtain ⟨hempty, hslot⟩ := horderly (.allocated mode) rfl
        exact inv_store h hi hempty hslot
    | turn | failed | completed | registered | returned =>
      exact inv_move_kept h hi (.refl _) (h.relies i _ _ hi) fun _ _ ↦ Iff.rfl

theorem inv_step (h : Inv s) (a : Turn ι (Command δ)) (horderly : OrderlyTurn s a) :
    Inv (ioctl.step s a) := by
  obtain heq | ⟨i, c, before, rfl, hi, heq⟩ := step_cases ioctl s a
  · rw [heq]
    exact h
  · rw [heq]
    by_cases hcreate : ∃ argCopied req memory capMgr, c = .createDevice argCopied req memory capMgr
    · obtain ⟨argCopied, req, memory, capMgr, rfl⟩ := hcreate
      refine inv_create h hi ?_
      rintro q rfl
      exact horderly _ q hi
    · have hne (argCopied : Bool) (req : PciemCreateDevice) (memory : Option δ) (capMgr : Bool) :
          c ≠ .createDevice argCopied req memory capMgr :=
        fun hc ↦ hcreate ⟨argCopied, req, memory, capMgr, hc⟩
      have hnone (k : ℕ) (a : δ) (q : Point) : ¬ Created k a c q :=
        fun ⟨argCopied, req, capMgr, hc, _⟩ ↦ hne argCopied req (some a) capMgr hc
      refine inv_move_kept h hi (kept_run h.wellFormed before hne) ?_ fun k a ↦
        iff_of_false (hnone k a _) ?_
      · cases c with
        | createDevice argCopied req memory capMgr => exact absurd rfl (hne _ _ _ _)
        | _ => trivial
      · cases before with
        | none => exact id
        | some q => exact hnone k a q

/-- A step that is not orderly loses a function, or leaves the slot with another mode. -/
theorem not_lossless_step (h : Inv s) (a : Turn ι (Command δ)) (hno : ¬ OrderlyTurn s a) :
    ¬ Lossless (ioctl.step s a) := by
  intro hlossless
  cases a with
  | enter i c => exact hno trivial
  | next i =>
    rw [OrderlyTurn] at hno
    push Not at hno
    obtain ⟨c, q, hi, hno⟩ := hno
    rw [step_next hi] at hlossless
    unfold Orderly at hno
    split at hno
    · rename_i argCopied req address capMgr
      push Not at hno
      obtain ⟨hfunc, h0, hne⟩ := hno
      obtain ⟨v, hv⟩ := Option.isSome_iff_exists.mp h0
      have hmode : v.busMode = newMode s.shared req := hlossless.mode 0 v hv
      rw [newMode, if_pos hfunc] at hmode
      exact hne (hmode.symm.trans (h.wellFormed.mode 0 v hv))
    · rename_i argCopied req address capMgr mode
      have hself : (s.move i (.createDevice argCopied req (some address) capMgr)
          (ioctl.next (.createDevice argCopied req (some address) capMgr) (.allocated mode)
            s.shared)).At (Created req.func.toNat address) i :=
        at_move_self.mpr ⟨argCopied, req, capMgr, rfl, rfl, rfl⟩
      by_cases hempty : s.shared.slot.funcs req.func.toNat = none
      · rw [and_iff_right hempty, Classical.not_imp] at hno
        obtain ⟨hfunc, hne⟩ := hno
        obtain ⟨-, hmode⟩ : Placeable s.shared req.func.toNat ∧ mode = newMode s.shared req :=
          h.relies i _ _ hi
        have hstored : mode = s.shared.slot.busMode :=
          hlossless.mode req.func.toNat (newFunction address mode capMgr)
            (Function.update_self _ _ _)
        rw [newMode, if_pos hfunc] at hmode
        exact hne (hstored.symm.trans hmode)
      · obtain ⟨j, a, hj⟩ := h.stored req.func.toNat (Option.isSome_iff_ne_none.mpr hempty)
        have hji : j ≠ i := by
          rintro rfl
          exact not_created (q := .allocated mode) (by simp) _ a ((at_iff hi).mp hj)
        exact hji (hlossless.once j i _ a address ((at_move_of_ne hji).mpr hj) hself)
    · exact hno trivial

end Step

section Run

variable [DecidableEq ι]

/-- No function is lost in a run exactly when its CREATE_DEVICE calls take orderly steps. -/
theorem lossless_iff (ops : PciOps δ) (hostDevices : ℕ → Bool) (pool : PciemMempool)
    (as : List (Turn ι (Command δ))) :
    Always ioctl.step Lossless (Config.initial (opened ops hostDevices pool) : Fd ι δ) as ↔
      Each ioctl.step OrderlyTurn (Config.initial (opened ops hostDevices pool) : Fd ι δ) as :=
  always_iff_each_of_lost (I := Inv) (fun _ h ↦ lossless_of_inv h)
    (fun _ a h horderly ↦ inv_step h a horderly) (fun _ a h hno ↦ not_lossless_step h a hno)
    (inv_initial ops hostDevices pool)

/-- Two calls create function 0 at the same time. -/
def createTwice : List (Turn ℕ (Command ℕ)) :=
  [.enter 0 (.createDevice true ⟨0, 0⟩ (some 0) true),
    .enter 1 (.createDevice true ⟨0, 0⟩ (some 1) true), .next 0, .next 1, .next 0, .next 1]

theorem second_store_loses_function : ¬ ∀ (ops : PciOps ℕ) (hostDevices : ℕ → Bool)
    (pool : PciemMempool) (as : List (Turn ℕ (Command ℕ))),
      Always ioctl.step Lossless (Config.initial (opened ops hostDevices pool) : Fd ℕ ℕ) as := by
  intro h
  obtain ⟨-, -, -, -, -, -, hlossless⟩ :=
    h .hardware (fun _ ↦ false) ⟨12, 0x1000, 0x1000, fun _ ↦ false⟩ createTwice
  obtain ⟨v, hv, hlost⟩ := hlossless.stays 0 0 0 ⟨_, _, rfl, _, _, _, rfl, rfl, rfl⟩
  obtain rfl := Option.some.inj hv
  revert hlost
  decide

end Run

end Pciem.Slot.Creation
