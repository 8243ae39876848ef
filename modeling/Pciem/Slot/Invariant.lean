import Pciem.Slot.Effects

namespace Pciem.Slot.Invariant

open Kernel Library.Unwinding Bar.Table Bar.Placement Config.Capabilities Register Ioctl Effects
open Device.Setup (Call)
open State hiding PciemRootComplex
open Attach.Hijack (PciOps)
open Bar.Register (PciemBusMode)

variable {δ : Type} {us us' : PciemUserspaceState δ} {k : ℕ} {v : RootComplex δ}

/-- What no call on the slot changes. -/
structure Kept (us us' : PciemUserspaceState δ) : Prop where
  busMode : us'.slot.busMode = us.slot.busMode
  numFuncs : us'.slot.numFuncs = us.slot.numFuncs
  funcs : ∀ k, (us'.slot.funcs k).map (fun v ↦ (v.address, v.busMode)) =
    (us.slot.funcs k).map (fun v ↦ (v.address, v.busMode))
  nextBus : us.world.nextBus ≤ us'.world.nextBus
  absent : ∀ n j, n < us.world.nextBus → us.world.devices ⟨.root n, j⟩ = false →
    us'.world.devices ⟨.root n, j⟩ = false

theorem Kept.refl (us : PciemUserspaceState δ) : Kept us us :=
  ⟨rfl, rfl, fun _ ↦ rfl, Nat.le_refl _, fun _ _ _ h ↦ h⟩

theorem Kept.trans {us'' : PciemUserspaceState δ} (h : Kept us us') (h' : Kept us' us'') :
    Kept us us'' where
  busMode := h'.busMode.trans h.busMode
  numFuncs := h'.numFuncs.trans h.numFuncs
  funcs k := (h'.funcs k).trans (h.funcs k)
  nextBus := Nat.le_trans h.nextBus h'.nextBus
  absent n j hn habs :=
    h'.absent n j (Nat.lt_of_lt_of_le hn h.nextBus) (h.absent n j hn habs)

theorem Kept.isSome (h : Kept us us') (k : ℕ) :
    (us'.slot.funcs k).isSome = (us.slot.funcs k).isSome := by
  have heq := congrArg Option.isSome (h.funcs k)
  rw [Option.isSome_map, Option.isSome_map] at heq
  exact heq

theorem Kept.exists_func (h : Kept us us') (hfunc : us.slot.funcs k = some v) :
    ∃ v', us'.slot.funcs k = some v' ∧ v'.address = v.address ∧ v'.busMode = v.busMode := by
  have heq := h.funcs k
  rw [hfunc] at heq
  obtain ⟨v', hv', hident⟩ := Option.map_eq_some_iff.mp heq
  obtain ⟨haddress, hmode⟩ := Prod.mk.inj hident
  exact ⟨v', hv', haddress, hmode⟩

theorem kept_setFunc {world : World δ} {v' : RootComplex δ} (hfunc : us.slot.funcs k = some v)
    (h : Frame (us.world, v) (world, v')) : Kept us (setFunc us world k v') := by
  refine ⟨rfl, rfl, fun j ↦ ?_, h.nextBus, h.absent⟩
  by_cases hj : j = k
  · subst hj
    rw [setFunc_self, hfunc, Option.map_some, Option.map_some, h.address, h.busMode]
  · rw [setFunc_of_ne hj]

theorem kept_onFunc {x : FunctionCall δ} (h : ∀ s, Frame s (x s).2)
    (us : PciemUserspaceState δ) : Kept us (onFunc k x us).2 := by
  cases hfunc : us.slot.funcs k with
  | none =>
    rw [onFunc_of_none hfunc]
    exact .refl us
  | some v =>
    rw [onFunc_of_some hfunc]
    exact kept_setFunc hfunc (h (us.world, v))

theorem kept_attachFunc {sv : Services} (hmode : ∀ func0, us.slot.funcs 0 = some func0 →
    func0.busMode = .virtualRoot) (hk : k ≠ 0) : Kept us (attachFunc sv k us).2 := by
  rw [attachFunc]
  split
  · rename_i func0 fn h0 hfn
    have hjoined := attachFunction_joined (k := k) sv fn (hmode func0 h0) us.world
    generalize pciemAttachFunction sv k us.world func0 fn = result at hjoined ⊢
    have hfunc0 (world : World δ) (hdev : world.devices = us.world.devices)
        (hnext : world.nextBus = us.world.nextBus) : Kept us (setFunc us world 0 func0) :=
      kept_setFunc h0 ⟨rfl, rfl, hnext ▸ Nat.le_refl _, fun n j _ h ↦ by rw [hdev, h]⟩
    have hthen (world : World δ) {fn' : RootComplex δ} (hdev : world.devices = us.world.devices)
        (hnext : world.nextBus = us.world.nextBus) (haddress : fn'.address = fn.address)
        (hbusMode : fn'.busMode = fn.busMode) :
        Kept us (setFunc (setFunc us world 0 func0) world k fn') :=
      (hfunc0 world hdev hnext).trans (kept_setFunc ((setFunc_of_ne hk us world func0).trans hfn)
        ⟨haddress, hbusMode, Nat.le_refl _, fun _ _ _ h ↦ h⟩)
    cases hjoined with
    | refused => exact hthen us.world rfl rfl rfl rfl
    | noDevice => exact hthen { us.world with priv := _ } rfl rfl rfl rfl
    | joined => exact hthen { us.world with priv := _ } rfl rfl rfl rfl
  · exact .refl us

/-- The functions of a slot have the mode of the slot, and come with function 0. -/
structure WellFormed (us : PciemUserspaceState δ) : Prop where
  mode : ∀ k v, us.slot.funcs k = some v → v.busMode = us.slot.busMode
  range : ∀ k, (us.slot.funcs k).isSome → k < pciemMaxFunctions
  zero : ∀ k, (us.slot.funcs k).isSome → (us.slot.funcs 0).isSome

theorem Kept.wellFormed (h : Kept us us') (hwf : WellFormed us) : WellFormed us' where
  mode k v hv := by
    have hsome : (us.slot.funcs k).isSome := by
      rw [← h.isSome, hv]
      rfl
    obtain ⟨w, hw⟩ := Option.isSome_iff_exists.mp hsome
    obtain ⟨v', hv', -, hmode⟩ := h.exists_func hw
    obtain rfl : v' = v := Option.some.inj (hv'.symm.trans hv)
    rw [hmode, h.busMode]
    exact hwf.mode k w hw
  range k hk := hwf.range k (h.isSome k ▸ hk)
  zero k hk := h.isSome 0 ▸ hwf.zero k (h.isSome k ▸ hk)

section Register

variable {sv : ℕ → Services}

theorem kept_registerOther (sv : ℕ → Services) (hwf : WellFormed us) (hk : k ≠ 0) :
    Kept us (registerOther sv k us).2 := by
  have hinit := kept_onFunc (k := k) (frame_completeInit (sv k) k) us
  cases hok : (onFunc k (pciemCompleteInit (sv k) k) us).1 with
  | error e =>
    rw [registerOther, andThen_of_error hok]
    exact hinit
  | ok _ =>
    rw [registerOther, andThen_of_ok hok]
    cases hfn : us.slot.funcs k with
    | none =>
      rw [onFunc_of_none hfn, attachFunc_of_none hfn]
      exact .refl us
    | some fn =>
      refine hinit.trans (kept_attachFunc (fun func0 h0 ↦ ?_) hk)
      rw [(hinit.wellFormed hwf).mode 0 func0 h0, hinit.busMode, ← hwf.mode k fn hfn]
      rw [onFunc_of_some hfn] at hok
      by_contra hmode
      have hattach : fn.busMode = .attachToHost := by
        cases hcase : fn.busMode with
        | virtualRoot => exact absurd hcase hmode
        | attachToHost => rfl
      exact hk (eq_zero_of_completeInit_attach (s := (us.world, fn)) hattach hok)

theorem kept_buildFunctions (us : PciemUserspaceState δ) : Kept us (buildFunctions us) := by
  refine ⟨rfl, rfl, fun k ↦ ?_, Nat.le_refl _, fun _ _ _ h ↦ h⟩
  rw [buildFunctions]
  dsimp only
  rw [Option.map_map]
  rfl

/-- From a well-formed slot on, a call keeps what is to be kept. -/
def Keeps (x : SlotCall δ) : Prop := ∀ us, WellFormed us → Kept us (x us).2

theorem Keeps.andThen {x y : SlotCall δ} (hx : Keeps x) (hy : Keeps y) : Keeps (andThen x y) := by
  intro us hwf
  have hxus := hx us hwf
  cases hok : (x us).1 with
  | error e =>
    rw [andThen_of_error hok]
    exact hxus
  | ok _ =>
    rw [andThen_of_ok hok]
    exact hxus.trans (hy _ (hxus.wellFormed hwf))

theorem Keeps.forEach {x : ℕ → SlotCall δ} {ks : List ℕ} (h : ∀ k ∈ ks, Keeps (x k)) :
    Keeps (forEach x ks) := by
  induction ks with
  | nil => exact fun us _ ↦ .refl us
  | cons k ks ih =>
    exact (h k List.mem_cons_self).andThen (ih fun j hj ↦ h j (List.mem_cons_of_mem k hj))

theorem keeps_registerFunctions (sv : ℕ → Services) :
    Keeps (registerFunctions sv : SlotCall δ) := by
  refine Keeps.andThen (fun us _ ↦ kept_buildFunctions us) (Keeps.andThen (fun us _ ↦ ?_) ?_)
  · exact kept_onFunc (frame_completeInit (sv 0) 0) us
  · refine Keeps.forEach fun k hk us hwf ↦ kept_registerOther sv hwf ?_
    have hle := (List.mem_range'_1.mp hk).1
    omega

theorem Keeps.onError {x : SlotCall δ} {undo : PciemUserspaceState δ → PciemUserspaceState δ}
    (hx : Keeps x) (hundo : ∀ us, Kept us (undo us)) : Keeps (onError x undo) := by
  intro us hwf
  cases hok : (x us).1 with
  | error e =>
    rw [onError_of_error hok]
    exact (hx us hwf).trans (hundo _)
  | ok _ =>
    rw [onError_of_ok hok]
    exact hx us hwf

theorem kept_startRegistration (us : PciemUserspaceState δ) :
    Kept us (pciemStartRegistration us).2 := by
  rw [pciemStartRegistration]
  split_ifs
  · exact .refl us
  · split
    · exact ⟨rfl, rfl, fun _ ↦ rfl, Nat.le_refl _, fun _ _ _ h ↦ h⟩
    · exact .refl us
    · exact .refl us

theorem keeps_register (sv : ℕ → Services) (fd : Except Errno Unit) :
    Keeps (pciemIoctlRegister sv fd : SlotCall δ) := by
  have hset (us : PciemUserspaceState δ) (r : Dma.Indirect.Registration) :
      Kept us { us with registered := r } :=
    ⟨rfl, rfl, fun _ ↦ rfl, Nat.le_refl _, fun _ _ _ h ↦ h⟩
  refine Keeps.andThen (fun us _ ↦ kept_startRegistration us) (Keeps.andThen ?_
    (Keeps.andThen (fun us _ ↦ hset us .registered) fun us _ ↦ .refl us))
  exact Keeps.onError (keeps_registerFunctions sv) fun us ↦ hset us .unregistered

theorem registerOther_of_none (sv : ℕ → Services) (h : us.slot.funcs k = none) :
    registerOther sv k us = (.ok (), us) := by
  rw [registerOther, andThen_of_ok (by rw [onFunc_of_none h]), onFunc_of_none h,
    attachFunc_of_none h]

/-- The three ways that the loops of REGISTER end: function 0 fails, a later function is turned to,
or there is none. -/
theorem registerFunctions_of_error (sv : ℕ → Services) {e : Errno}
    (h : (onFunc 0 (pciemCompleteInit (sv 0) 0) (buildFunctions us)).1 = .error e) :
    registerFunctions sv us =
      (.error e, (onFunc 0 (pciemCompleteInit (sv 0) 0) (buildFunctions us)).2) :=
  andThen_of_error h

theorem registerFunctions_of_ok (sv : ℕ → Services)
    (h : (onFunc 0 (pciemCompleteInit (sv 0) 0) (buildFunctions us)).1 = .ok ()) :
    registerFunctions sv us =
      forEach (registerOther sv) (List.range' 1 (pciemMaxFunctions - 1))
        (onFunc 0 (pciemCompleteInit (sv 0) 0) (buildFunctions us)).2 :=
  andThen_of_ok h

theorem registerFunctions_of_alone (sv : ℕ → Services)
    (h : (onFunc 0 (pciemCompleteInit (sv 0) 0) (buildFunctions us)).1 = .ok ())
    (halone : ∀ k, k ≠ 0 → us.slot.funcs k = none) :
    registerFunctions sv us =
      (.ok (), (onFunc 0 (pciemCompleteInit (sv 0) 0) (buildFunctions us)).2) := by
  have hkept := (kept_buildFunctions us).trans
    (kept_onFunc (k := 0) (frame_completeInit (sv 0) 0) (buildFunctions us))
  rw [registerFunctions_of_ok sv h]
  refine forEach_of_unchanged fun k hk ↦ registerOther_of_none sv ?_
  have hnone := hkept.isSome k
  rw [halone k (Nat.one_le_iff_ne_zero.mp (List.mem_range'_1.mp hk).1)] at hnone
  exact Option.isNone_iff_eq_none.mp (Option.isSome_eq_false_iff.mp hnone)

theorem startRegistration_of_unregistered (hreg : us.registered = .unregistered)
    (h0 : (us.slot.funcs 0).isSome) :
    pciemStartRegistration us = (.ok (), { us with registered := .registering }) := by
  obtain ⟨v, hv⟩ := Option.isSome_iff_exists.mp h0
  rw [pciemStartRegistration, hv, hreg]
  rfl

theorem register_of_not_unregistered (sv : ℕ → Services) (fd : Except Errno Unit)
    (hreg : us.registered ≠ .unregistered) :
    (pciemIoctlRegister sv fd us).2 = us := by
  have hstart : ∃ e, pciemStartRegistration us = (.error e, us) := by
    rw [pciemStartRegistration]
    split_ifs
    · exact ⟨_, rfl⟩
    · split
      · rename_i hcase
        exact absurd hcase hreg
      · exact ⟨_, rfl⟩
      · exact ⟨_, rfl⟩
  obtain ⟨e, hstart⟩ := hstart
  rw [pciemIoctlRegister, andThen_of_error (by rw [hstart]), hstart]

end Register

section Reachable

/-- The mode that a new function gets. -/
def newMode (us : PciemUserspaceState δ) (req : PciemCreateDevice) : PciemBusMode :=
  if req.func.toNat = 0 then requestedMode req.flags else us.slot.busMode

/-- The slot with a new function. -/
def withFunction (us : PciemUserspaceState δ) (req : PciemCreateDevice) (address : δ)
    (capMgr : Bool) : PciemUserspaceState δ :=
  { us with slot := {
      funcs := Function.update us.slot.funcs req.func.toNat
        (some (newFunction address (newMode us req) capMgr))
      numFuncs := us.slot.numFuncs + 1
      busMode := newMode us req } }

/-- A function is created where there is none, and after function 0. -/
structure Vacant (us : PciemUserspaceState δ) (func : ℕ) : Prop where
  range : func < pciemMaxFunctions
  empty : us.slot.funcs func = none
  zero : func ≠ 0 → (us.slot.funcs 0).isSome

theorem createDevice_cases (us : PciemUserspaceState δ) (argCopied : Bool)
    (req : PciemCreateDevice) (memory : Option δ) (capMgr : Bool) :
    (∃ e, pciemIoctlCreateDevice us argCopied req memory capMgr = (.error e, us)) ∨
      ∃ address, Vacant us req.func.toNat ∧
        pciemIoctlCreateDevice us argCopied req memory capMgr =
          (.ok (), withFunction us req address capMgr) := by
  unfold pciemIoctlCreateDevice
  dsimp only
  by_cases hcopied : argCopied = false
  · exact .inl ⟨_, if_pos hcopied⟩
  rw [if_neg hcopied]
  by_cases hrange : req.func.toNat ≥ pciemMaxFunctions
  · exact .inl ⟨_, if_pos hrange⟩
  rw [if_neg hrange]
  by_cases hbusy : (us.slot.funcs req.func.toNat).isSome
  · exact .inl ⟨_, if_pos hbusy⟩
  rw [if_neg hbusy]
  by_cases hfirst : req.func.toNat > 0 ∧ (us.slot.funcs 0).isNone
  · exact .inl ⟨_, if_pos hfirst⟩
  rw [if_neg hfirst]
  cases memory with
  | none => exact .inl ⟨_, rfl⟩
  | some address =>
    refine .inr ⟨address, ⟨Nat.lt_of_not_le hrange, Option.not_isSome_iff_eq_none.mp hbusy,
      fun hne ↦ ?_⟩, rfl⟩
    by_contra h0
    rw [Option.not_isSome_iff_eq_none, ← Option.isNone_iff_eq_none] at h0
    exact hfirst ⟨Nat.pos_of_ne_zero hne, h0⟩

theorem wellFormed_withFunction (hwf : WellFormed us) {req : PciemCreateDevice}
    (hvacant : Vacant us req.func.toNat) (address : δ) (capMgr : Bool) :
    WellFormed (withFunction us req address capMgr) := by
  have hzero (j : ℕ) (hj : (us.slot.funcs j).isSome) : req.func.toNat ≠ 0 := by
    intro heq
    have h0 := hwf.zero j hj
    rw [← heq, hvacant.empty] at h0
    cases h0
  refine ⟨fun j v hv ↦ ?_, fun j hj ↦ ?_, fun j _ ↦ ?_⟩
  · rw [withFunction] at hv ⊢
    dsimp only at hv ⊢
    by_cases hj : j = req.func.toNat
    · subst hj
      rw [Function.update_self] at hv
      cases hv
      rfl
    · rw [Function.update_of_ne hj] at hv
      rw [newMode, if_neg (hzero j (by rw [hv]; rfl))]
      exact hwf.mode j v hv
  · rw [withFunction] at hj
    dsimp only at hj
    by_cases heq : j = req.func.toNat
    · rw [heq]
      exact hvacant.range
    · rw [Function.update_of_ne heq] at hj
      exact hwf.range j hj
  · rw [withFunction]
    dsimp only
    by_cases heq : 0 = req.func.toNat
    · rw [heq, Function.update_self]
      rfl
    · rw [Function.update_of_ne heq]
      exact hvacant.zero (Ne.symm heq)

theorem wellFormed_createDevice (hwf : WellFormed us) (argCopied : Bool) (req : PciemCreateDevice)
    (memory : Option δ) (capMgr : Bool) :
    WellFormed (pciemIoctlCreateDevice us argCopied req memory capMgr).2 := by
  obtain ⟨e, heq⟩ | ⟨address, hvacant, heq⟩ :=
    createDevice_cases us argCopied req memory capMgr
  · rw [heq]
    exact hwf
  · rw [heq]
    exact wellFormed_withFunction hwf hvacant address capMgr

/-- The slot after a configuration call that has worked. -/
def withTable (us : PciemUserspaceState δ) (func : ℕ) (v : RootComplex δ) (placed : PlacedFunction)
    (call : Call) : PciemUserspaceState δ :=
  setFunc us { us.world with pool := poolAfter us.world.pool call } func { v with placed }

theorem configure_cases (us : PciemUserspaceState δ) (argCopied : Bool) (func : BitVec 8)
    (call : Call) : (∃ e, pciemIoctlConfigure us argCopied func call = (.error e, us)) ∨
      ∃ v placed, us.registered = .unregistered ∧ us.slot.funcs func.toNat = some v ∧
        configured v.placed call = .ok placed ∧
        pciemIoctlConfigure us argCopied func call =
          (.ok (), withTable us func.toNat v placed call) := by
  rw [pciemIoctlConfigure]
  cases hcheck : pciemCheckUnregistered us with
  | error e => exact .inl ⟨e, rfl⟩
  | ok _ =>
    dsimp only
    by_cases hcopied : argCopied = false
    · exact .inl ⟨_, if_pos hcopied⟩
    rw [if_neg hcopied]
    cases hv : usGetRc us func.toNat with
    | none => exact .inl ⟨_, rfl⟩
    | some v =>
      dsimp only
      cases hok : configured v.placed call with
      | error e => exact .inl ⟨e, rfl⟩
      | ok placed =>
        refine .inr ⟨v, placed, ?_, ?_, hok, rfl⟩
        · rw [pciemCheckUnregistered] at hcheck
          split_ifs at hcheck
          split at hcheck
          · cases hcheck
          · cases hcheck
          · assumption
        · rw [usGetRc] at hv
          split_ifs at hv
          exact hv

theorem kept_configure (us : PciemUserspaceState δ) (argCopied : Bool) (func : BitVec 8)
    (call : Call) : Kept us (pciemIoctlConfigure us argCopied func call).2 := by
  obtain ⟨e, heq⟩ | ⟨v, placed, -, hv, -, heq⟩ := configure_cases us argCopied func call
  · rw [heq]
    exact .refl us
  · rw [heq]
    exact kept_setFunc hv ⟨rfl, rfl, Nat.le_refl _, fun _ _ _ h ↦ h⟩

theorem wellFormed_step (hwf : WellFormed us) (c : Command δ) : WellFormed (step us c) := by
  cases c with
  | createDevice argCopied req memory capMgr =>
    exact wellFormed_createDevice hwf argCopied req memory capMgr
  | configure argCopied func call => exact (kept_configure us argCopied func call).wellFormed hwf
  | register sv fd => exact (keeps_register sv fd us hwf).wellFormed hwf
  | start | injectIrq | dma | dmaAtomic | p2p | getBarInfo | setEventfd | setIrqfd | dmaIndirect
    | traceBar => exact hwf

theorem invariant_of_reachable {P : PciemUserspaceState δ → Prop}
    (hopened : ∀ ops hostDevices pool, P (opened ops hostDevices pool))
    (hstep : ∀ us c, P us → P (step us c)) (h : Reachable us) : P us := by
  obtain ⟨ops, hostDevices, pool, cs, rfl⟩ := h
  have hrun : ∀ us, P us → P (cs.foldl step us) := by
    induction cs with
    | nil => exact fun us hus ↦ hus
    | cons c cs ih => exact fun us hus ↦ ih (step us c) (hstep us c hus)
  exact hrun _ (hopened ops hostDevices pool)

theorem wellFormed_opened (ops : PciOps δ) (hostDevices : ℕ → Bool) (pool : PciemMempool) :
    WellFormed (opened ops hostDevices pool) where
  mode _ _ h := nomatch h
  range _ h := nomatch h
  zero _ h := nomatch h

theorem wellFormed_of_reachable (h : Reachable us) : WellFormed us :=
  invariant_of_reachable wellFormed_opened (fun _ c hus ↦ wellFormed_step hus c) h

end Reachable

end Pciem.Slot.Invariant
