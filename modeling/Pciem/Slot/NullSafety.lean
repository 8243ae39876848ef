import Pciem.Library.Replay
import Pciem.Slot.MultiFunction
import Pciem.Slot.Solitary

namespace Pciem.Slot.NullSafety

open Kernel Library.Unwinding Library.Replay Bar.Table Register Ioctl Effects Bars Invariant
  Solitary
  MultiFunction
open State hiding PciemRootComplex
open Attach.Hijack (PciOps)
open Dma.Indirect (ValidPageSize)

variable {δ : Type} {us : PciemUserspaceState δ} {v : RootComplex δ} {sv : Services} {k : ℕ}
  {s : FunctionState δ}

/-- Function 0 of a registered slot has its device, and the functions that have come later have
none. -/
structure Ready (us : PciemUserspaceState δ) : Prop where
  first : us.registered = .registered → ∃ v, us.slot.funcs 0 = some v ∧ v.pciemPdev.isSome
  later : us.registered = .registered → ∀ k v, k ≠ 0 → us.slot.funcs k = some v →
    v.pciemPdev = none

section Invariant

theorem pciemPdev_of_init (h : (pciemCompleteInit sv k s).1 = .ok ()) :
    (pciemCompleteInit sv k s).2.2.pciemPdev.isSome := by
  cases hmode : s.2.busMode with
  | virtualRoot =>
    rw [(onOwnBus_completeInit sv k hmode h).pciemPdev]
    rfl
  | attachToHost =>
    obtain ⟨placed, -, hok, heq⟩ := completeInit_of_ok h
    have hmode' : (withPlaced s placed).2.busMode = .attachToHost := hmode
    rw [initMode_of_attach hmode'] at hok heq
    rw [heq]
    have hinit := hostInit_initAttach sv k (withPlaced s placed)
    generalize pciemInitAttachToHostMode sv k (withPlaced s placed) = result at hok hinit ⊢
    cases hinit with
    | early => cases hok
    | noDevice => cases hok
    | done => rfl

/-- When REGISTER gets through, function 0 is alone and has been given its device. -/
theorem lone_of_registered (hwf : WellFormed us) (hreg : us.registered = .unregistered)
    {svs : ℕ → Services} {fd : Except Errno Unit}
    (h : (pciemIoctlRegister svs fd us).2.registered = .registered) :
    ∃ v, Lone us v ∧ (pciemCompleteInit (svs 0) 0 (built us v)).1 = .ok () := by
  cases h0 : us.slot.funcs 0 with
  | none =>
    have hstart : pciemStartRegistration us = (.error .einval, us) := by
      rw [pciemStartRegistration, h0]
      rfl
    rw [pciemIoctlRegister, andThen_of_error (by rw [hstart]), hstart, hreg] at h
    cases h
  | some v =>
    let us' : PciemUserspaceState δ := { us with registered := .registering }
    have hwf' : WellFormed us' := ⟨hwf.mode, hwf.range, hwf.zero⟩
    have hstart := startRegistration_of_unregistered hreg (by rw [h0]; rfl)
    have hlone : Lone us v := by
      refine ⟨h0, fun k hk ↦ ?_⟩
      by_contra hfn
      have hne := registerFunctions_ne_ok svs hwf' hk (Option.isSome_iff_ne_none.mpr hfn)
      cases hresult : (registerFunctions svs us').1 with
      | ok _ => exact hne hresult
      | error e =>
        have herr : (onError (registerFunctions svs) pciemCancelRegistration us').1 = .error e :=
          onError_fst.trans hresult
        rw [pciemIoctlRegister, andThen_of_ok (by rw [hstart]), hstart, andThen_of_error herr,
          onError_of_error hresult] at h
        cases h
    refine ⟨v, hlone, ?_⟩
    cases hinit : (pciemCompleteInit (svs 0) 0 (built us v)).1 with
    | ok _ => rfl
    | error e =>
      rw [register_of_init_error hreg hlone hinit] at h
      cases h

theorem ready_register (hwf : WellFormed us) (h : Ready us) (svs : ℕ → Services)
    (fd : Except Errno Unit) : Ready (pciemIoctlRegister svs fd us).2 := by
  by_cases hreg : us.registered = .unregistered
  · refine ⟨fun hregistered ↦ ?_, fun hregistered k w hk hw ↦ ?_⟩
    · obtain ⟨v, hlone, hok⟩ := lone_of_registered hwf hreg hregistered
      rw [register_solitary hreg hlone]
      have hpdev := pciemPdev_of_init hok
      generalize pciemCompleteInit (svs 0) 0 (built us v) = result at hok hpdev ⊢
      obtain ⟨r, s⟩ := result
      cases hok
      exact ⟨s.2, setFunc_self us s.1 0 s.2, hpdev⟩
    · obtain ⟨v, hlone, -⟩ := lone_of_registered hwf hreg hregistered
      have hsome := (keeps_register svs fd us hwf).isSome k
      rw [hw, hlone.2 k hk] at hsome
      cases hsome
  · rw [register_of_not_unregistered svs fd hreg]
    exact h

theorem ready_step (hwf : WellFormed us) (h : Ready us) (c : Command δ) : Ready (step us c) := by
  cases c with
  | createDevice argCopied req memory capMgr =>
    obtain ⟨e, heq⟩ | ⟨address, hvacant, heq⟩ := createDevice_cases us argCopied req memory capMgr
    · rw [step, pciemDeviceIoctl, heq]
      exact h
    · rw [step, pciemDeviceIoctl, heq]
      refine ⟨fun hreg ↦ ?_, fun hreg k w hk hw ↦ ?_⟩
      · obtain ⟨v, hv, hpdev⟩ := h.first hreg
        refine ⟨v, ?_, hpdev⟩
        have hne : 0 ≠ req.func.toNat := by
          intro hzero
          have hempty := hvacant.empty
          rw [← hzero, hv] at hempty
          cases hempty
        exact (Function.update_of_ne hne _ _).trans hv
      · by_cases hfunc : k = req.func.toNat
        · have hself : (withFunction us req address capMgr).slot.funcs k =
              some (newFunction address (newMode us req) capMgr) := by
            rw [hfunc]
            exact Function.update_self _ _ _
          obtain rfl := Option.some.inj (hw.symm.trans hself)
          rfl
        · exact h.later hreg k w hk ((Function.update_of_ne hfunc _ _).symm.trans hw)
  | configure argCopied func call =>
    obtain ⟨e, heq⟩ | ⟨v, placed, hun, -, -, heq⟩ := configure_cases us argCopied func call
    · rw [step, pciemDeviceIoctl, heq]
      exact h
    · rw [step, pciemDeviceIoctl, heq]
      refine ⟨fun hreg ↦ ?_, fun hreg ↦ ?_⟩
      · cases hun.symm.trans hreg
      · cases hun.symm.trans hreg
  | register svs fd => exact ready_register hwf h svs fd
  | start | injectIrq | dma | dmaAtomic | p2p | getBarInfo | setEventfd | setIrqfd | dmaIndirect
    | traceBar => exact h

end Invariant

/-- The function whose device a request works on, when the request passes the tests of its own
argument. -/
def target : Command δ → Option ℕ
  | .dma argCopied op _ =>
    if argCopied = true ∧ op.early = none ∧ ¬ op.Uncopied then some op.func.toNat else none
  | .dmaAtomic argCopied func opType _ =>
    if argCopied = true ∧ 1 ≤ opType.toNat ∧ opType.toNat ≤ 7 then some func.toNat else none
  | .dmaIndirect argCopied req pageSize _ =>
    if argCopied = true ∧ req.length ≠ 0 ∧ ValidPageSize pageSize ∧ req.allocated = true ∧
        ¬ req.Uncopied then
      some req.func.toNat
    else
      none
  | _ => none

/-- A function besides function 0 in a registered slot: it has been created after REGISTER. -/
def Late (us : PciemUserspaceState δ) (k : ℕ) : Prop :=
  us.registered = .registered ∧ k ≠ 0 ∧ (us.slot.funcs k).isSome

/-- TRACE_BAR comes after function 0, and no DMA, atomic or PRP request is for a late function. -/
def Careful (us : PciemUserspaceState δ) (c : Command δ) : Prop :=
  match c with
  | .traceBar argCopied func barIndex _ =>
    argCopied = true → func.toNat < pciemMaxFunctions → barIndex.toNat < pciStdNumBars →
      (us.slot.funcs 0).isSome
  | c => ∀ k, target c = some k → ¬ Late us k

section Handlers

variable {next : RootComplex δ → Outcome} {early : Option (Except Errno Unit)}
  {argCopied : Bool} {func : ℕ} {rest : Except Errno Unit}

theorem checkRegistered_ok_iff : pciemCheckRegistered us = .ok () ↔
    (us.slot.funcs 0).isSome ∧ us.registered = .registered := by
  rw [pciemCheckRegistered]
  cases us.slot.funcs 0 with
  | none => exact iff_of_false nofun nofun
  | some v =>
    cases us.registered with
    | unregistered => exact iff_of_false nofun nofun
    | registering => exact iff_of_false nofun nofun
    | registered => exact iff_of_true rfl ⟨rfl, rfl⟩

theorem onRegistered_null_iff :
    onRegistered us argCopied early func next = .nullDereference ↔
      pciemCheckRegistered us = .ok () ∧ argCopied = true ∧ early = none ∧
        ∃ v, usGetRc us func = some v ∧ next v = .nullDereference := by
  unfold onRegistered
  cases pciemCheckRegistered us with
  | error e => exact iff_of_false nofun nofun
  | ok _ =>
    cases argCopied with
    | false => exact iff_of_false nofun nofun
    | true =>
      cases early with
      | some r => exact iff_of_false nofun nofun
      | none =>
        cases usGetRc us func with
        | none => exact iff_of_false nofun nofun
        | some v => simp

/-- A request that reaches the device of its function meets a null pointer exactly where the
function is a late one. -/
theorem onRegistered_late_iff (hwf : WellFormed us) (h : Ready us) {p : Prop}
    (hnext : ∀ v, next v = .nullDereference ↔ p ∧ v.pciemPdev = none) :
    onRegistered us argCopied early func next = .nullDereference ↔
      (argCopied = true ∧ early = none ∧ p) ∧ Late us func := by
  rw [onRegistered_null_iff, checkRegistered_ok_iff]
  constructor
  · rintro ⟨⟨-, hreg⟩, hcopied, hearly, v, hv, hnull⟩
    obtain ⟨hp, hpdev⟩ := (hnext v).mp hnull
    rw [usGetRc] at hv
    split_ifs at hv
    refine ⟨⟨hcopied, hearly, hp⟩, hreg, ?_, by rw [hv]; rfl⟩
    rintro rfl
    obtain ⟨w, hw, hsome⟩ := h.first hreg
    rw [hv] at hw
    cases hw
    rw [hpdev] at hsome
    cases hsome
  · rintro ⟨⟨hcopied, hearly, hp⟩, hreg, hk, hfn⟩
    obtain ⟨v, hv⟩ := Option.isSome_iff_exists.mp hfn
    refine ⟨⟨hwf.zero func hfn, hreg⟩, hcopied, hearly, v, ?_,
      (hnext v).mpr ⟨hp, h.later hreg func v hk hv⟩⟩
    rw [usGetRc, if_neg (Nat.not_le.mpr (hwf.range func hfn)), hv]

theorem usePdev_null_iff : usePdev v rest = .nullDereference ↔ v.pciemPdev = none := by
  rw [usePdev]
  cases v.pciemPdev with
  | none => exact iff_of_true rfl rfl
  | some dev => exact iff_of_false nofun nofun

theorem move_null_iff (op : Transfer) :
    op.move v rest = .nullDereference ↔ ¬ op.Uncopied ∧ v.pciemPdev = none := by
  rw [Transfer.move]
  split_ifs with huncopied
  · exact iff_of_false nofun fun hno ↦ hno.1 huncopied
  · rw [usePdev_null_iff, and_iff_right huncopied]

theorem forall_target_iff {q : Prop} [Decidable q] :
    (∀ k, (if q then some func else none) = some k → ¬ Late us k) ↔ ¬ (q ∧ Late us func) := by
  split_ifs with hq
  · rw [and_iff_right hq]
    exact ⟨fun h ↦ h func rfl, fun h k hk ↦ Option.some.inj hk ▸ h⟩
  · exact iff_of_true (fun _ hk ↦ nomatch hk) fun hand ↦ hq hand.1

theorem dma_null_iff (hwf : WellFormed us) (h : Ready us) (op : Transfer) :
    pciemIoctlDma us argCopied op rest ≠ .nullDereference ↔
      Careful us (.dma argCopied op rest) := by
  change _ ↔ ∀ k, target (.dma argCopied op rest : Command δ) = some k → ¬ Late us k
  rw [target, forall_target_iff, pciemIoctlDma, Ne,
    onRegistered_late_iff hwf h fun v ↦ move_null_iff op]

theorem dmaAtomic_null_iff (hwf : WellFormed us) (h : Ready us) (func : BitVec 8)
    (opType : BitVec 32) : pciemIoctlDmaAtomic us argCopied func opType rest ≠ .nullDereference ↔
      Careful us (.dmaAtomic argCopied func opType rest) := by
  have hnext (v : RootComplex δ) : (if 1 ≤ opType.toNat ∧ opType.toNat ≤ 7 then usePdev v rest
      else .returned (.error .einval)) = Outcome.nullDereference ↔
        (1 ≤ opType.toNat ∧ opType.toNat ≤ 7) ∧ v.pciemPdev = none := by
    split_ifs with hop
    · rw [usePdev_null_iff, and_iff_right hop]
    · exact iff_of_false nofun fun hno ↦ hop hno.1
  change _ ↔ ∀ k, target (.dmaAtomic argCopied func opType rest : Command δ) = some k → ¬ Late us k
  rw [target, forall_target_iff, pciemIoctlDmaAtomic, Ne, onRegistered_late_iff hwf h hnext]
  simp only [true_and]

theorem dmaIndirect_null_iff (hwf : WellFormed us) (h : Ready us) (req : Transfer)
    (pageSize : BitVec 32) :
    pciemIoctlDmaIndirect us argCopied req pageSize rest ≠ .nullDereference ↔
      Careful us (.dmaIndirect argCopied req pageSize rest) := by
  have hearly : (if req.length = 0 then some (.ok ())
      else if ¬ ValidPageSize pageSize then some (.error .einval)
      else if req.allocated = false then some (.error .enomem)
      else none : Option (Except Errno Unit)) = none ↔
        req.length ≠ 0 ∧ ValidPageSize pageSize ∧ req.allocated = true := by
    by_cases hlen : req.length = 0
    · rw [if_pos hlen]
      exact iff_of_false nofun fun hno ↦ hno.1 hlen
    rw [if_neg hlen]
    by_cases hpage : ValidPageSize pageSize
    · rw [if_neg (not_not.mpr hpage)]
      cases req.allocated with
      | true => exact iff_of_true rfl ⟨hlen, hpage, rfl⟩
      | false => exact iff_of_false nofun fun hno ↦ nomatch hno.2.2
    · rw [if_pos hpage]
      exact iff_of_false nofun fun hno ↦ hpage hno.2.1
  change _ ↔ ∀ k, target (.dmaIndirect argCopied req pageSize rest : Command δ) = some k →
    ¬ Late us k
  rw [target, forall_target_iff, pciemIoctlDmaIndirect, Ne,
    onRegistered_late_iff hwf h fun v ↦ move_null_iff req, hearly]
  simp only [and_assoc]

theorem traceBar_null_iff (us : PciemUserspaceState δ) (func barIndex : BitVec 32) :
    pciemIoctlTraceBar us argCopied func barIndex rest ≠ .nullDereference ↔
      Careful us (.traceBar argCopied func barIndex rest) := by
  change _ ↔ (argCopied = true → func.toNat < pciemMaxFunctions →
    barIndex.toNat < pciStdNumBars → (us.slot.funcs 0).isSome)
  rw [pciemIoctlTraceBar]
  by_cases hcopied : argCopied = false
  · rw [if_pos hcopied]
    exact iff_of_true nofun fun hc ↦ Bool.noConfusion (hcopied.symm.trans hc)
  rw [if_neg hcopied]
  by_cases hfunc : func.toNat ≥ pciemMaxFunctions
  · rw [if_pos hfunc]
    exact iff_of_true nofun fun _ hlt ↦ absurd hlt (Nat.not_lt.mpr hfunc)
  rw [if_neg hfunc]
  by_cases hbar : barIndex.toNat ≥ pciStdNumBars
  · rw [if_pos hbar]
    exact iff_of_true nofun fun _ _ hlt ↦ absurd hlt (Nat.not_lt.mpr hbar)
  rw [if_neg hbar]
  cases us.slot.funcs 0 with
  | none =>
    exact iff_of_false (fun hne ↦ hne rfl) fun h ↦ nomatch h (Bool.not_eq_false _ ▸ hcopied)
      (Nat.lt_of_not_le hfunc) (Nat.lt_of_not_le hbar)
  | some v =>
    refine iff_of_true ?_ fun _ _ _ ↦ rfl
    rw [deref]
    cases usGetRc us func.toNat with
    | none => nofun
    | some w => nofun

theorem onRegistered_returned (next' : RootComplex δ → Except Errno Unit) :
    onRegistered us argCopied early func (fun v ↦ .returned (next' v)) ≠ .nullDereference := by
  rw [Ne, onRegistered_null_iff]
  rintro ⟨-, -, -, v, -, hnull⟩
  cases hnull

end Handlers

/-- A call uses a null pointer exactly when it is not a careful one. -/
theorem step_null_iff (hwf : WellFormed us) (h : Ready us) (c : Command δ) :
    (pciemDeviceIoctl us c).1 ≠ .nullDereference ↔ Careful us c := by
  have hcareful {c : Command δ} (hc : target c = none) : ∀ k, target c = some k → ¬ Late us k :=
    fun k hk ↦ by cases hc.symm.trans hk
  cases c with
  | createDevice | configure | setEventfd =>
    exact iff_of_true (by simp [pciemDeviceIoctl]) (hcareful rfl)
  | register svs fd =>
    refine iff_of_true ?_ (hcareful rfl)
    change registerOutcome us svs fd ≠ .nullDereference
    rw [registerOutcome]
    split
    · simp
    · rename_i hstart
      rw [pciemStartRegistration] at hstart
      cases h0 : us.slot.funcs 0 with
      | none =>
        rw [h0] at hstart
        cases hstart
      | some v => simp [deref]
  | start rest =>
    refine iff_of_true ?_ (hcareful rfl)
    change pciemIoctlStart us rest ≠ .nullDereference
    rw [pciemIoctlStart]
    split
    · simp
    · rename_i hcheck
      obtain ⟨v, hv⟩ := Option.isSome_iff_exists.mp (checkRegistered_ok_iff.mp hcheck).1
      simp [hv, deref]
  | setIrqfd rest =>
    refine iff_of_true ?_ (hcareful rfl)
    change pciemIoctlSetIrqfd us rest ≠ .nullDereference
    rw [pciemIoctlSetIrqfd]
    split
    · simp
    · simp
  | injectIrq argCopied func rest =>
    have hne : pciemIoctlInjectIrq us argCopied func rest ≠ .nullDereference :=
      onRegistered_returned fun _ ↦ rest
    exact iff_of_true hne (hcareful rfl)
  | p2p argCopied op rest =>
    have hne : pciemIoctlP2p us argCopied op rest ≠ .nullDereference := by
      rw [pciemIoctlP2p, Ne, onRegistered_null_iff]
      rintro ⟨-, -, -, v, -, hnull⟩
      split_ifs at hnull
    exact iff_of_true hne (hcareful rfl)
  | getBarInfo argCopied func barIndex rest =>
    have hne : pciemIoctlGetBarInfo us argCopied func barIndex rest ≠ .nullDereference :=
      onRegistered_returned fun _ ↦ rest
    exact iff_of_true hne (hcareful rfl)
  | dma argCopied op rest => exact dma_null_iff hwf h op
  | dmaAtomic argCopied func opType rest => exact dmaAtomic_null_iff hwf h func opType
  | dmaIndirect argCopied req pageSize rest => exact dmaIndirect_null_iff hwf h req pageSize
  | traceBar argCopied func barIndex rest => exact traceBar_null_iff us func barIndex

/-- A run meets no null pointer exactly when all its calls are careful ones. -/
theorem no_null_dereference_iff (ops : PciOps δ) (hostDevices : ℕ → Bool) (pool : PciemMempool)
    (cs : List (Command δ)) :
    Each step (fun us c ↦ (pciemDeviceIoctl us c).1 ≠ .nullDereference)
        (opened ops hostDevices pool) cs ↔
      Each step Careful (opened ops hostDevices pool) cs := by
  have hopened : WellFormed (opened ops hostDevices pool) ∧ Ready (opened ops hostDevices pool) :=
    ⟨wellFormed_opened ops hostDevices pool, nofun, nofun⟩
  refine each_congr (I := fun us ↦ WellFormed us ∧ Ready us) ?_ ?_ hopened
  · exact fun us c hus ↦ ⟨wellFormed_step hus.1 c, ready_step hus.1 hus.2 c⟩
  · exact fun us c hus ↦ step_null_iff hus.1 hus.2 c

/-- TRACE_BAR on a newly opened fd takes the lock of a function that is not there. -/
theorem trace_bar_dereferences_null : ¬ ∀ (ops : PciOps ℕ) (hostDevices : ℕ → Bool)
    (pool : PciemMempool) (cs : List (Command ℕ)),
      Each step (fun us c ↦ (pciemDeviceIoctl us c).1 ≠ .nullDereference)
        (opened ops hostDevices pool) cs := by
  intro h
  have hrun := h .hardware (fun _ ↦ false) ⟨12, 0x1000, 0x1000, fun _ ↦ false⟩
    [.traceBar true 0 0 (.ok ())]
  exact hrun.1 rfl

end Pciem.Slot.NullSafety
