import Pciem.Slot.Exclusion

namespace Pciem.Slot.Serial

open Kernel Library.Unwinding Library.Interleaving Register Ioctl Invariant Concurrent Exclusion
open State hiding PciemRootComplex
open Attach.Hijack (PciOps)
open Dma.Indirect (Registration)

variable {ι δ : Type} {us : PciemUserspaceState δ} {c : Command δ}

/-- What a call that has come to its end has returned. -/
def Point.outcome : Point → Option Outcome
  | .returned o => some o
  | .registered fd => some (.returned fd)
  | _ => none

/-- A call that no other call interrupts does what it does on a slot of its own. -/
def RunsAlone (c : Command δ) (us : PciemUserspaceState δ) : Prop :=
  ∃ q, ioctl.Leads c (ioctl.enter c us) (q, Ioctl.step us c) ∧
    Point.outcome q = some (pciemDeviceIoctl us c).1

section Create

variable {req : PciemCreateDevice} {memory : Option δ} {argCopied capMgr : Bool}

theorem createDevice_eq : pciemIoctlCreateDevice us argCopied req memory capMgr =
    match createCheck us argCopied req, memory with
    | .error e, _ => (.error e, us)
    | .ok (), none => (.error .enomem, us)
    | .ok (), some address => (.ok (), withFunction us req address capMgr) := by
  unfold pciemIoctlCreateDevice createCheck
  dsimp only
  by_cases hcopied : argCopied = false
  · rw [if_pos hcopied, if_pos hcopied]
  rw [if_neg hcopied, if_neg hcopied]
  by_cases hrange : req.func.toNat ≥ pciemMaxFunctions
  · rw [if_pos hrange, if_pos hrange]
  rw [if_neg hrange, if_neg hrange]
  by_cases hbusy : (us.slot.funcs req.func.toNat).isSome
  · rw [if_pos hbusy, if_pos hbusy]
  rw [if_neg hbusy, if_neg hbusy]
  by_cases hfirst : req.func.toNat > 0 ∧ (us.slot.funcs 0).isNone
  · rw [if_pos hfirst, if_pos hfirst]
  rw [if_neg hfirst, if_neg hfirst]
  cases memory <;> rfl

theorem runsAlone_createDevice : RunsAlone (.createDevice argCopied req memory capMgr) us := by
  rw [RunsAlone, Ioctl.step, pciemDeviceIoctl]
  dsimp only
  rw [createDevice_eq]
  change ∃ q, ioctl.Leads _ (.ofCheck (createCheck us argCopied req), us) _ ∧ _
  cases createCheck us argCopied req with
  | error e => exact ⟨_, leads_refl _, rfl⟩
  | ok _ =>
    cases memory with
    | none => exact ⟨_, leads_next rfl (leads_refl _), rfl⟩
    | some address => exact ⟨_, leads_next rfl (leads_next rfl (leads_refl _)), rfl⟩

end Create

theorem runsAlone_configure {argCopied : Bool} {func : BitVec 8} {call : Device.Setup.Call} :
    RunsAlone (.configure argCopied func call) us := by
  rw [RunsAlone, Ioctl.step, pciemDeviceIoctl]
  dsimp only
  change ∃ q, ioctl.Leads _ (.ofCheck (pciemCheckUnregistered us), us) _ ∧ _
  cases hcheck : pciemCheckUnregistered us with
  | error e =>
    have heq : pciemIoctlConfigure us argCopied func call = (.error e, us) := by
      simp [pciemIoctlConfigure, hcheck]
    rw [heq]
    exact ⟨_, leads_refl _, rfl⟩
  | ok _ =>
    have heq : pciemIoctlConfigure us argCopied func call =
        configureChecked us argCopied func call := by
      rw [pciemIoctlConfigure, hcheck]
      rfl
    rw [heq]
    exact ⟨_, leads_next rfl (leads_refl _), rfl⟩

section Register

variable {svs : ℕ → Services} {fd : Except Errno Unit}

/-- REGISTER at the end of its loops. -/
def ended (fd : Except Errno Unit) (result : Except Errno Unit × PciemUserspaceState δ) :
    Point × PciemUserspaceState δ :=
  match result with
  | (.ok (), us) => (.registered fd, pciemCompleteRegistration us)
  | (.error e, us) => (.returned (.returned (.error e)), pciemCancelRegistration us)

theorem leads_loop (svs : ℕ → Services) (fd : Except Errno Unit) (n f : ℕ)
    (hf : f + n = pciemMaxFunctions) (us : PciemUserspaceState δ) :
    ioctl.Leads (.register svs fd) (.turn f, us)
      (ended fd (forEach (initFunction svs) (List.range' f n) us)) := by
  induction n generalizing f us with
  | zero =>
    have hturn : registerNext svs fd (.turn f) us = (.completed, pciemCompleteRegistration us) :=
      if_neg (by omega)
    exact leads_next hturn (leads_next rfl (leads_refl _))
  | succ n ih =>
    have hf' : f < pciemMaxFunctions := by omega
    rw [List.range'_succ, forEach]
    cases hok : (initFunction svs f us).1 with
    | ok _ =>
      have hturn : registerNext svs fd (.turn f) us =
          (.turn (f + 1), (initFunction svs f us).2) := by
        simp [registerNext, hf', hok]
      rw [andThen_of_ok hok]
      exact leads_next hturn (ih (f + 1) (by omega) _)
    | error e =>
      have hturn : registerNext svs fd (.turn f) us = (.failed e, (initFunction svs f us).2) := by
        simp [registerNext, hf', hok]
      rw [andThen_of_error hok]
      exact leads_next hturn (leads_next rfl (leads_refl _))

theorem registerFunctions_eq (svs : ℕ → Services) (us : PciemUserspaceState δ) :
    registerFunctions svs us =
      forEach (initFunction svs) (List.range' 0 pciemMaxFunctions) (buildFunctions us) := by
  have hothers : forEach (registerOther svs : ℕ → SlotCall δ)
      (List.range' 1 (pciemMaxFunctions - 1)) =
      forEach (initFunction svs) (List.range' 1 (pciemMaxFunctions - 1)) := by
    refine forEach_congr fun k hk ↦ ?_
    rw [initFunction, if_neg (Nat.one_le_iff_ne_zero.mp (List.mem_range'_1.mp hk).1)]
  rw [registerFunctions, hothers]
  rfl

theorem isSome_of_start (h : (pciemStartRegistration us).1 = .ok ()) :
    (us.slot.funcs 0).isSome := by
  by_contra hno
  rw [pciemStartRegistration, if_pos (Option.isNone_iff_eq_none.mpr
    (Option.not_isSome_iff_eq_none.mp hno))] at h
  cases h

theorem ended_of_ok {result : Except Errno Unit × PciemUserspaceState δ}
    (h : result.1 = .ok ()) :
    ended fd result = (.registered fd, pciemCompleteRegistration result.2) := by
  obtain ⟨r, us⟩ := result
  cases h
  rfl

theorem ended_of_error {result : Except Errno Unit × PciemUserspaceState δ} {e : Errno}
    (h : result.1 = .error e) : ended fd result =
      (.returned (.returned (.error e)), pciemCancelRegistration result.2) := by
  obtain ⟨r, us⟩ := result
  cases h
  rfl

theorem runsAlone_register : RunsAlone (.register svs fd) us := by
  rw [RunsAlone, Ioctl.step, pciemDeviceIoctl]
  dsimp only
  change ∃ q, ioctl.Leads _
    (.ofCheck (pciemStartRegistration us).1, (pciemStartRegistration us).2) _ ∧ _
  obtain ⟨e, hstart⟩ | ⟨hreg, hstart⟩ := startRegistration_cases us
  · rw [registerOutcome, pciemIoctlRegister, andThen_of_error (by rw [hstart]), hstart]
    exact ⟨_, leads_refl _, rfl⟩
  · have houtcome : registerOutcome us svs fd =
        .returned (pciemIoctlRegister svs fd us).1 := by
      obtain ⟨v, hv⟩ := Option.isSome_iff_exists.mp (isSome_of_start (by rw [hstart]))
      rw [registerOutcome, hstart, hv]
      rfl
    have hloop := leads_loop svs fd pciemMaxFunctions 0 (Nat.zero_add _)
      (buildFunctions { us with registered := .registering })
    rw [← registerFunctions_eq] at hloop
    have hall := leads_next (p := ioctl) (c := .register svs fd)
      (m := (.checked, { us with registered := .registering })) rfl hloop
    rw [houtcome, pciemIoctlRegister, andThen_of_ok (by rw [hstart]), hstart]
    dsimp only
    cases hok : (registerFunctions svs { us with registered := .registering }).1 with
    | ok _ =>
      rw [andThen_of_ok (by rw [onError_of_ok hok, hok]), onError_of_ok hok]
      refine ⟨.registered fd, ?_, rfl⟩
      rw [ended_of_ok hok] at hall
      exact hall
    | error e =>
      rw [andThen_of_error (by rw [onError_of_error hok]), onError_of_error hok]
      refine ⟨.returned (.returned (.error e)), ?_, rfl⟩
      rw [ended_of_error hok] at hall
      exact hall

end Register

section Guarded

theorem onRegistered_refused {e : Errno} {argCopied : Bool} {early : Option (Except Errno Unit)}
    {func : ℕ} {next : RootComplex δ → Outcome} (h : pciemCheckRegistered us = .error e) :
    onRegistered us argCopied early func next = .returned (.error e) := by
  unfold onRegistered
  rw [h]

/-- A guarded call that does not find the slot registered does nothing else. -/
theorem refused_of_check {e : Errno} (hguarded : Guarded c)
    (h : pciemCheckRegistered us = .error e) :
    (pciemDeviceIoctl us c).1 = .returned (.error e) := by
  cases c with
  | createDevice | configure | register | setEventfd | traceBar => exact hguarded.elim
  | start rest =>
    rw [pciemDeviceIoctl, pciemIoctlStart, h]
  | setIrqfd rest =>
    rw [pciemDeviceIoctl, pciemIoctlSetIrqfd, h]
  | injectIrq argCopied func rest =>
    rw [pciemDeviceIoctl, pciemIoctlInjectIrq, onRegistered_refused h]
  | dmaAtomic argCopied func opType rest =>
    rw [pciemDeviceIoctl, pciemIoctlDmaAtomic, onRegistered_refused h]
  | dma | p2p | getBarInfo | dmaIndirect => exact onRegistered_refused h

theorem runsAlone_guarded (hguarded : Guarded c) : RunsAlone c us := by
  have hstep : Ioctl.step us c = us := by
    cases c with
    | createDevice | configure | register | setEventfd | traceBar => exact hguarded.elim
    | start | injectIrq | dma | dmaAtomic | p2p | getBarInfo | setIrqfd | dmaIndirect => rfl
  have henter : ioctl.enter c us = (.ofCheck (pciemCheckRegistered us), us) := by
    cases c with
    | createDevice | configure | register | setEventfd | traceBar => exact hguarded.elim
    | start | injectIrq | dma | dmaAtomic | p2p | getBarInfo | setIrqfd | dmaIndirect => rfl
  have hnext : ioctl.next c .checked us =
      (.returned (pciemDeviceIoctl { us with registered := .registered } c).1, us) := by
    cases c with
    | createDevice | configure | register | setEventfd | traceBar => exact hguarded.elim
    | start | injectIrq | dma | dmaAtomic | p2p | getBarInfo | setIrqfd | dmaIndirect => rfl
  rw [RunsAlone, hstep, henter]
  cases hcheck : pciemCheckRegistered us with
  | error e => exact ⟨_, leads_refl _, congrArg some (refused_of_check hguarded hcheck).symm⟩
  | ok _ =>
    refine ⟨_, leads_next hnext (leads_refl _), ?_⟩
    rw [← registered_of_check hcheck]
    rfl

end Guarded

theorem runsAlone (c : Command δ) (us : PciemUserspaceState δ) : RunsAlone c us := by
  cases c with
  | createDevice => exact runsAlone_createDevice
  | configure => exact runsAlone_configure
  | register => exact runsAlone_register
  | setEventfd | traceBar => exact ⟨_, leads_refl _, rfl⟩
  | start | injectIrq | dma | dmaAtomic | p2p | getBarInfo | setIrqfd | dmaIndirect =>
    exact runsAlone_guarded trivial

/-- The calls of an fd, one after the other, are one of the ways in which they run at the same
time: each goes from its beginning to its end in turns of its own. -/
theorem serial_run (cs : List (Command δ)) (us : PciemUserspaceState δ) :
    ∃ as : List (Turn ℕ (Command δ)),
      (as.foldl ioctl.step (Config.initial us)).shared = cs.foldl Ioctl.step us := by
  suffices h : ∀ (n : ℕ) (s : Fd ℕ δ), (∀ j, n ≤ j → s.calls j = none) →
      ∃ as : List (Turn ℕ (Command δ)),
        (as.foldl ioctl.step s).shared = cs.foldl Ioctl.step s.shared from
    h 0 (Config.initial us) fun _ _ ↦ rfl
  induction cs with
  | nil => exact fun _ s _ ↦ ⟨[], rfl⟩
  | cons c cs ih =>
    intro n s hs
    obtain ⟨q, hleads, -⟩ := runsAlone c s.shared
    obtain ⟨m, hrun⟩ := foldl_alone (hs n (Nat.le_refl n)) hleads
    obtain ⟨as, has⟩ := ih (n + 1) (s.move n c (q, Ioctl.step s.shared c)) fun j hj ↦ by
      rw [calls_move_of_ne (by omega)]
      exact hs j (by omega)
    refine ⟨(Turn.enter n c :: List.replicate m (.next n)) ++ as, ?_⟩
    rw [List.foldl_append, hrun]
    exact has

end Pciem.Slot.Serial
