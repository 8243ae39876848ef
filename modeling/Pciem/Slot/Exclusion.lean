import Pciem.Slot.Concurrent

namespace Pciem.Slot.Exclusion

open Kernel Library.Unwinding Library.Interleaving Library.Replay Register Ioctl Concurrent
open State hiding PciemRootComplex
open Attach.Hijack (PciOps)
open Dma.Indirect (Registration)

variable {ι δ : Type} {us : PciemUserspaceState δ} {c : Command δ} {before : Option Point}

section Word

theorem registered_onFunc (k : ℕ) (x : FunctionCall δ) (us : PciemUserspaceState δ) :
    (onFunc k x us).2.registered = us.registered := by
  rw [onFunc]
  split
  · rfl
  · rfl

theorem registered_attachFunc (sv : Services) (k : ℕ) (us : PciemUserspaceState δ) :
    (attachFunc sv k us).2.registered = us.registered := by
  rw [attachFunc]
  split
  · rfl
  · rfl

theorem registered_initFunction (svs : ℕ → Services) (f : ℕ) (us : PciemUserspaceState δ) :
    (initFunction svs f us).2.registered = us.registered := by
  rw [initFunction]
  split_ifs with hf
  · exact registered_onFunc 0 _ us
  · rw [registerOther]
    cases hok : (onFunc f (pciemCompleteInit (svs f) f) us).1 with
    | ok _ =>
      rw [andThen_of_ok hok, registered_attachFunc]
      exact registered_onFunc f _ us
    | error e =>
      rw [andThen_of_error hok]
      exact registered_onFunc f _ us

theorem registered_configureChecked (us : PciemUserspaceState δ) (argCopied : Bool)
    (func : BitVec 8) (call : Device.Setup.Call) :
    (configureChecked us argCopied func call).2.registered = us.registered := by
  rw [configureChecked]
  split_ifs
  · rfl
  · split
    · rfl
    · split
      · rfl
      · rfl

theorem registered_createNext (req : PciemCreateDevice) (memory : Option δ) (capMgr : Bool)
    (q : Point) (us : PciemUserspaceState δ) :
    (createNext req memory capMgr q us).2.registered = us.registered := by
  unfold createNext
  split <;> rfl

end Word

/-- What the steps of a REGISTER do to the state of the registration. -/
inductive Registers (x : Registration) : Option Point → Point × Registration → Prop
  | refused (o : Outcome) : Registers x none (.returned o, x)
  | start : x = .unregistered → Registers x none (.checked, .registering)
  | build : Registers x (some .checked) (.turn 0, x)
  | init (f : ℕ) : Registers x (some (.turn f)) (.turn (f + 1), x)
  | fail (f : ℕ) (e : Errno) : Registers x (some (.turn f)) (.failed e, x)
  | complete (f : ℕ) : Registers x (some (.turn f)) (.completed, .registered)
  | cancel (e : Errno) (o : Outcome) : Registers x (some (.failed e)) (.returned o, .unregistered)
  | instanceFd (fd : Except Errno Unit) : Registers x (some .completed) (.registered fd, x)
  | stay (q : Point) : Registers x (some q) (q, x)

theorem startRegistration_cases (us : PciemUserspaceState δ) :
    (∃ e, pciemStartRegistration us = (.error e, us)) ∨ us.registered = .unregistered ∧
      pciemStartRegistration us = (.ok (), { us with registered := .registering }) := by
  rw [pciemStartRegistration]
  split_ifs
  · exact .inl ⟨_, rfl⟩
  · split
    · exact .inr ⟨‹_›, rfl⟩
    · exact .inl ⟨_, rfl⟩
    · exact .inl ⟨_, rfl⟩

theorem registers_run (svs : ℕ → Services) (fd : Except Errno Unit) (before : Option Point)
    (us : PciemUserspaceState δ) : Registers us.registered before
      ((ioctl.run (.register svs fd) before us).1,
        (ioctl.run (.register svs fd) before us).2.registered) := by
  cases before with
  | none =>
    change Registers us.registered none
      (.ofCheck (pciemStartRegistration us).1, (pciemStartRegistration us).2.registered)
    obtain ⟨e, heq⟩ | ⟨hreg, heq⟩ := startRegistration_cases us
    · rw [heq]
      exact .refused _
    · rw [heq]
      exact .start hreg
  | some q =>
    change Registers us.registered (some q)
      ((registerNext svs fd q us).1, (registerNext svs fd q us).2.registered)
    cases q with
    | checked => exact .build
    | turn f =>
      rw [registerNext]
      split_ifs
      · have hreg := registered_initFunction svs f us
        generalize initFunction svs f us = result at hreg ⊢
        obtain ⟨r, us'⟩ := result
        change us'.registered = us.registered at hreg
        cases r with
        | ok _ =>
          dsimp only
          rw [hreg]
          exact .init f
        | error e =>
          dsimp only
          rw [hreg]
          exact .fail f e
      · exact .complete f
    | failed e => exact .cancel e _
    | completed => exact .instanceFd fd
    | allocated mode => exact .stay _
    | registered r => exact .stay _
    | returned o => exact .stay _

/-- The call is a REGISTER. -/
def IsRegister (c : Command δ) : Prop := ∃ svs fd, c = .register svs fd

theorem not_registering (h : ¬ IsRegister c) (q : Point) : ¬ Registering c q := by
  intro hq
  unfold Registering at hq
  split at hq
  · exact h ⟨_, _, rfl⟩
  · exact h ⟨_, _, rfl⟩
  · exact h ⟨_, _, rfl⟩
  · exact hq

theorem not_completed (h : ¬ IsRegister c) (q : Point) : ¬ Completed c q := by
  intro hq
  unfold Completed at hq
  split at hq
  · exact h ⟨_, _, rfl⟩
  · exact h ⟨_, _, rfl⟩
  · exact hq

theorem registered_run (h : ¬ IsRegister c) (before : Option Point)
    (us : PciemUserspaceState δ) : (ioctl.run c before us).2.registered = us.registered := by
  cases before with
  | none =>
    cases c with
    | register svs fd => exact absurd ⟨svs, fd, rfl⟩ h
    | _ => rfl
  | some q =>
    cases c with
    | register svs fd => exact absurd ⟨svs, fd, rfl⟩ h
    | createDevice argCopied req memory capMgr =>
      exact registered_createNext req memory capMgr q us
    | configure argCopied func call =>
      cases q with
      | checked => exact registered_configureChecked us argCopied func call
      | _ => rfl
    | setEventfd | traceBar => rfl
    | start | injectIrq | dma | dmaAtomic | p2p | getBarInfo | setIrqfd | dmaIndirect =>
      cases q <;> rfl

section Tokens

/-- The state REGISTERING is the token of the REGISTER that is under way. -/
theorem respects_registering (c : Command δ) (before : Option Point)
    (us : PciemUserspaceState δ) :
    Respects (fun us ↦ us.registered = .registering) Registering c before us
      (ioctl.run c before us) := by
  by_cases hregister : IsRegister c
  · obtain ⟨svs, fd, rfl⟩ := hregister
    have hword := registers_run svs fd before us
    generalize ioctl.run (.register svs fd) before us = m at hword ⊢
    obtain ⟨q', us'⟩ := m
    change Registers us.registered before (q', us'.registered) at hword
    generalize hx' : us'.registered = x' at hword
    cases hword with
    | refused => exact .apart id id (by rw [hx'])
    | start hreg => exact .acquire id trivial (by rw [hreg]; nofun) hx'
    | build => exact .keep trivial trivial fun h ↦ hx'.trans h
    | init => exact .keep trivial trivial fun h ↦ hx'.trans h
    | fail => exact .keep trivial trivial fun h ↦ hx'.trans h
    | complete => exact .release trivial id (by rw [hx']; nofun)
    | cancel => exact .release trivial id (by rw [hx']; nofun)
    | instanceFd => exact .apart id id (by rw [hx'])
    | stay =>
      by_cases hq : Registering (.register svs fd : Command δ) q'
      · exact .keep hq hq fun h ↦ hx'.trans h
      · exact .apart hq hq (by rw [hx'])
  · have hword := registered_run hregister before us
    refine .apart ?_ (not_registering hregister _) (by rw [hword])
    cases before with
    | none => exact id
    | some q => exact not_registering hregister q

/-- The state REGISTERED is the token of the REGISTER that has completed, which keeps it. -/
theorem respects_completed (h : Held Registering c before → us.registered = .registering) :
    Respects (fun us ↦ us.registered = .registered) Completed c before us
      (ioctl.run c before us) := by
  by_cases hregister : IsRegister c
  · obtain ⟨svs, fd, rfl⟩ := hregister
    have hword := registers_run svs fd before us
    generalize ioctl.run (.register svs fd) before us = m at hword ⊢
    obtain ⟨q', us'⟩ := m
    change Registers us.registered before (q', us'.registered) at hword
    generalize hx' : us'.registered = x' at hword
    cases hword with
    | refused => exact .apart id id (by rw [hx'])
    | start hreg => exact .apart id id (by rw [hx', hreg]; decide)
    | build => exact .apart id id (by rw [hx'])
    | init => exact .apart id id (by rw [hx'])
    | fail => exact .apart id id (by rw [hx'])
    | complete => exact .acquire id trivial (by rw [h trivial]; nofun) hx'
    | cancel => exact .apart id id (by rw [hx', h trivial]; decide)
    | instanceFd => exact .keep trivial trivial fun hreg ↦ hx'.trans hreg
    | stay =>
      by_cases hq : Completed (.register svs fd : Command δ) q'
      · exact .keep hq hq fun hreg ↦ hx'.trans hreg
      · exact .apart hq hq (by rw [hx'])
  · have hword := registered_run hregister before us
    refine .apart ?_ (not_completed hregister _) (by rw [hword])
    cases before with
    | none => exact id
    | some q => exact not_completed hregister q

theorem registered_stays (h : Held Registering c before → us.registered = .registering)
    (hreg : us.registered = .registered) : (ioctl.run c before us).2.registered = .registered := by
  by_cases hregister : IsRegister c
  · obtain ⟨svs, fd, rfl⟩ := hregister
    have hword := registers_run svs fd before us
    generalize ioctl.run (.register svs fd) before us = m at hword ⊢
    obtain ⟨q', us'⟩ := m
    change Registers us.registered before (q', us'.registered) at hword
    change us'.registered = .registered
    generalize us'.registered = x' at hword
    cases hword with
    | start hno => exact absurd (hno.symm.trans hreg) nofun
    | cancel => exact absurd ((h trivial).symm.trans hreg) nofun
    | complete => rfl
    | refused | build | init | fail | instanceFd | stay => exact hreg
  · exact (registered_run hregister before us).trans hreg

end Tokens

/-- A guarded call has got through `pciem_check_registered`. -/
def Passed (c : Command δ) (q : Point) : Prop := Guarded c ∧ q = .checked

section Run

variable [DecidableEq ι] {s : Fd ι δ}

theorem registered_of_check (h : pciemCheckRegistered us = .ok ()) :
    us.registered = .registered := by
  unfold pciemCheckRegistered at h
  split_ifs at h
  split at h
  · cases h
  · cases h
  · assumption

theorem passed_run (hpassed : Passed c (ioctl.run c before us).1)
    (hbefore : ∀ q, before = some q → Passed c q → us.registered = .registered) :
    us.registered = .registered := by
  obtain ⟨hguarded, hq⟩ := hpassed
  have hcheck (hok : Point.ofCheck (pciemCheckRegistered us) = .checked) :
      us.registered = .registered := by
    cases hcheck : pciemCheckRegistered us with
    | ok _ => exact registered_of_check hcheck
    | error e =>
      rw [hcheck] at hok
      cases hok
  cases before with
  | none =>
    cases c with
    | createDevice | configure | register | setEventfd | traceBar => exact hguarded.elim
    | start | injectIrq | dma | dmaAtomic | p2p | getBarInfo | setIrqfd | dmaIndirect =>
      exact hcheck hq
  | some q =>
    refine hbefore q rfl ⟨hguarded, ?_⟩
    cases c with
    | createDevice | configure | register | setEventfd | traceBar => exact hguarded.elim
    | start | injectIrq | dma | dmaAtomic | p2p | getBarInfo | setIrqfd | dmaIndirect =>
      cases q with
      | checked => cases hq
      | _ => exact hq

/-- The state of the registration says where the calls of REGISTER are. -/
structure Inv (s : Fd ι δ) : Prop where
  registering : Exclusive (fun us ↦ us.registered = .registering) Registering s
  registered : Exclusive (fun us ↦ us.registered = .registered) Completed s
  passed : Asserts (fun c q us ↦ Passed c q → us.registered = .registered) s

omit [DecidableEq ι] in
theorem inv_initial (h : us.registered = .unregistered) : Inv (Config.initial us : Fd ι δ) :=
  ⟨exclusive_initial (by rw [h]; nofun), exclusive_initial (by rw [h]; nofun),
    asserts_initial us⟩

theorem inv_step (h : Inv s) (a : Turn ι (Command δ)) : Inv (ioctl.step s a) := by
  obtain heq | ⟨i, c, before, -, hi, heq⟩ := step_cases ioctl s a
  · rw [heq]
    exact h
  · have hheld (hbefore : Held Registering c before) : s.shared.registered = .registering :=
      h.registering.taken.mpr ⟨i, (at_iff_held hi).mpr hbefore⟩
    rw [heq]
    refine ⟨h.registering.move hi (respects_registering c before s.shared),
      h.registered.move hi (respects_completed hheld),
      h.passed.move (fun hpassed ↦ registered_stays hheld (passed_run hpassed ?_)) ?_⟩
    · rintro q rfl hq
      exact h.passed i c q hi hq
    · exact fun j c' q _ _ hreg hq ↦ registered_stays hheld (hreg hq)

theorem registered_of_run (h : Inv s) (hreg : s.shared.registered = .registered)
    (as : List (Turn ι (Command δ))) :
    (as.foldl ioctl.step s).shared.registered = .registered := by
  induction as generalizing s with
  | nil => exact hreg
  | cons a as ih =>
    refine ih (inv_step h a) ?_
    obtain heq | ⟨i, c, before, -, hi, heq⟩ := step_cases ioctl s a
    · rw [heq]
      exact hreg
    · rw [heq]
      exact registered_stays
        (fun hbefore ↦ h.registering.taken.mpr ⟨i, (at_iff_held hi).mpr hbefore⟩) hreg

end Run

/-- Registration is exclusive and final. A call that has returned 0 from REGISTER has completed. -/
structure RegistersOnce [DecidableEq ι] (s : Fd ι δ) : Prop where
  one : ∀ i j, s.At Registering i → s.At Registering j → i = j
  registering : s.shared.registered = .registering ↔ ∃ i, s.At Registering i
  final : s.shared.registered = .registered → ∀ as : List (Turn ι (Command δ)),
    (as.foldl ioctl.step s).shared.registered = .registered
  second : ∀ i j, s.At Completed i → s.At Completed j → i = j
  guarded : ∀ i, s.At Passed i → ∃ j, s.At Completed j

/-- In every interleaving of the calls on a newly opened fd. -/
theorem registration_exclusive [DecidableEq ι] (ops : PciOps δ) (hostDevices : ℕ → Bool)
    (pool : State.PciemMempool) (as : List (Turn ι (Command δ))) :
    Always ioctl.step RegistersOnce (Config.initial (opened ops hostDevices pool) : Fd ι δ) as := by
  have hinv : Always ioctl.step Inv (Config.initial (opened ops hostDevices pool) : Fd ι δ) as :=
    always_of_kept (I := Inv) (fun _ a h ↦ inv_step h a) (inv_initial rfl) as
  refine hinv.mono fun s h ↦ ⟨h.registering.one, h.registering.taken,
    fun hreg as ↦ registered_of_run h hreg as, h.registered.one, ?_⟩
  rintro i ⟨c, q, hq, hpassed⟩
  exact h.registered.taken.mp (h.passed i c q hq hpassed)

end Pciem.Slot.Exclusion
