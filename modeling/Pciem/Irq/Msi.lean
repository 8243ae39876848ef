import Pciem.Kernel.Errno
import Pciem.Library.Replay
import Mathlib.Data.Int.Notation
import Mathlib.Tactic.ByContra

namespace Pciem.Irq.Msi

open Library.Replay Kernel

/-- What `pciem_trigger_msi` asks of the PCI core about a device: whether MSI-X is
enabled, `pci_msix_vec_count`, `pci_irq_vector` and `dev->irq`. -/
structure PciDev where
  msixEnabled : Bool
  msixVecCount : ℤ
  irqVector : ℤ → ℤ
  irq : ℤ

/-- The part of a root complex that carries its interrupts. `msiIrqWork` tells
whether the irq work is queued. -/
structure MsiState where
  pciemPdev : Option PciDev
  pendingMsiIrq : ℤ
  msiIrqWork : Bool

def irqWorkQueue (v : MsiState) : MsiState := { v with msiIrqWork := true }

def pciemTriggerMsi (v : MsiState) (vector : ℤ) : Except Errno MsiState :=
  match v.pciemPdev with
  | none => .error .enodev
  | some dev =>
    let irq :=
      if dev.msixEnabled then
        dev.irqVector (if vector < 0 ∨ vector ≥ dev.msixVecCount then 0 else vector)
      else
        dev.irq
    if irq ≤ 0 then
      .error .einval
    else
      .ok (irqWorkQueue { v with pendingMsiIrq := irq })

/-- The interrupt that a run of `pciem_msi_irq_work_func` hands to `generic_handle_irq`. -/
def pciemMsiIrqWorkFunc (v : MsiState) : Option ℤ :=
  if v.pendingMsiIrq ≠ 0 then some v.pendingMsiIrq else none

inductive MsiAction
  | trigger (vector : ℤ)
  | work

/-- `triggered` is a `pciem_trigger_msi` that returned 0. -/
inductive MsiEvent
  | triggered (vector : ℤ)
  | delivered (irq : ℤ)
  deriving DecidableEq

structure MsiRun where
  v : MsiState
  log : List MsiEvent

/-- A failed trigger changes nothing; the irq work runs only while it is queued, and
is taken off the queue before its function is called. -/
def msiStep (s : MsiRun) : MsiAction → MsiRun
  | .trigger vector =>
    match pciemTriggerMsi s.v vector with
    | .ok v => ⟨v, s.log ++ [.triggered vector]⟩
    | .error _ => s
  | .work =>
    if s.v.msiIrqWork then
      ⟨{ s.v with msiIrqWork := false },
        s.log ++ ((pciemMsiIrqWorkFunc s.v).map .delivered).toList⟩
    else
      s

def initial (dev : PciDev) : MsiRun := ⟨⟨some dev, 0, false⟩, []⟩

def InRange (dev : PciDev) (vector : ℤ) : Prop := 0 ≤ vector ∧ vector < dev.msixVecCount

/-- Every vector triggered so far has been delivered after its trigger. -/
def AllDelivered (dev : PciDev) (log : List MsiEvent) : Prop :=
  ∀ pre vector post, log = pre ++ .triggered vector :: post →
    .delivered (dev.irqVector vector) ∈ post

/-- Once the work is no longer queued, no triggered vector is left undelivered. -/
def NoLost (dev : PciDev) (s : MsiRun) : Prop :=
  s.v.msiIrqWork = false → AllDelivered dev s.log

/-- A successful trigger that finds the work still queued asks for the interrupt that
is already pending. -/
def Coalesces (dev : PciDev) (s : MsiRun) : MsiAction → Prop
  | .trigger vector => s.v.msiIrqWork = true → 0 < dev.irqVector vector →
      s.v.pendingMsiIrq = dev.irqVector vector
  | .work => True

instance (dev : PciDev) (s : MsiRun) : (a : MsiAction) → Decidable (Coalesces dev s a)
  | .trigger _ => inferInstanceAs (Decidable (_ → _ → _))
  | .work => inferInstanceAs (Decidable True)

def MsiAction.Valid (dev : PciDev) : MsiAction → Prop
  | .trigger vector => InRange dev vector
  | .work => True

section Steps

variable {dev : PciDev} {s : MsiRun}

theorem msiStep_trigger (hm : dev.msixEnabled = true) (hd : s.v.pciemPdev = some dev)
    {vector : ℤ} (hr : InRange dev vector) :
    msiStep s (.trigger vector) =
      if 0 < dev.irqVector vector then
        ⟨{ s.v with pendingMsiIrq := dev.irqVector vector, msiIrqWork := true },
          s.log ++ [.triggered vector]⟩
      else s := by
  have hclamp : ¬ (vector < 0 ∨ vector ≥ dev.msixVecCount) := by
    rw [InRange] at hr
    omega
  by_cases hp : 0 < dev.irqVector vector
  · simp [msiStep, pciemTriggerMsi, hd, hm, hclamp, hp, Int.not_le.mpr hp, irqWorkQueue]
  · simp [msiStep, pciemTriggerMsi, hd, hm, hclamp, hp, Int.not_lt.mp hp]

theorem msiStep_work_idle (h : s.v.msiIrqWork = false) : msiStep s .work = s := by
  simp [msiStep, h]

theorem msiStep_work (h : s.v.msiIrqWork = true) (hp : 0 < s.v.pendingMsiIrq) :
    msiStep s .work = ⟨{ s.v with msiIrqWork := false },
      s.log ++ [.delivered s.v.pendingMsiIrq]⟩ := by
  have hne : s.v.pendingMsiIrq ≠ 0 := by omega
  simp [msiStep, h, pciemMsiIrqWorkFunc, hne]

end Steps

/-- A vector with interrupt `irq` was triggered, and nothing was delivered since. -/
def Owed (dev : PciDev) (log : List MsiEvent) (irq : ℤ) : Prop :=
  ∃ pre vector post, log = pre ++ .triggered vector :: post ∧ dev.irqVector vector = irq ∧
    ∀ i, .delivered i ∉ post

theorem snoc_eq_append_cons {α : Type*} {l pre post : List α} {a b : α}
    (h : l ++ [b] = pre ++ a :: post) :
    (post = [] ∧ b = a ∧ l = pre) ∨ ∃ post', post = post' ++ [b] ∧ l = pre ++ a :: post' := by
  rcases List.eq_nil_or_concat post with rfl | ⟨post', c, rfl⟩
  · obtain ⟨hl, hb⟩ := List.append_inj' h rfl
    exact .inl ⟨rfl, by simpa using hb, hl⟩
  · rw [List.concat_eq_append, ← List.cons_append, ← List.append_assoc] at h
    obtain ⟨hl, hb⟩ := List.append_inj' h rfl
    have hc : b = c := by simpa using hb
    exact .inr ⟨post', by rw [List.concat_eq_append, hc], hl⟩

theorem Owed.trigger {dev : PciDev} {log : List MsiEvent} {irq : ℤ} (h : Owed dev log irq)
    (vector : ℤ) : Owed dev (log ++ [.triggered vector]) irq := by
  obtain ⟨pre, w, post, rfl, hw, hpost⟩ := h
  refine ⟨pre, w, post ++ [.triggered vector], by simp, hw, fun i ↦ ?_⟩
  simp [hpost i]

theorem owed_last (dev : PciDev) (log : List MsiEvent) (vector : ℤ) :
    Owed dev (log ++ [.triggered vector]) (dev.irqVector vector) :=
  ⟨log, vector, [], rfl, rfl, by simp⟩

/-- While the work is queued, the pending slot holds an interrupt not yet delivered. -/
structure Slot (dev : PciDev) (s : MsiRun) : Prop where
  pdev : s.v.pciemPdev = some dev
  pending : s.v.msiIrqWork = true → 0 < s.v.pendingMsiIrq ∧ Owed dev s.log s.v.pendingMsiIrq

/-- Every triggered vector has been delivered since or is the pending one. -/
def Kept (dev : PciDev) (s : MsiRun) : Prop :=
  ∀ pre vector post, s.log = pre ++ .triggered vector :: post →
    .delivered (dev.irqVector vector) ∈ post ∨
      (s.v.msiIrqWork = true ∧ s.v.pendingMsiIrq = dev.irqVector vector)

section Runs

variable {dev : PciDev} (hm : dev.msixEnabled = true)
include hm

theorem Slot.step {s : MsiRun} (h : Slot dev s) {a : MsiAction} (ha : a.Valid dev) :
    Slot dev (msiStep s a) := by
  cases a with
  | trigger vector =>
    rw [msiStep_trigger hm h.pdev ha]
    split
    · exact ⟨h.pdev, fun _ ↦ ⟨‹_›, owed_last dev s.log vector⟩⟩
    · exact h
  | work =>
    cases hw : s.v.msiIrqWork with
    | true =>
      rw [msiStep_work hw (h.pending hw).1]
      exact ⟨h.pdev, by simp⟩
    | false => exact (msiStep_work_idle hw).symm ▸ h

theorem kept_step {s : MsiRun} (h : Slot dev s) (hk : Kept dev s) {a : MsiAction}
    (ha : a.Valid dev) (hc : Coalesces dev s a) : Kept dev (msiStep s a) := by
  cases a with
  | trigger vector =>
    rw [msiStep_trigger hm h.pdev ha]
    split
    · rename_i hpos
      intro pre w post he
      rcases snoc_eq_append_cons he with ⟨rfl, hw, -⟩ | ⟨post', rfl, he'⟩
      · cases hw
        exact .inr ⟨rfl, rfl⟩
      · rcases hk pre w post' he' with hd | ⟨hq, hp⟩
        · exact .inl (List.mem_append_left _ hd)
        · exact .inr ⟨rfl, (hc hq hpos).symm.trans hp⟩
    · exact hk
  | work =>
    cases hq : s.v.msiIrqWork with
    | true =>
      rw [msiStep_work hq (h.pending hq).1]
      intro pre w post he
      rcases snoc_eq_append_cons he with ⟨rfl, hw, -⟩ | ⟨post', rfl, he'⟩
      · cases hw
      · rcases hk pre w post' he' with hd | ⟨-, hp⟩
        · exact .inl (List.mem_append_left _ hd)
        · exact .inl (by simp [hp])
    | false => exact (msiStep_work_idle hq).symm ▸ hk

/-- Two different interrupts are owed while the work is queued: its next run delivers
one of them only. -/
theorem not_always_noLost_of_owed {x y : ℤ} (hxy : x ≠ y) {as : List MsiAction}
    (hv : ∀ a ∈ as, a.Valid dev) {s : MsiRun} (h : Slot dev s) (hq : s.v.msiIrqWork = true)
    (hx : Owed dev s.log x) (hy : Owed dev s.log y)
    (hend : (as.foldl msiStep s).v.msiIrqWork = false) :
    ¬ Always msiStep (NoLost dev) s as := by
  induction as generalizing s with
  | nil => exact absurd (hq.symm.trans hend) (by simp)
  | cons a as ih =>
    rintro ⟨-, hrest⟩
    have ha : a.Valid dev := hv a List.mem_cons_self
    have hv' : ∀ b ∈ as, b.Valid dev := fun b hb ↦ hv b (List.mem_cons_of_mem a hb)
    have hslot := h.step hm ha
    cases a with
    | trigger vector =>
      have hstep := msiStep_trigger hm h.pdev ha
      rw [List.foldl_cons] at hend
      by_cases hpos : 0 < dev.irqVector vector
      · rw [hstep, if_pos hpos] at hend hslot hrest
        exact ih hv' hslot rfl (hx.trigger vector) (hy.trigger vector) hend hrest
      · rw [hstep, if_neg hpos] at hend hslot hrest
        exact ih hv' hslot hq hx hy hend hrest
    | work =>
      rw [msiStep_work hq (h.pending hq).1] at hrest
      have hdel := hrest.head rfl
      -- The one delivery after both triggers has to be both interrupts at once.
      have hone {z : ℤ} (hz : Owed dev s.log z) : s.v.pendingMsiIrq = z := by
        obtain ⟨pre, w, post, hl, hw, hpost⟩ := hz
        have := hdel pre w (post ++ [.delivered s.v.pendingMsiIrq]) (by simp [hl])
        rcases List.mem_append.mp this with hin | hin
        · exact absurd hin (hpost _)
        · exact (MsiEvent.delivered.inj (List.mem_singleton.mp hin)).symm.trans hw
      exact hxy ((hone hx).symm.trans (hone hy))

omit hm in
theorem kept_noLost {s : MsiRun} (hk : Kept dev s) : NoLost dev s := by
  intro hq pre vector post he
  rcases hk pre vector post he with hd | ⟨hq', -⟩
  · exact hd
  · exact absurd (hq.symm.trans hq') (by simp)

theorem always_noLost {as : List MsiAction} (hv : ∀ a ∈ as, a.Valid dev) {s : MsiRun}
    (h : Slot dev s) (hk : Kept dev s) (hc : Each msiStep (Coalesces dev) s as) :
    Always msiStep (NoLost dev) s as := by
  have hboth := (hc.and_forall hv).always (I := fun s ↦ Slot dev s ∧ Kept dev s)
    (fun s a hs ha ↦ ⟨hs.1.step hm ha.1, kept_step hm hs.1 hs.2 ha.1 ha.2⟩) ⟨h, hk⟩
  exact hboth.mono fun s hs ↦ kept_noLost hs.2

theorem each_coalesces {as : List MsiAction} (hv : ∀ a ∈ as, a.Valid dev) {s : MsiRun}
    (h : Slot dev s) (hend : (as.foldl msiStep s).v.msiIrqWork = false)
    (hall : Always msiStep (NoLost dev) s as) : Each msiStep (Coalesces dev) s as := by
  induction as generalizing s with
  | nil => trivial
  | cons a as ih =>
    have ha : a.Valid dev := hv a List.mem_cons_self
    have hv' : ∀ b ∈ as, b.Valid dev := fun b hb ↦ hv b (List.mem_cons_of_mem a hb)
    refine ⟨?_, ih hv' (h.step hm ha) hend hall.2⟩
    cases a with
    | work => trivial
    | trigger vector =>
      intro hq hpos
      by_contra hne
      have hstep := msiStep_trigger hm h.pdev ha
      have hslot := h.step hm ha
      rw [if_pos hpos] at hstep
      refine not_always_noLost_of_owed hm hne hv' hslot (by rw [hstep]) ?_ ?_ hend hall.2
      · rw [hstep]
        exact (h.pending hq).2.trigger vector
      · rw [hstep]
        exact owed_last dev s.log vector

end Runs

theorem slot_initial (dev : PciDev) : Slot dev (initial dev) := ⟨rfl, by simp [initial]⟩

theorem kept_initial (dev : PciDev) : Kept dev (initial dev) := by
  intro pre vector post he
  simp [initial] at he

/-- For a function with MSI-X enabled and any interleaving of in-range triggers and
runs of the irq work: if every successful trigger that finds the work queued asks for
the pending interrupt, then in every state reached in which the work is not queued
every triggered vector has been delivered since; and over a run at whose end the work
is not queued, only such runs lose nothing. -/
theorem no_lost_interrupt_iff {dev : PciDev} (hm : dev.msixEnabled = true) {as : List MsiAction}
    (hv : ∀ a ∈ as, a.Valid dev) :
    (Each msiStep (Coalesces dev) (initial dev) as →
      Always msiStep (NoLost dev) (initial dev) as) ∧
    ((as.foldl msiStep (initial dev)).v.msiIrqWork = false →
      (Always msiStep (NoLost dev) (initial dev) as ↔
        Each msiStep (Coalesces dev) (initial dev) as)) := by
  have hs := slot_initial dev
  have hk := kept_initial dev
  exact ⟨always_noLost hm hv hs hk, fun hend ↦
    ⟨each_coalesces hm hv hs hend, always_noLost hm hv hs hk⟩⟩

def twoVectors : PciDev := ⟨true, 2, fun vector ↦ vector + 32, 0⟩

theorem no_lost_interrupt_iff_two_vectors :
    Always msiStep (NoLost twoVectors) (initial twoVectors)
      [.trigger 0, .work, .trigger 1, .trigger 1, .work] := by
  have hm : twoVectors.msixEnabled = true := rfl
  refine (no_lost_interrupt_iff hm ?_).1 ?_
  · simp [MsiAction.Valid, InRange, twoVectors]
  · exact ⟨by decide, trivial, by decide, by decide, trivial, trivial⟩

/-- Vectors 0 and 1 are triggered before the work runs: the work is not queued any
more, and vector 0 was never delivered. -/
theorem second_trigger_overwrites : ¬ ∀ as : List MsiAction, (∀ a ∈ as, a.Valid twoVectors) →
    Always msiStep (NoLost twoVectors) (initial twoVectors) as := by
  intro h
  have hall := h [.trigger 0, .trigger 1, .work] (by simp [MsiAction.Valid, InRange, twoVectors])
  have hlost := hall.2.2.2 rfl [] 0 [.triggered 1, .delivered 33] rfl
  exact absurd hlost (by decide)

end Pciem.Irq.Msi
