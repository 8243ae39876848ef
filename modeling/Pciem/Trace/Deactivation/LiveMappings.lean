import Pciem.Trace.Deactivation.Invariant

namespace Pciem.Trace.Deactivation.LiveMappings

open Library.Replay Context Invariant

section Lost

variable {s : Machine} {m : Mapping} {va : BitVec 64} {block : BitVec 64 → Bool}

/-- The address tells whether an entry of the mapping is lost once it has been cleared. -/
def Follows (block : BitVec 64 → Bool) (m : Mapping) : Prop :=
  ∀ va ∈ m.ptes, va ∈ m.lost ↔ block va = true

structure Levels (block : BitVec 64 → Bool) (s : Machine) : Prop where
  live : ∀ m ∈ s.live, Follows block m
  gone : ∀ va, s.gone va = true → block va = true

theorem Levels.of_live (h : Levels block s) {s' : Machine} (hlive : ∀ m ∈ s'.live, m ∈ s.live)
    (hgone : s'.gone = s.gone) : Levels block s' :=
  ⟨fun m hm ↦ h.live m (hlive m hm), fun va hva ↦ h.gone va (hgone ▸ hva)⟩

theorem Levels.clear (h : Levels block s) (hm : m ∈ s.live) (poison : Bool) :
    Levels block (s.clear m poison) := by
  refine ⟨h.live, fun va hgone ↦ ?_⟩
  by_cases hva : va ∈ m.ptes
  · refine (h.live m hm va hva).mp (of_decide_eq_true ?_)
    exact (clear_of_mem s poison hva).1.symm.trans hgone
  · exact h.gone va ((clear_of_notMem s poison hva).1.symm.trans hgone)

theorem Levels.unmap (h : Levels block s) (hm : m ∈ s.live) : Levels block (s.unmap m) :=
  (h.clear hm false).of_live (fun _ hm' ↦ List.mem_of_mem_erase hm') rfl

theorem deactivate_frame (s : Machine) : s.smptraceDeactivate.live = s.live ∧
    s.smptraceDeactivate.gone = s.gone ∧ s.smptraceDeactivate.made = s.made := by
  rw [Machine.smptraceDeactivate]
  split
  · exact ⟨rfl, rfl, rfl⟩
  · split_ifs
    · exact ⟨rfl, rfl, rfl⟩
    · exact ⟨rfl, rfl, rfl⟩
  · split
    · exact ⟨rfl, rfl, rfl⟩
    · exact ⟨rfl, rfl, rfl⟩
  · exact ⟨rfl, rfl, rfl⟩
  · rename_i m va todo hstage
    obtain ⟨hlive, -, -, -, -, hmade, hgone⟩ := restorePte_frame s m va
    exact ⟨hlive, hgone, hmade⟩
  · exact ⟨rfl, rfl, rfl⟩

/-- An entry is still to be restored of a mapping that is dead, and it will be found. -/
def Lost (block : BitVec 64 → Bool) (s : Machine) : Prop :=
  (∃ current, s.stage = .restoring current) ∧
    ∃ m va, (m, va) ∈ s.toRestore ∧ m.id < s.made ∧ m ∉ s.live ∧ block va = false

theorem not_good_of_stray (hdead : m ∉ s.live) (hgone : s.gone va = false) {s' : Machine}
    (hwrites : s'.writes = (s.restorePte m va).writes) : ¬ Good s' := by
  intro hgood
  have hstray := hgood.writes (va, decide (m ∈ s.live ∧ va ∈ m.ptes)) (by
    rw [hwrites, restorePte_of_found hgone]
    exact List.mem_cons_self)
  exact hdead (of_decide_eq_true hstray).1

theorem Lost.deactivate (h : Lost block s) (hlevels : Levels block s)
    (hgood : Good s.smptraceDeactivate) : Lost block s.smptraceDeactivate := by
  obtain ⟨⟨current, hcurrent⟩, m, va, hva, hid, hdead, hblock⟩ := h
  have hframe := deactivate_frame s
  rw [Machine.smptraceDeactivate, hcurrent] at hgood hframe ⊢
  cases current with
  | none =>
    have hrestore : s.toRestore = s.maps.flatMap fun m ↦ m.ptes.map (m, ·) :=
      toRestore_of_quiet fun m todo hno ↦ by cases hcurrent.symm.trans hno
    rw [hrestore] at hva
    cases hmaps : s.maps with
    | nil =>
      rw [hmaps] at hva
      cases hva
    | cons m' maps =>
      rw [hmaps] at hva
      exact ⟨⟨_, rfl⟩, m, va, hva, hid, hdead, hblock⟩
  | some current =>
    obtain ⟨m', todo⟩ := current
    rw [toRestore_of_current hcurrent] at hva
    cases todo with
    | nil => exact ⟨⟨_, rfl⟩, m, va, hva, hid, hdead, hblock⟩
    | cons va' todo =>
      rcases List.mem_cons.mp hva with heq | htail
      · cases heq
        have hgone : s.gone va = false := by
          by_contra hno
          cases hblock.symm.trans (hlevels.gone va (by simpa using hno))
        exact absurd hgood (not_good_of_stray hdead hgone rfl)
      · obtain ⟨hlive, -, hmade⟩ := hframe
        refine ⟨⟨_, rfl⟩, m, va, ?_, hmade.symm ▸ hid, hlive.symm ▸ hdead, hblock⟩
        obtain ⟨-, hmaps', -⟩ := restorePte_frame s m' va'
        rw [Machine.toRestore]
        dsimp only
        rw [hmaps']
        exact htail

end Lost

section Run

variable {ctx : SmptraceCtx} {s : Machine} {actions : List Action} {block : BitVec 64 → Bool}

end Run

end Pciem.Trace.Deactivation.LiveMappings
