import Pciem.Trace.Deactivation

namespace Pciem.Trace.Deactivation.Invariant

open Library.KeyedList Context

section Step

/-- The mappings have different addresses, and no entry in common. -/
def Apart (m m' : Mapping) : Prop := m.va ≠ m'.va ∧ ∀ va ∈ m'.ptes, va ∉ m.ptes

instance decidableApart (m m' : Mapping) : Decidable (Apart m m') :=
  inferInstanceAs (Decidable (_ ∧ _))

instance symmApart : Std.Symm Apart := ⟨fun _ _ h ↦ ⟨h.1.symm, fun va hva hva' ↦ h.2 va hva' hva⟩⟩

/-- Somebody is still to restore the entry. -/
def Pending (s : Machine) (m : Mapping) (va : BitVec 64) : Prop :=
  (m, va) ∈ s.toRestore ∨ ∃ todo, s.call m = .hook m todo ∧ va ∈ todo

structure Inv (s : Machine) : Prop where
  apart : s.live.Pairwise Apart
  nodup : s.maps.Nodup
  maps : ∀ m ∈ s.maps, m.id < s.made ∧ s.call m ≠ .ioremap ∧
    (s.Hooked → m ∈ s.live ∧ s.call m = .none)
  hook : ∀ m found todo, s.call m = .hook found todo →
    s.Hooked ∧ found = m ∧ m ∈ s.live ∧ ∀ va ∈ todo, va ∈ m.ptes
  ioremap : ∀ m, s.call m = .ioremap → m.id < s.made
  current : ∀ m todo, s.stage = .restoring (some (m, todo)) →
    m.id < s.made ∧ ∀ va ∈ todo, va ∈ m.ptes
  dead : ∀ m va, (m, va) ∈ s.toRestore → m ∉ s.live →
    s.gone va = true ∨ ∃ m' ∈ s.live, va ∈ m'.ptes
  shared : ∀ m va, (m, va) ∈ s.toRestore → ∀ m' ∈ s.live, va ∈ m'.ptes → m' ∈ s.recorded → m' = m
  pending : ∀ m ∈ s.live, ∀ va ∈ m.ptes, s.poisoned va = true →
    Pending s m va ∨ m ∈ s.recorded ∧ va ∈ m.lost
  gone : ∀ m ∈ s.live, ∀ va ∈ m.ptes, s.gone va = true → m ∈ s.recorded ∧ va ∈ m.lost
  lost : ∀ m ∈ s.live, m ∈ s.recorded → ∀ va ∈ m.ptes, va ∈ m.lost →
    s.gone va = true ∧ s.poisoned va = true
  recorded : ∀ m ∈ s.recorded, m.id < s.made
  writes : ∀ write ∈ s.writes, write.2 = true
  done : s.stage = .done → s.maps = [] ∧
    ∀ m ∈ s.live, m ∈ s.recorded → ∀ va ∈ m.ptes, va ∉ m.lost

variable {s : Machine} {m m' : Mapping} {va : BitVec 64} {todo : List (BitVec 64)}

theorem mem_toRestore : (m, va) ∈ s.toRestore ↔
    (∃ todo, s.stage = .restoring (some (m, todo)) ∧ va ∈ todo) ∨ m ∈ s.maps ∧ va ∈ m.ptes := by
  have hmaps : ((m, va) ∈ s.maps.flatMap fun m ↦ m.ptes.map (m, ·)) ↔
      m ∈ s.maps ∧ va ∈ m.ptes := by
    simp [List.mem_flatMap]
  rw [Machine.toRestore]
  split
  · rename_i m' todo hstage
    rw [List.mem_append, hmaps, hstage]
    refine or_congr_left ?_
    constructor
    · intro hmem
      obtain ⟨va', hva', heq⟩ := List.mem_map.mp hmem
      cases heq
      exact ⟨todo, rfl, hva'⟩
    · rintro ⟨todo', heq, hva⟩
      cases heq
      exact List.mem_map.mpr ⟨va, hva, rfl⟩
  · rename_i hstage
    rw [hmaps, or_iff_right]
    rintro ⟨todo, heq, -⟩
    exact hstage m todo heq

theorem toRestore_of_stage {s' : Machine} (hstage : s'.stage = s.stage) (hmaps : s'.maps = s.maps) :
    s'.toRestore = s.toRestore := by
  rw [Machine.toRestore, Machine.toRestore, hstage, hmaps]

theorem Inv.start {live : List Mapping} (h : live.Pairwise Apart) (made : ℕ) :
    Inv (Machine.start live made) where
  apart := h
  nodup := List.nodup_nil
  maps := List.forall_mem_nil _
  hook m found todo hcall := by cases hcall
  ioremap m hcall := by cases hcall
  current m todo hstage := by cases hstage
  dead m va hva := by cases hva
  shared m va hva := by cases hva
  pending m hm va hva hpoisoned := by cases hpoisoned
  gone m hm va hva hgone := by cases hgone
  lost m hm hrecorded := by cases hrecorded
  recorded := List.forall_mem_nil _
  writes := List.forall_mem_nil _
  done hstage := by cases hstage

theorem not_hooked_of_done (hstage : s.stage = .done) : ¬ s.Hooked := by
  rw [Machine.Hooked, hstage]
  rintro (hno | hno)
  · cases hno
  · cases hno

theorem not_hooked_of_restoring {current : Option (Mapping × List (BitVec 64))}
    (hstage : s.stage = .restoring current) : ¬ s.Hooked := by
  rw [Machine.Hooked, hstage]
  rintro (hno | hno)
  · cases hno
  · cases hno

theorem Inv.nodup_live (h : Inv s) : s.live.Nodup := by
  refine h.apart.imp fun hapart heq ↦ hapart.1 ?_
  rw [heq]

theorem Inv.apart_of_ne (h : Inv s) (hm : m ∈ s.live) (hm' : m' ∈ s.live) (hne : m ≠ m') :
    Apart m m' :=
  h.apart.forall hm hm' hne

theorem Inv.eq_of_va (h : Inv s) (hm : m ∈ s.live) (hm' : m' ∈ s.live) (hva : m.va = m'.va) :
    m = m' := by
  by_contra hne
  exact (h.apart_of_ne hm hm' hne).1 hva

theorem Inv.eq_of_entry (h : Inv s) (hm : m ∈ s.live) (hm' : m' ∈ s.live) (hva : va ∈ m.ptes)
    (hva' : va ∈ m'.ptes) : m = m' := by
  by_contra hne
  exact (h.apart_of_ne hm hm' hne).2 va hva' hva

theorem Inv.mem_erase (h : Inv s) : m' ∈ s.live.erase m ↔ m' ≠ m ∧ m' ∈ s.live :=
  h.nodup_live.mem_erase_iff

/-- As long as the hook is there, it is live mappings that are to be restored. -/
theorem Inv.live_of_toRestore (h : Inv s) (hhooked : s.Hooked) (hva : (m, va) ∈ s.toRestore) :
    m ∈ s.maps ∧ m ∈ s.live ∧ va ∈ m.ptes := by
  rcases mem_toRestore.mp hva with ⟨todo, hstage, -⟩ | ⟨hmem, hva⟩
  · exact absurd hhooked (not_hooked_of_restoring hstage)
  · exact ⟨hmem, ((h.maps m hmem).2.2 hhooked).1, hva⟩

theorem Inv.ptes_of_toRestore (h : Inv s) (hva : (m, va) ∈ s.toRestore) : va ∈ m.ptes := by
  rcases mem_toRestore.mp hva with ⟨todo, hstage, hmem⟩ | ⟨-, hmem⟩
  · exact (h.current m todo hstage).2 va hmem
  · exact hmem

section Entries

theorem clear_of_mem (s : Machine) (poison : Bool) (hva : va ∈ m.ptes) :
    (s.clear m poison).gone va = decide (va ∈ m.lost) ∧ (s.clear m poison).poisoned va = poison :=
  ⟨if_pos hva, if_pos hva⟩

theorem clear_of_notMem (s : Machine) (poison : Bool) (hva : va ∉ m.ptes) :
    (s.clear m poison).gone va = s.gone va ∧ (s.clear m poison).poisoned va = s.poisoned va :=
  ⟨if_neg hva, if_neg hva⟩

theorem map_of_mem (s : Machine) (hva : va ∈ m.ptes) :
    (s.map m).gone va = false ∧ (s.map m).poisoned va = false :=
  ⟨if_pos hva, if_pos hva⟩

theorem map_of_notMem (s : Machine) (hva : va ∉ m.ptes) :
    (s.map m).gone va = s.gone va ∧ (s.map m).poisoned va = s.poisoned va :=
  ⟨if_neg hva, if_neg hva⟩

theorem restorePte_of_gone (hgone : s.gone va = true) : s.restorePte m va = s := if_pos hgone

theorem restorePte_of_found (hgone : s.gone va = false) : s.restorePte m va = { s with
    poisoned := Function.update s.poisoned va false
    writes := (va, decide (m ∈ s.live ∧ va ∈ m.ptes)) :: s.writes } :=
  if_neg (by rw [hgone]; exact Bool.false_ne_true)

end Entries

theorem Inv.restorePte (h : Inv s) (hva : va ∈ m.ptes) (hm : m ∉ s.live → s.gone va = true) :
    Inv (s.restorePte m va) := by
  cases hgone : s.gone va with
  | true =>
    rw [restorePte_of_gone hgone]
    exact h
  | false =>
    have hlive : m ∈ s.live := by
      by_contra hno
      cases hgone.symm.trans (hm hno)
    rw [restorePte_of_found hgone]
    refine { h with pending := ?_, lost := ?_, writes := ?_ }
    · intro m' hm' va' hva' hpoisoned
      by_cases heq : va' = va
      · subst heq
        cases (Function.update_self _ _ _).symm.trans hpoisoned
      · exact h.pending m' hm' va' hva' ((Function.update_of_ne heq _ _).symm.trans hpoisoned)
    · intro m' hm' hrecorded va' hva' hlost
      obtain ⟨hgone', hpoisoned⟩ := h.lost m' hm' hrecorded va' hva' hlost
      refine ⟨hgone', (Function.update_of_ne ?_ _ _).trans hpoisoned⟩
      rintro rfl
      cases hgone.symm.trans hgone'
    · exact List.forall_mem_cons.mpr ⟨decide_eq_true ⟨hlive, hva⟩, h.writes⟩

/-- A mapping is taken down, and what is still to be restored of it cannot be found any more. -/
theorem Inv.unmap (h : Inv s) (hm : m ∈ s.live) (hmaps : s.Hooked → m ∉ s.maps)
    (hlost : ∀ m' va, (m', va) ∈ s.toRestore → va ∈ m.ptes → va ∈ m.lost)
    (hcall : (s.call m).InHook = false) : Inv (s.unmap m) := by
  have hlive : ∀ {m'}, m' ∈ s.live.erase m → m' ∈ s.live := fun hm' ↦ (h.mem_erase.mp hm').2
  have hapart : ∀ {m'}, m' ∈ s.live.erase m → ∀ {va}, va ∈ m'.ptes → va ∉ m.ptes :=
    fun hm' va hva hva' ↦ (h.mem_erase.mp hm').1 (h.eq_of_entry (hlive hm') hm hva hva')
  exact { h with
    apart := h.apart.sublist List.erase_sublist
    maps := by
      intro m' hm'
      obtain ⟨hid, hcall', hrest⟩ := h.maps m' hm'
      refine ⟨hid, hcall', fun hhooked ↦ ⟨h.mem_erase.mpr ⟨?_, (hrest hhooked).1⟩,
        (hrest hhooked).2⟩⟩
      rintro rfl
      exact hmaps hhooked hm'
    hook := by
      intro m' found todo hhook
      obtain ⟨hhooked, hfound, hm', htodo⟩ := h.hook m' found todo hhook
      refine ⟨hhooked, hfound, h.mem_erase.mpr ⟨?_, hm'⟩, htodo⟩
      rintro rfl
      rw [show s.call m' = .hook found todo from hhook] at hcall
      cases hcall
    dead := by
      intro m' va hva hdead
      by_cases hmem : va ∈ m.ptes
      · refine .inl ((clear_of_mem s false hmem).1.trans ?_)
        exact decide_eq_true (hlost m' va hva hmem)
      · have hne : m' ≠ m := by
          rintro rfl
          exact hmem (h.ptes_of_toRestore hva)
        rcases h.dead m' va hva fun hm' ↦ hdead (h.mem_erase.mpr ⟨hne, hm'⟩) with
          hgone | ⟨m'', hm'', hva''⟩
        · exact .inl ((clear_of_notMem s false hmem).1.trans hgone)
        · refine .inr ⟨m'', h.mem_erase.mpr ⟨?_, hm''⟩, hva''⟩
          rintro rfl
          exact hmem hva''
    shared := fun m' va hva m'' hm'' ↦ h.shared m' va hva m'' (hlive hm'')
    pending := by
      intro m' hm' va hva hpoisoned
      have hsame := (clear_of_notMem s false (hapart hm' hva)).2
      exact h.pending m' (hlive hm') va hva (hsame.symm.trans hpoisoned)
    gone := by
      intro m' hm' va hva hgone
      have hsame := (clear_of_notMem s false (hapart hm' hva)).1
      exact h.gone m' (hlive hm') va hva (hsame.symm.trans hgone)
    lost := by
      intro m' hm' hrecorded va hva hmem
      obtain ⟨hgone, hpoisoned⟩ := h.lost m' (hlive hm') hrecorded va hva hmem
      have hsame := clear_of_notMem s false (hapart hm' hva)
      exact ⟨hsame.1.trans hgone, hsame.2.trans hpoisoned⟩
    done := fun hdone ↦ ⟨(h.done hdone).1, fun m' hm' ↦ (h.done hdone).2 m' (hlive hm')⟩ }

/-- The call goes on, and leaves nothing poisoned that it had still to restore. -/
theorem Inv.setCall (h : Inv s) {call : Call}
    (htodo : ∀ todo va, s.call m = .hook m todo → va ∈ todo → s.poisoned va = true →
      (∃ todo', call = .hook m todo' ∧ va ∈ todo') ∨ m ∈ s.recorded ∧ va ∈ m.lost)
    (hhook : ∀ found todo, call = .hook found todo →
      s.Hooked ∧ found = m ∧ m ∈ s.live ∧ ∀ va ∈ todo, va ∈ m.ptes)
    (hioremap : call = .ioremap → m.id < s.made)
    (hmaps : m ∈ s.maps → call ≠ .ioremap ∧ (s.Hooked → call = .none)) :
    Inv (s.setCall m call) := by
  have hother : ∀ {m'}, m' ≠ m → (s.setCall m call).call m' = s.call m' :=
    fun hne ↦ Function.update_of_ne hne _ _
  have hself : (s.setCall m call).call m = call := Function.update_self _ _ _
  refine { h with maps := ?_, hook := ?_, ioremap := ?_, pending := ?_ }
  · intro m' hm'
    obtain ⟨hid, hcall, hrest⟩ := h.maps m' hm'
    by_cases heq : m' = m
    · subst heq
      rw [hself]
      exact ⟨hid, (hmaps hm').1, fun hhooked ↦ ⟨(hrest hhooked).1, (hmaps hm').2 hhooked⟩⟩
    · rw [hother heq]
      exact ⟨hid, hcall, hrest⟩
  · intro m' found todo hcall
    by_cases heq : m' = m
    · subst heq
      exact hhook found todo (hself.symm.trans hcall)
    · rw [hother heq] at hcall
      exact h.hook m' found todo hcall
  · intro m' hcall
    by_cases heq : m' = m
    · subst heq
      exact hioremap (hself.symm.trans hcall)
    · exact h.ioremap m' ((hother heq).symm.trans hcall)
  · intro m' hm' va hva hpoisoned
    rcases h.pending m' hm' va hva hpoisoned with (hrestore | ⟨todo, hcall, hmem⟩) | hlost
    · exact .inl (.inl hrestore)
    · by_cases heq : m' = m
      · subst heq
        refine (htodo todo va hcall hmem hpoisoned).imp_left ?_
        rintro ⟨todo', hcall', hmem'⟩
        exact .inr ⟨todo', hself.trans hcall', hmem'⟩
      · exact .inl (.inr ⟨todo, (hother heq).trans hcall, hmem⟩)
    · exact .inr hlost

theorem Inv.setCall_of_not_hook (h : Inv s) (hcall : (s.call m).InHook = false) {call : Call}
    (hhook : call.InHook = false) (hioremap : call = .ioremap → m.id < s.made)
    (hmaps : m ∈ s.maps → call ≠ .ioremap ∧ (s.Hooked → call = .none)) :
    Inv (s.setCall m call) := by
  refine h.setCall (fun todo va hold ↦ ?_) (fun found todo hnew ↦ ?_) hioremap hmaps
  · rw [hold] at hcall
    cases hcall
  · rw [hnew] at hhook
    cases hhook

theorem Inv.map (h : Inv s) (hid : m.id = s.made)
    (hfresh : ∀ m' ∈ s.live, m'.va ≠ m.va ∧ ∀ va ∈ m.ptes, va ∉ m'.ptes) :
    Inv (s.map m) := by
  have hlive : ∀ {m'}, m' ∈ s.live → m' ∈ s.live ++ [m] := fun hm' ↦ List.mem_append_left _ hm'
  have hcases : ∀ {m'}, m' ∈ s.live ++ [m] → m' ∈ s.live ∨ m' = m := fun hm' ↦
    (List.mem_append.mp hm').imp_right List.mem_singleton.mp
  have hnew : m ∉ s.recorded := fun hmem ↦ Nat.ne_of_lt (h.recorded m hmem) hid
  exact { h with
    apart := List.pairwise_append.mpr ⟨h.apart, List.pairwise_singleton _ _,
      fun m' hm' m'' hm'' ↦ List.mem_singleton.mp hm'' ▸ hfresh m' hm'⟩
    maps := by
      intro m' hm'
      obtain ⟨hid, hcall, hrest⟩ := h.maps m' hm'
      exact ⟨Nat.lt_succ_of_lt hid, hcall, fun hhooked ↦
        ⟨hlive (hrest hhooked).1, (hrest hhooked).2⟩⟩
    hook := by
      intro m' found todo hcall
      obtain ⟨hhooked, hfound, hm', htodo⟩ := h.hook m' found todo hcall
      exact ⟨hhooked, hfound, hlive hm', htodo⟩
    ioremap := fun m' hcall ↦ Nat.lt_succ_of_lt (h.ioremap m' hcall)
    current := fun m' todo hstage ↦ (h.current m' todo hstage).imp_left Nat.lt_succ_of_lt
    dead := by
      intro m' va hva hdead
      rcases h.dead m' va hva fun hm' ↦ hdead (hlive hm') with hgone | ⟨m'', hm'', hva''⟩
      · by_cases hmem : va ∈ m.ptes
        · exact .inr ⟨m, List.mem_append_right _ (List.mem_singleton_self m), hmem⟩
        · exact .inl ((map_of_notMem s hmem).1.trans hgone)
      · exact .inr ⟨m'', hlive hm'', hva''⟩
    shared := by
      intro m' va hva m'' hm'' hva'' hrecorded
      rcases hcases hm'' with hold | rfl
      · exact h.shared m' va hva m'' hold hva'' hrecorded
      · exact absurd hrecorded hnew
    pending := by
      intro m' hm' va hva hpoisoned
      have hnot : va ∉ m.ptes := by
        intro hmem
        cases (map_of_mem s hmem).2.symm.trans hpoisoned
      rcases hcases hm' with hold | rfl
      · exact h.pending m' hold va hva ((map_of_notMem s hnot).2.symm.trans hpoisoned)
      · exact absurd hva hnot
    gone := by
      intro m' hm' va hva hgone
      have hnot : va ∉ m.ptes := by
        intro hmem
        cases (map_of_mem s hmem).1.symm.trans hgone
      rcases hcases hm' with hold | rfl
      · exact h.gone m' hold va hva ((map_of_notMem s hnot).1.symm.trans hgone)
      · exact absurd hva hnot
    lost := by
      intro m' hm' hrecorded va hva hmem
      rcases hcases hm' with hold | rfl
      · have hnot : va ∉ m.ptes := fun hmem' ↦ (hfresh m' hold).2 va hmem' hva
        obtain ⟨hgone, hpoisoned⟩ := h.lost m' hold hrecorded va hva hmem
        have hsame := map_of_notMem s hnot
        exact ⟨hsame.1.trans hgone, hsame.2.trans hpoisoned⟩
      · exact absurd hrecorded hnew
    recorded := fun m' hm' ↦ Nat.lt_succ_of_lt (h.recorded m' hm')
    done := by
      intro hdone
      refine ⟨(h.done hdone).1, fun m' hm' hrecorded ↦ ?_⟩
      rcases hcases hm' with hold | rfl
      · exact (h.done hdone).2 m' hold hrecorded
      · exact absurd hrecorded hnew }

/-- The hook on `ioremap` records a mapping that it has poisoned. -/
theorem Inv.record (h : Inv s) (hm : m ∈ s.live) (hid : m.id < s.made) (hmaps : m ∉ s.maps)
    (hcall : s.call m = .none) (hactive : s.stage = .active) :
    Inv { s.clear m true with maps := s.maps ++ [m], recorded := m :: s.recorded } := by
  have hhooked : s.Hooked := .inl hactive
  have hcases : ∀ {m'}, m' ∈ s.maps ++ [m] → m' ∈ s.maps ∨ m' = m := fun hm' ↦
    (List.mem_append.mp hm').imp_right List.mem_singleton.mp
  have hall : ∀ {m'}, m' ∈ s.maps ++ [m] → m' ∈ s.live := fun hm' ↦ by
    rcases hcases hm' with hold | rfl
    · exact ((h.maps _ hold).2.2 hhooked).1
    · exact hm
  have hrestore : ∀ {m' va}, (m', va) ∈ { s.clear m true with
      maps := s.maps ++ [m], recorded := m :: s.recorded }.toRestore →
        m' ∈ s.maps ++ [m] ∧ va ∈ m'.ptes := by
    intro m' va hva
    rcases mem_toRestore.mp hva with ⟨todo, hstage, -⟩ | hmem
    · cases hactive.symm.trans hstage
    · exact hmem
  have hold : ∀ {m' va}, m' ∈ s.live → m' ≠ m → va ∈ m'.ptes → va ∉ m.ptes :=
    fun hm' hne hva hmem ↦ hne (h.eq_of_entry hm' hm hva hmem)
  exact { h with
    nodup := List.nodup_append.mpr ⟨h.nodup, List.nodup_singleton _, fun m' hm' m'' hm'' heq ↦
      hmaps (List.mem_singleton.mp hm'' ▸ heq ▸ hm')⟩
    maps := by
      intro m' hm'
      rcases hcases hm' with hold | rfl
      · exact h.maps m' hold
      · exact ⟨hid, fun hno ↦ (by cases hcall.symm.trans hno), fun _ ↦ ⟨hm, hcall⟩⟩
    dead := fun m' va hva hdead ↦ absurd (hall (hrestore hva).1) hdead
    shared := fun m' va hva m'' hm'' hva'' _ ↦
      h.eq_of_entry hm'' (hall (hrestore hva).1) hva'' (hrestore hva).2
    pending := by
      intro m' hm' va hva hpoisoned
      by_cases heq : m' = m
      · subst heq
        exact .inl (.inl (mem_toRestore.mpr (.inr
          ⟨List.mem_append_right _ (List.mem_singleton_self m'), hva⟩)))
      · rcases h.pending m' hm' va hva
          ((clear_of_notMem s true (hold hm' heq hva)).2.symm.trans hpoisoned) with
          (hrestore | hhook) | ⟨hrecorded, hlost⟩
        · have hmem := (h.live_of_toRestore hhooked hrestore).1
          exact .inl (.inl (mem_toRestore.mpr (.inr ⟨List.mem_append_left _ hmem, hva⟩)))
        · exact .inl (.inr hhook)
        · exact .inr ⟨List.mem_cons_of_mem _ hrecorded, hlost⟩
    gone := by
      intro m' hm' va hva hgone
      by_cases heq : m' = m
      · subst heq
        have hself := (clear_of_mem s true hva).1
        exact ⟨List.mem_cons_self, of_decide_eq_true (hself.symm.trans hgone)⟩
      · have hsame := (clear_of_notMem s true (hold hm' heq hva)).1
        exact (h.gone m' hm' va hva (hsame.symm.trans hgone)).imp_left (List.mem_cons_of_mem _)
    lost := by
      intro m' hm' hrecorded va hva hmem
      by_cases heq : m' = m
      · subst heq
        have hself := clear_of_mem s true hva
        exact ⟨hself.1.trans (decide_eq_true hmem), hself.2⟩
      · obtain ⟨hgone, hpoisoned⟩ := h.lost m' hm' ((List.mem_cons.mp hrecorded).resolve_left heq)
          va hva hmem
        have hsame := clear_of_notMem s true (hold hm' heq hva)
        exact ⟨hsame.1.trans hgone, hsame.2.trans hpoisoned⟩
    recorded := List.forall_mem_cons.mpr ⟨hid, h.recorded⟩
    done := fun hdone ↦ by cases hactive.symm.trans hdone }

theorem Inv.unique (h : Inv s) (hhooked : s.Hooked) :
    Unique (fun map : Mapping ↦ map.va) s.maps :=
  h.nodup.imp_of_mem fun hm hm' hne hva ↦
    hne (h.eq_of_va ((h.maps _ hm).2.2 hhooked).1 ((h.maps _ hm').2.2 hhooked).1 hva)

/-- The hook on `iounmap` takes the map of the mapping from the list. -/
theorem Inv.take (h : Inv s) (hm : m ∈ s.maps) (hhooked : s.Hooked) :
    Inv ({ s with maps := remove (fun map ↦ map.va) m.va s.maps }.setCall m (.hook m m.ptes)) := by
  obtain ⟨hlive, hcall⟩ := (h.maps m hm).2.2 hhooked
  have hmem : ∀ {m'}, m' ∈ remove (fun map : Mapping ↦ map.va) m.va s.maps ↔
      m' ∈ s.maps ∧ m'.va ≠ m.va :=
    mem_remove (h.unique hhooked)
  have hother : ∀ {m'}, m' ≠ m → Function.update s.call m (.hook m m.ptes) m' = s.call m' :=
    fun hne ↦ Function.update_of_ne hne _ _
  have hself : Function.update s.call m (.hook m m.ptes) m = .hook m m.ptes :=
    Function.update_self _ _ _
  have hne : ∀ {m'}, m' ∈ remove (fun map : Mapping ↦ map.va) m.va s.maps → m' ≠ m := by
    rintro m' hm' rfl
    exact (hmem.mp hm').2 rfl
  have hrestore : ∀ {m' va}, (m', va) ∈ ({ s with
      maps := remove (fun map ↦ map.va) m.va s.maps }.setCall m (.hook m m.ptes)).toRestore →
        (m', va) ∈ s.toRestore := fun hva ↦
    mem_toRestore.mpr ((mem_toRestore.mp hva).imp_right fun hand ↦ ⟨(hmem.mp hand.1).1, hand.2⟩)
  exact { h with
    nodup := h.nodup.sublist List.eraseP_sublist
    maps := by
      intro m' hm'
      change m'.id < s.made ∧ Function.update s.call m (.hook m m.ptes) m' ≠ .ioremap ∧
        (s.Hooked → m' ∈ s.live ∧ Function.update s.call m (.hook m m.ptes) m' = .none)
      rw [hother (hne hm')]
      exact h.maps m' (hmem.mp hm').1
    hook := by
      intro m' found todo hcall'
      by_cases heq : m' = m
      · subst heq
        cases hself.symm.trans hcall'
        exact ⟨hhooked, rfl, hlive, fun va hva ↦ hva⟩
      · exact h.hook m' found todo ((hother heq).symm.trans hcall')
    ioremap := by
      intro m' hcall'
      by_cases heq : m' = m
      · subst heq
        cases hself.symm.trans hcall'
      · exact h.ioremap m' ((hother heq).symm.trans hcall')
    dead := fun m' va hva ↦ h.dead m' va (hrestore hva)
    shared := fun m' va hva ↦ h.shared m' va (hrestore hva)
    pending := by
      intro m' hm' va hva hpoisoned
      by_cases heq : m' = m
      · subst heq
        exact .inl (.inr ⟨m'.ptes, hself, hva⟩)
      · rcases h.pending m' hm' va hva hpoisoned with (hold | ⟨todo, hhook, htodo⟩) | hlost
        · have hmaps := (h.live_of_toRestore hhooked hold).1
          refine .inl (.inl (mem_toRestore.mpr (.inr ⟨hmem.mpr ⟨hmaps, fun hsame ↦ heq ?_⟩, hva⟩)))
          exact h.eq_of_va hm' hlive hsame
        · exact .inl (.inr ⟨todo, (hother heq).trans hhook, htodo⟩)
        · exact .inr hlost
    done := fun hdone ↦ absurd hhooked (not_hooked_of_done hdone) }

theorem Inv.exitIoremap (h : Inv s) (ctx : SmptraceCtx) (kzalloc poison : Bool) (hm : m ∈ s.live)
    (hcall : s.call m = .ioremap) :
    Inv ((if s.stage = .active then s.smptraceExitIoremap ctx kzalloc poison m else s).setCall m
      .none) := by
  have hmaps : m ∉ s.maps := fun hmem ↦ (h.maps m hmem).2.1 hcall
  have hquiet : (s.call m).InHook = false := by rw [hcall]; rfl
  have hreturn : Inv (s.setCall m .none) :=
    h.setCall_of_not_hook hquiet rfl (fun hno ↦ by cases hno) fun hmem ↦ absurd hmem hmaps
  split_ifs with hactive
  · rw [Machine.smptraceExitIoremap]
    split_ifs with hstarts hkzalloc hpoison
    · exact hreturn
    · have hunmap : Inv (s.unmap m) := by
        refine h.unmap hm (fun _ ↦ hmaps) (fun m' va hva hmem ↦ ?_) hquiet
        obtain ⟨hmaps', hlive, hva'⟩ := h.live_of_toRestore (.inl hactive) hva
        exact absurd (h.eq_of_entry hlive hm hva' hmem ▸ hmaps') hmaps
      exact hunmap.setCall_of_not_hook hquiet rfl (fun hno ↦ by cases hno)
        fun hmem ↦ absurd hmem hmaps
    · exact hreturn.record hm (h.ioremap m hcall) hmaps (Function.update_self _ _ _) hactive
    · exact hreturn
  · exact hreturn

theorem Inv.enterIounmap (h : Inv s) (hm : m ∈ s.live) (hcall : s.call m = .none) :
    Inv (if s.Hooked then s.smptraceEnterIounmap m else s.setCall m .iounmap) := by
  have hquiet : (s.call m).InHook = false := by rw [hcall]; rfl
  split_ifs with hhooked
  · rw [Machine.smptraceEnterIounmap]
    split
    · rename_i hnone
      refine h.setCall_of_not_hook hquiet rfl (fun hno ↦ by cases hno) fun hmem ↦ ?_
      simpa using List.find?_eq_none.mp hnone m hmem
    · rename_i found hfound
      have hmem : found ∈ s.maps := List.mem_of_find?_eq_some hfound
      have hva : found.va = m.va := by simpa using List.find?_some hfound
      obtain rfl : found = m := h.eq_of_va ((h.maps found hmem).2.2 hhooked).1 hm hva
      exact h.take hmem hhooked
  · exact h.setCall_of_not_hook hquiet rfl (fun hno ↦ by cases hno)
      fun _ ↦ ⟨by decide, fun hno ↦ absurd hno hhooked⟩

/-- What is still poisoned at an address where nothing can be restored. -/
theorem Inv.poisoned_restorePte (h : Inv s) (hm : m ∈ s.live) (hva : va ∈ m.ptes)
    (hpoisoned : (s.restorePte m va).poisoned va = true) : m ∈ s.recorded ∧ va ∈ m.lost := by
  cases hgone : s.gone va with
  | true => exact h.gone m hm va hva hgone
  | false =>
    rw [restorePte_of_found hgone] at hpoisoned
    cases (Function.update_self _ _ _).symm.trans hpoisoned

theorem restorePte_frame (s : Machine) (m : Mapping) (va : BitVec 64) :
    (s.restorePte m va).live = s.live ∧ (s.restorePte m va).maps = s.maps ∧
      (s.restorePte m va).recorded = s.recorded ∧ (s.restorePte m va).call = s.call ∧
      (s.restorePte m va).stage = s.stage ∧ (s.restorePte m va).made = s.made ∧
      (s.restorePte m va).gone = s.gone := by
  rw [Machine.restorePte]
  split_ifs
  · exact ⟨rfl, rfl, rfl, rfl, rfl, rfl, rfl⟩
  · exact ⟨rfl, rfl, rfl, rfl, rfl, rfl, rfl⟩

theorem Inv.hook_step (h : Inv s) (ctx : SmptraceCtx) (m : Mapping) :
    Inv (step ctx s (.hook m)) := by
  rw [step]
  split
  · rename_i found hcall
    obtain ⟨hhooked, rfl, hm, -⟩ := h.hook m _ _ hcall
    refine h.setCall (fun todo va hold hva ↦ ?_) (fun found todo hnew ↦ by cases hnew)
      (fun hno ↦ by cases hno) fun hmem ↦ ?_
    · cases hcall.symm.trans hold
      cases hva
    · cases hcall.symm.trans ((h.maps found hmem).2.2 hhooked).2
  · rename_i found va todo hcall
    obtain ⟨hhooked, rfl, hm, htodo⟩ := h.hook m _ _ hcall
    have hva := htodo va List.mem_cons_self
    have hrestored := h.restorePte hva fun hno ↦ absurd hm hno
    have hpoisoned := h.poisoned_restorePte hm hva
    obtain ⟨hlive', hmaps', hrecorded', hcall', hstage', -⟩ := restorePte_frame s found va
    generalize s.restorePte found va = s' at *
    refine hrestored.setCall (fun todo' va' hold hva' hpoisoned' ↦ ?_) (fun found' todo' hnew ↦ ?_)
      (fun hno ↦ by cases hno) fun hmem ↦ ?_
    · rw [hcall'] at hold
      cases hcall.symm.trans hold
      rcases List.mem_cons.mp hva' with rfl | hva'
      · rw [hrecorded']
        exact .inr (hpoisoned hpoisoned')
      · exact .inl ⟨todo, rfl, hva'⟩
    · cases hnew
      refine ⟨?_, rfl, hlive' ▸ hm, fun va' hva' ↦ htodo va' (List.mem_cons_of_mem _ hva')⟩
      rw [Machine.Hooked, hstage']
      exact hhooked
    · rw [hmaps'] at hmem
      cases hcall.symm.trans ((h.maps found hmem).2.2 hhooked).2
  · exact h

theorem Inv.setStage (h : Inv s) {stage : Stage} {maps : List Mapping} (hsub : maps.Sublist s.maps)
    (hhooked : { s with stage := stage, maps := maps }.Hooked → s.Hooked)
    (hhook : s.Hooked → { s with stage := stage, maps := maps }.Hooked ∨
      ∀ m ∈ s.live, (s.call m).InHook = false)
    (hcurrent : ∀ m todo, stage = .restoring (some (m, todo)) →
      m.id < s.made ∧ ∀ va ∈ todo, va ∈ m.ptes)
    (hrestore : ∀ m va, (m, va) ∈ { s with stage := stage, maps := maps }.toRestore →
      (m, va) ∈ s.toRestore)
    (hpending : ∀ m ∈ s.live, ∀ va ∈ m.ptes, s.poisoned va = true → (m, va) ∈ s.toRestore →
      (m, va) ∈ { s with stage := stage, maps := maps }.toRestore ∨ m ∈ s.recorded ∧ va ∈ m.lost)
    (hdone : stage = .done → maps = [] ∧
      ∀ m ∈ s.live, m ∈ s.recorded → ∀ va ∈ m.ptes, va ∉ m.lost) :
    Inv { s with stage := stage, maps := maps } :=
  { h with
    nodup := h.nodup.sublist hsub
    maps := by
      intro m hm
      obtain ⟨hid, hcall, hrest⟩ := h.maps m (hsub.mem hm)
      exact ⟨hid, hcall, fun hnew ↦ hrest (hhooked hnew)⟩
    hook := by
      intro m found todo hcall
      obtain ⟨hold, hfound, hlive, htodo⟩ := h.hook m found todo hcall
      rcases hhook hold with hnew | hquiet
      · exact ⟨hnew, hfound, hlive, htodo⟩
      · have hno := hquiet m hlive
        rw [show s.call m = .hook found todo from hcall] at hno
        cases hno
    current := hcurrent
    dead := fun m va hva ↦ h.dead m va (hrestore m va hva)
    shared := fun m va hva ↦ h.shared m va (hrestore m va hva)
    pending := by
      intro m hm va hva hpoisoned
      rcases h.pending m hm va hva hpoisoned with (hold | hhook') | hlost
      · exact (hpending m hm va hva hpoisoned hold).imp_left .inl
      · exact .inl (.inr hhook')
      · exact .inr hlost
    done := hdone }

theorem Inv.setStage_same (h : Inv s) {stage : Stage} {maps : List Mapping}
    (hsub : maps.Sublist s.maps)
    (hhooked : { s with stage := stage, maps := maps }.Hooked → s.Hooked)
    (hhook : s.Hooked → { s with stage := stage, maps := maps }.Hooked ∨
      ∀ m ∈ s.live, (s.call m).InHook = false)
    (hcurrent : ∀ m todo, stage = .restoring (some (m, todo)) →
      m.id < s.made ∧ ∀ va ∈ todo, va ∈ m.ptes)
    (hsame : { s with stage := stage, maps := maps }.toRestore = s.toRestore)
    (hdone : stage = .done → maps = [] ∧
      ∀ m ∈ s.live, m ∈ s.recorded → ∀ va ∈ m.ptes, va ∉ m.lost) :
    Inv { s with stage := stage, maps := maps } :=
  h.setStage hsub hhooked hhook hcurrent (fun _ _ hva ↦ hsame ▸ hva)
    (fun _ _ _ _ _ hva ↦ .inl (hsame.symm ▸ hva)) hdone

theorem toRestore_of_quiet (hstage : ∀ m todo, s.stage ≠ .restoring (some (m, todo))) :
    s.toRestore = s.maps.flatMap fun m ↦ m.ptes.map (m, ·) := by
  rw [Machine.toRestore]
  split
  · rename_i m todo hno
    exact absurd hno (hstage m todo)
  · rfl

theorem toRestore_of_current (hstage : s.stage = .restoring (some (m, todo))) :
    s.toRestore = todo.map (m, ·) ++ s.maps.flatMap fun m ↦ m.ptes.map (m, ·) := by
  rw [Machine.toRestore, hstage]

/-- `smptrace_deactivate` restores the next entry. -/
theorem Inv.restore_next (h : Inv s) (hreused : ¬ Reused s)
    (hstage : s.stage = .restoring (some (m, va :: todo))) :
    Inv { s.restorePte m va with stage := .restoring (some (m, todo)) } := by
  obtain ⟨hid, hptes⟩ := h.current m _ hstage
  have hnext : s.toRestore = (m, va) :: (todo.map (m, ·) ++
      s.maps.flatMap fun m ↦ m.ptes.map (m, ·)) := toRestore_of_current hstage
  have hva := hptes va List.mem_cons_self
  have hgone : m ∉ s.live → s.gone va = true := by
    intro hdead
    refine (h.dead m va (by rw [hnext]; exact List.mem_cons_self) hdead).resolve_right ?_
    rintro ⟨m', hm', hva'⟩
    refine hreused ⟨(m, va), ?_, hdead, m', hm', hva'⟩
    rw [Machine.next, hstage]
    rfl
  have hrestored := h.restorePte hva hgone
  have hpoisoned := fun hm ↦ h.poisoned_restorePte (m := m) hm hva
  obtain ⟨hlive', hmaps', hrecorded', -, hstage', hmade', -⟩ := restorePte_frame s m va
  generalize s.restorePte m va = s' at *
  have hold : s'.toRestore = (m, va) :: { s' with
      stage := .restoring (some (m, todo)) }.toRestore := by
    rw [toRestore_of_stage hstage' hmaps', hnext, ← hmaps']
    rfl
  refine hrestored.setStage (List.Sublist.refl _)
    (fun hno ↦ absurd hno (not_hooked_of_restoring rfl))
    (fun hno ↦ absurd hno (not_hooked_of_restoring (hstage'.trans hstage)))
    (fun m' todo' hnew ↦ ?_) (fun m' va' hva' ↦ ?_) (fun m' hm' va' hva' hpoisoned' hrestore ↦ ?_)
    fun hno ↦ by cases hno
  · cases hnew
    exact ⟨hmade'.symm ▸ hid, fun va' hva' ↦ hptes va' (List.mem_cons_of_mem _ hva')⟩
  · rw [hold]
    exact List.mem_cons_of_mem _ hva'
  · rw [hold] at hrestore
    rcases List.mem_cons.mp hrestore with heq | htail
    · cases heq
      rw [hrecorded']
      exact .inr (hpoisoned (hlive' ▸ hm') hpoisoned')
    · exact .inl htail

theorem Inv.deactivate (h : Inv s) (hreused : ¬ Reused s) (hleaves : ¬ LeavesBlock s) :
    Inv s.smptraceDeactivate := by
  rw [Machine.smptraceDeactivate]
  split
  · rename_i hstage
    have hsame : { s with stage := .noIoremap }.toRestore = s.toRestore := by
      rw [Machine.toRestore, Machine.toRestore, hstage]
    exact h.setStage_same (List.Sublist.refl _) (fun _ ↦ .inl hstage) (fun _ ↦ .inl (.inr rfl))
      (fun m todo hno ↦ by cases hno) hsame fun hno ↦ by cases hno
  · rename_i hstage
    have hsame : { s with stage := .restoring none }.toRestore = s.toRestore := by
      rw [Machine.toRestore, Machine.toRestore, hstage]
    split_ifs with hquiet
    · exact h.setStage_same (List.Sublist.refl _) (fun _ ↦ .inr hstage) (fun _ ↦ .inr hquiet)
        (fun m todo hno ↦ by cases hno) hsame fun hno ↦ by cases hno
    · exact h
  · rename_i hstage
    have hhooked := not_hooked_of_restoring hstage
    split
    · rename_i hnil
      have hsame : { s with stage := .done }.toRestore = s.toRestore := by
        rw [Machine.toRestore, Machine.toRestore, hstage]
      refine h.setStage_same (List.Sublist.refl _)
        (fun hno ↦ absurd hno (not_hooked_of_done rfl)) (fun hno ↦ absurd hno hhooked)
        (fun m todo hno ↦ by cases hno) hsame
        fun _ ↦ ⟨hnil, fun m hm hrecorded va hva hlost ↦ ?_⟩
      exact hleaves ⟨hstage, hnil, m, hm, hrecorded, va, hva, hlost⟩
    · rename_i m maps hmaps
      have hsame : { s with maps := maps, stage := .restoring (some (m, m.ptes)) }.toRestore =
          s.toRestore := by
        rw [Machine.toRestore, Machine.toRestore, hstage, hmaps]
        rfl
      have hmem : m ∈ s.maps := by
        rw [hmaps]
        exact List.mem_cons_self
      refine h.setStage_same (by rw [hmaps]; exact List.sublist_cons_self m maps)
        (fun hno ↦ absurd hno (not_hooked_of_restoring rfl)) (fun hno ↦ absurd hno hhooked)
        (fun m' todo hnew ↦ ?_) hsame fun hno ↦ by cases hno
      cases hnew
      exact ⟨(h.maps m hmem).1, fun va hva ↦ hva⟩
  · rename_i m hstage
    have hsame : { s with stage := .restoring none }.toRestore = s.toRestore := by
      rw [Machine.toRestore, Machine.toRestore, hstage]
      rfl
    exact h.setStage_same (List.Sublist.refl _)
      (fun hno ↦ absurd hno (not_hooked_of_restoring rfl))
      (fun hno ↦ absurd hno (not_hooked_of_restoring hstage)) (fun m todo hno ↦ by cases hno)
      hsame fun hno ↦ by cases hno
  · rename_i m va todo hstage
    exact h.restore_next hreused hstage
  · exact h

theorem Inv.iounmap (h : Inv s) (hm : m ∈ s.live) (hcall : s.call m = .iounmap)
    (hspares : ¬ TakesDown s m) : Inv (s.unmap m) := by
  have hmaps : s.Hooked → m ∉ s.maps := by
    intro hhooked hmem
    cases hcall.symm.trans ((h.maps m hmem).2.2 hhooked).2
  refine h.unmap hm hmaps (fun m' va hva hmem ↦ ?_) (by rw [hcall]; rfl)
  by_cases hhooked : s.Hooked
  · obtain ⟨hmaps', hlive, hva'⟩ := h.live_of_toRestore hhooked hva
    exact absurd (h.eq_of_entry hlive hm hva' hmem ▸ hmaps') (hmaps hhooked)
  · by_contra hno
    exact hspares ⟨hm, hcall, hhooked, (m', va), hva, hmem, hno⟩

theorem inv_step (ctx : SmptraceCtx) (s : Machine) (a : Action) (h : Inv s) (hspares : Spares s a) :
    Inv (step ctx s a) := by
  cases a with
  | ioremap m =>
    rw [step]
    split_ifs with hok
    · obtain ⟨hid, hfresh⟩ := hok
      have hnot : m ∉ s.live := fun hm ↦ (hfresh m hm).1 rfl
      have hmaps : m ∉ s.maps := fun hm ↦ Nat.ne_of_lt (h.maps m hm).1 hid
      have hquiet : (s.call m).InHook = false := by
        cases hcall : s.call m with
        | hook found todo => exact absurd (h.hook m found todo hcall).2.2.1 hnot
        | _ => rfl
      exact (h.map hid hfresh).setCall_of_not_hook hquiet rfl
        (fun _ ↦ hid ▸ Nat.lt_succ_self m.id) fun hmem ↦ absurd hmem hmaps
    · exact h
  | exitIoremap m kzalloc poison =>
    by_cases hok : m ∈ s.live ∧ s.call m = .ioremap
    · rw [step, if_pos hok]
      exact h.exitIoremap ctx kzalloc poison hok.1 hok.2
    · rw [step, if_neg hok]
      exact h
  | enterIounmap m =>
    by_cases hok : m ∈ s.live ∧ s.call m = .none
    · rw [step, if_pos hok]
      exact h.enterIounmap hok.1 hok.2
    · rw [step, if_neg hok]
      exact h
  | hook m => exact h.hook_step ctx m
  | iounmap m =>
    by_cases hok : m ∈ s.live ∧ s.call m = .iounmap
    · rw [step, if_pos hok]
      exact h.iounmap hok.1 hok.2 hspares
    · rw [step, if_neg hok]
      exact h
  | deactivate => exact h.deactivate hspares.1 hspares.2

end Step

end Pciem.Trace.Deactivation.Invariant
