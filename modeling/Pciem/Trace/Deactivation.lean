import Mathlib.Data.List.Nodup
import Mathlib.Logic.Function.Basic
import Mathlib.Tactic.SplitIfs
import Pciem.Library.KeyedList
import Pciem.Library.Replay
import Pciem.Trace.Maps
import Pciem.Trace.Walkers

namespace Pciem.Trace.Deactivation

open Kernel Library Library.KeyedList Library.Replay Context
open Maps (Starts)
open PageWalk (mem_path_of_walk)
open Poison (Stop Tables Walked swapped_of_notMem)
open Walkers hiding Apart

/-- What a call of `ioremap` makes, and the map that it can be recorded with. The page walk finds
the entries at the addresses `ptes`. Those in `lost` it does not find once they have been cleared:
on arm64 and riscv these are the blocks, and on x86 there are none. The calls are numbered. -/
structure Mapping extends SmptraceMap where
  id : ℕ
  ptes : List (BitVec 64)
  lost : List (BitVec 64)
deriving DecidableEq

/-- The call of a driver that a mapping is in. `ioremap` has made the mapping and has not yet
returned, `hook` is `smptrace_enter_iounmap` with the map that it took from the list and the entries
that it has still to restore, and `iounmap` is what follows. -/
inductive Call
  | none
  | ioremap
  | hook (found : Mapping) (todo : List (BitVec 64))
  | iounmap
deriving DecidableEq

def Call.InHook : Call → Bool
  | .hook _ _ => true
  | _ => false

/-- How far `smptrace_deactivate` is. While it restores it has at most one map in hand, with the
entries that are left. -/
inductive Stage
  | active
  | noIoremap
  | restoring (current : Option (Mapping × List (BitVec 64)))
  | done
deriving DecidableEq

/-- A map has the saved entries of the mapping. `gone` are the addresses at which the page walk
finds nothing, and `recorded` the mappings that have had a map. `writes` tells for every write of
`smptrace_arch_restore_pte` whether the entry was one of the mapping that the map was recorded for,
and that mapping still live. -/
structure Machine where
  live : List Mapping
  maps : List Mapping
  poisoned : BitVec 64 → Bool
  gone : BitVec 64 → Bool
  recorded : List Mapping
  call : Mapping → Call
  stage : Stage
  made : ℕ
  writes : List (BitVec 64 × Bool)

namespace Machine

/-- The hook on `iounmap` is still there. -/
def Hooked (s : Machine) : Prop := s.stage = .active ∨ s.stage = .noIoremap

instance decidableHooked (s : Machine) : Decidable s.Hooked := inferInstanceAs (Decidable (_ ∨ _))

/-- The mappings that are alive when tracing begins are not poisoned. -/
def start (live : List Mapping) (made : ℕ) : Machine where
  live := live
  maps := []
  poisoned _ := false
  gone _ := false
  recorded := []
  call _ := .none
  stage := .active
  made := made
  writes := []

def setEntries (old : BitVec 64 → Bool) (ptes : List (BitVec 64)) (new : BitVec 64 → Bool) :
    BitVec 64 → Bool :=
  fun va ↦ if va ∈ ptes then new va else old va

/-- The kernel makes a mapping. -/
def map (s : Machine) (m : Mapping) : Machine :=
  { s with
    live := s.live ++ [m]
    poisoned := setEntries s.poisoned m.ptes fun _ ↦ false
    gone := setEntries s.gone m.ptes fun _ ↦ false
    made := s.made + 1 }

/-- The entries of a mapping are cleared. -/
def clear (s : Machine) (m : Mapping) (poison : Bool) : Machine :=
  { s with
    poisoned := setEntries s.poisoned m.ptes fun _ ↦ poison
    gone := setEntries s.gone m.ptes fun va ↦ va ∈ m.lost }

/-- What `smptrace_arch_restore_pte` does with an entry that it has saved. -/
def restorePte (s : Machine) (map : Mapping) (va : BitVec 64) : Machine :=
  if s.gone va then
    s
  else
    { s with
      poisoned := Function.update s.poisoned va false
      writes := (va, decide (map ∈ s.live ∧ va ∈ map.ptes)) :: s.writes }

/-- What `iounmap` does to the page tables. -/
def unmap (s : Machine) (m : Mapping) : Machine :=
  { s.clear m false with live := s.live.erase m }

def setCall (s : Machine) (m : Mapping) (call : Call) : Machine :=
  { s with call := Function.update s.call m call }

/-- `smptrace_exit_ioremap`. `kzalloc` and `poison` tell whether these succeed. -/
def smptraceExitIoremap (ctx : SmptraceCtx) (kzalloc poison : Bool) (s : Machine) (m : Mapping) :
    Machine :=
  if ¬ Starts ctx m.pa then
    s
  else if kzalloc = false then
    s
  else if poison = false then
    s.unmap m
  else
    { s.clear m true with
      maps := s.maps ++ [m]
      recorded := m :: s.recorded }

/-- The part of `smptrace_enter_iounmap` that holds the lock. -/
def smptraceEnterIounmap (s : Machine) (m : Mapping) : Machine :=
  match s.maps.find? fun map ↦ map.va = m.va with
  | Option.none => s.setCall m .iounmap
  | some found =>
    { s with maps := remove (fun map ↦ map.va) m.va s.maps }.setCall m (.hook found found.ptes)

/-- A step of `smptrace_deactivate`. To unregister the hook on `iounmap` is to wait for its
handlers. -/
def smptraceDeactivate (s : Machine) : Machine :=
  match s.stage with
  | .active => { s with stage := .noIoremap }
  | .noIoremap =>
    if ∀ m ∈ s.live, (s.call m).InHook = false then
      { s with stage := .restoring none }
    else
      s
  | .restoring none =>
    match s.maps with
    | [] => { s with stage := .done }
    | m :: maps => { s with maps := maps, stage := .restoring (some (m, m.ptes)) }
  | .restoring (some (_, [])) => { s with stage := .restoring none }
  | .restoring (some (m, va :: todo)) =>
    { s.restorePte m va with stage := .restoring (some (m, todo)) }
  | .done => s

/-- The maps are those of `smptrace_exit_ioremap`. -/
theorem map_exitIoremap (ctx : SmptraceCtx) (kzalloc poison : Bool) (s : Machine) (m : Mapping) :
    (s.smptraceExitIoremap ctx kzalloc poison m).maps.map Mapping.toSmptraceMap =
      (Maps.smptraceExitIoremap ctx kzalloc poison ⟨m.pa, m.len⟩ m.va
        (s.maps.map Mapping.toSmptraceMap)).2 := by
  rw [smptraceExitIoremap, Maps.smptraceExitIoremap]
  split_ifs
  · rfl
  · rfl
  · exact List.map_append
  · rfl

/-- And those of `smptrace_enter_iounmap`. -/
theorem map_enterIounmap (s : Machine) (m : Mapping) :
    (s.smptraceEnterIounmap m).maps.map Mapping.toSmptraceMap =
      Maps.smptraceEnterIounmap m.va (s.maps.map Mapping.toSmptraceMap) := by
  rw [Maps.smptraceEnterIounmap, remove_map, smptraceEnterIounmap]
  split
  · rename_i hnone
    have hne : ∀ map ∈ s.maps, map.va ≠ m.va := by simpa using List.find?_eq_none.mp hnone
    rw [KeyedList.remove, List.eraseP_of_forall_not (by simpa using hne)]
    rfl
  · rfl

/-- The entries that `smptrace_deactivate` has still to restore, and the maps that have them. -/
def toRestore (s : Machine) : List (Mapping × BitVec 64) :=
  let recorded := s.maps.flatMap fun m ↦ m.ptes.map (m, ·)
  match s.stage with
  | .restoring (some (m, todo)) => todo.map (m, ·) ++ recorded
  | _ => recorded

/-- The entry that `smptrace_deactivate` restores with its next step. -/
def next (s : Machine) : Option (Mapping × BitVec 64) :=
  match s.stage with
  | .restoring (some (m, va :: _)) => some (m, va)
  | _ => none

end Machine

/-- Steps of the calls of `ioremap` and `iounmap`, and of `smptrace_deactivate`. -/
inductive Action
  | ioremap (m : Mapping)
  | exitIoremap (m : Mapping) (kzalloc poison : Bool)
  | enterIounmap (m : Mapping)
  | hook (m : Mapping)
  | iounmap (m : Mapping)
  | deactivate
deriving DecidableEq

open Machine in
/-- An action that cannot be taken changes nothing. A driver unmaps a mapping that `ioremap` has
returned to it, and does so once. -/
def step (ctx : SmptraceCtx) (s : Machine) : Action → Machine
  | .ioremap m =>
    if m.id = s.made ∧ ∀ m' ∈ s.live, m'.va ≠ m.va ∧ ∀ va ∈ m.ptes, va ∉ m'.ptes then
      (s.map m).setCall m .ioremap
    else
      s
  | .exitIoremap m kzalloc poison =>
    if m ∈ s.live ∧ s.call m = .ioremap then
      (if s.stage = .active then smptraceExitIoremap ctx kzalloc poison s m else s).setCall m .none
    else
      s
  | .enterIounmap m =>
    if m ∈ s.live ∧ s.call m = .none then
      if s.Hooked then s.smptraceEnterIounmap m else s.setCall m .iounmap
    else
      s
  | .hook m =>
    match s.call m with
    | .hook _ [] => s.setCall m .iounmap
    | .hook found (va :: todo) => (s.restorePte found va).setCall m (.hook found todo)
    | _ => s
  | .iounmap m => if m ∈ s.live ∧ s.call m = .iounmap then s.unmap m else s
  | .deactivate => s.smptraceDeactivate

/-- Every write has met a live mapping, and nothing is left poisoned in the end. -/
structure Good (s : Machine) : Prop where
  writes : ∀ write ∈ s.writes, write.2 = true
  restored : s.stage = .done → ∀ m ∈ s.live, ∀ va ∈ m.ptes, s.poisoned va = false

/-- The hook on `iounmap` is gone, and an entry is taken down that is still to be restored and can
be found when it is. -/
def TakesDown (s : Machine) (m : Mapping) : Prop :=
  m ∈ s.live ∧ s.call m = .iounmap ∧ ¬ s.Hooked ∧
    ∃ entry ∈ s.toRestore, entry.2 ∈ m.ptes ∧ entry.2 ∉ m.lost

instance decidableTakesDown (s : Machine) (m : Mapping) : Decidable (TakesDown s m) :=
  inferInstanceAs (Decidable (_ ∧ _ ∧ _ ∧ _))

/-- The mapping is dead whose entry comes next, and another one has the address. -/
def Reused (s : Machine) : Prop :=
  ∃ entry ∈ s.next, entry.1 ∉ s.live ∧ ∃ m ∈ s.live, entry.2 ∈ m.ptes

instance decidableReused (s : Machine) : Decidable (Reused s) :=
  inferInstanceAs (Decidable (∃ entry ∈ s.next, _))

/-- All maps have been restored, and there is a mapping with a block that has had one. -/
def LeavesBlock (s : Machine) : Prop :=
  s.stage = .restoring none ∧ s.maps = [] ∧
    ∃ m ∈ s.live, m ∈ s.recorded ∧ ∃ va ∈ m.ptes, va ∈ m.lost

instance decidableLeavesBlock (s : Machine) : Decidable (LeavesBlock s) :=
  inferInstanceAs (Decidable (_ ∧ _ ∧ _))

/-- The steps that deactivation depends on. -/
def Spares (s : Machine) : Action → Prop
  | .iounmap m => ¬ TakesDown s m
  | .deactivate => ¬ Reused s ∧ ¬ LeavesBlock s
  | _ => True

instance decidableSpares (s : Machine) : (a : Action) → Decidable (Spares s a)
  | .iounmap m => inferInstanceAs (Decidable (¬ TakesDown s m))
  | .ioremap _ => inferInstanceAs (Decidable True)
  | .exitIoremap _ _ _ => inferInstanceAs (Decidable True)
  | .enterIounmap _ => inferInstanceAs (Decidable True)
  | .hook _ => inferInstanceAs (Decidable True)
  | .deactivate => inferInstanceAs (Decidable (¬ Reused s ∧ ¬ LeavesBlock s))

section Walks

variable {E : Type} [DecidableEq E] {w : Walker E} {t : Tables E} {map : SmptraceMap}
  {stops : List (Stop E Level)} {s : Stop E Level}

/-- The mapping whose entries the loop of `smptrace_arch_poison_pte` has gone over. -/
def ofStops (map : SmptraceMap) (id : ℕ) (stops : List (Stop E Level)) : Mapping :=
  { map with
    id
    ptes := stops.map fun s ↦ s.va
    lost := (stops.filter fun s ↦ s.level ≠ .pte).map fun s ↦ s.va }

/-- Where no entry that has been cleared is one of a table, the lost entries are those that
`smptrace_arch_restore_pte` does not find. -/
theorem find_eq_none_iff (h : Walked w.paging t map.va map.len.toInt stops)
    (htables : ∀ s ∈ stops, s.level = .pte → ∀ s' ∈ stops, s'.ptep ∉ w.path t s.va)
    (hs : s ∈ stops) (id : ℕ) :
    w.find (w.paging.swapped t stops) s.va = none ↔ s.va ∈ (ofStops map id stops).lost := by
  have hcleared := cleared_swapped (w := w) t stops
  have hfound := find_stop h (.refl t)
  constructor
  · intro hnone
    refine List.mem_map.mpr ⟨s, List.mem_filter.mpr ⟨hs, decide_eq_true fun hpte ↦ ?_⟩, rfl⟩
    have hsame : w.find (w.paging.swapped t stops) s.va = w.find t s.va :=
      find_congr fun e he ↦ swapped_of_notMem fun s' hs' heq ↦ htables s hs hpte s' hs' (heq ▸ he)
    cases hnone.symm.trans (hsame.trans (hfound s hs))
  · intro hlost
    obtain ⟨s', hs', hva⟩ := List.mem_map.mp hlost
    obtain ⟨hs', hblock⟩ := List.mem_filter.mp hs'
    rw [← hva]
    cases hfind : w.find (w.paging.swapped t stops) s'.va with
    | none => rfl
    | some r =>
      have hsame := (hfound s' hs').symm.trans (find_of_cleared hcleared hfind)
      cases hsame
      rcases mem_path_of_walk (hfound s' hs') with hpte | hpath
      · exact absurd hpte (of_decide_eq_true hblock)
      · exact absurd (swapped_eq_zero (.inr ⟨s', hs', rfl⟩))
          (ne_zero_of_mem_path hcleared hfind hpath)

end Walks

end Pciem.Trace.Deactivation
