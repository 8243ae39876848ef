import Mathlib.Algebra.Order.Ring.Nat
import Mathlib.Data.List.Basic
import Mathlib.Logic.Function.Basic
import Mathlib.Tactic.SplitIfs
import Pciem.Kernel.Errno
import Pciem.Trace.Context

namespace Pciem.Trace.Poison

open Kernel Context

abbrev Tables (E : Type) := E → BitVec 64

structure SmptracePte (L : Type) where
  va : BitVec 64
  level : L
  pte : BitVec 64
deriving DecidableEq

def smptraceFindPte {L : Type} (ptes : List (SmptracePte L)) (va : BitVec 64) :
    Option (SmptracePte L) :=
  ptes.find? fun tmp ↦ tmp.va = va

def pageSize : ℕ := 0x1000

def pmdSize : ℕ := 0x200000

def pudSize : ℕ := 0x40000000

/-- How an architecture finds the entry that maps an address, what it puts in the place of the
value of an entry, unless its level is not known, and how far an entry of a level reaches. -/
structure Paging (E L : Type) where
  find : Tables E → BitVec 64 → Option (E × L)
  poisoned : L → BitVec 64 → Option (BitVec 64)
  size : L → ℕ
  le_size : ∀ {level value}, (poisoned level value).isSome → pageSize ≤ size level

section Loop

variable {E L : Type} [DecidableEq E] (p : Paging E L)

/-- `kzalloc` tells for each entry of the list whether there is memory for it. Where the loop
fails the list is freed. -/
def poisonLoop (kzalloc : ℕ → Bool) (va : BitVec 64) (remain : ℤ) (t : Tables E)
    (ptes : List (SmptracePte L)) : Except Errno (List (SmptracePte L)) × Tables E :=
  if remain > 0 then
    match p.find t va with
    | none => (.error .enoent, t)
    | some (ptep, level) =>
      if kzalloc ptes.length then
        match _h : p.poisoned level (t ptep) with
        | none => (.error .einval, t)
        | some pte =>
          poisonLoop kzalloc (va + BitVec.ofNat 64 (p.size level)) (remain - p.size level)
            (Function.update t ptep pte) (ptes ++ [⟨va, level, t ptep⟩])
      else
        (.error .enomem, t)
  else
    (.ok ptes, t)
termination_by remain.toNat
decreasing_by
  have hle := p.le_size (Option.isSome_of_eq_some _h)
  unfold pageSize at hle
  omega

/-- The list is empty before. -/
def poisonPte (kzalloc : ℕ → Bool) (map : SmptraceMap) (t : Tables E) :
    Except Errno (List (SmptracePte L)) × Tables E :=
  poisonLoop p kzalloc map.va map.len.toInt t []

/-- An address at which the loop stops, and what it finds there. -/
structure Stop (E L : Type) where
  va : BitVec 64
  ptep : E
  level : L

def Paging.swap (t : Tables E) (s : Stop E L) : Tables E :=
  Function.update t s.ptep ((p.poisoned s.level (t s.ptep)).getD 0)

/-- The table after some stops. -/
def Paging.swapped (t : Tables E) (stops : List (Stop E L)) : Tables E :=
  stops.foldl p.swap t

/-- What the list has after some stops. -/
def Paging.saved : Tables E → List (Stop E L) → List (SmptracePte L)
  | _, [] => []
  | t, s :: stops => ⟨s.va, s.level, t s.ptep⟩ :: saved (p.swap t s) stops

/-- The stops of a loop that does not fail. -/
inductive Walked : Tables E → BitVec 64 → ℤ → List (Stop E L) → Prop
  | done {t : Tables E} {va : BitVec 64} {remain : ℤ} : remain ≤ 0 → Walked t va remain []
  | stop {t : Tables E} {va : BitVec 64} {remain : ℤ} {ptep : E} {level : L}
      {stops : List (Stop E L)} : 0 < remain → p.find t va = some (ptep, level) →
      (p.poisoned level (t ptep)).isSome →
      Walked (p.swap t ⟨va, ptep, level⟩) (va + BitVec.ofNat 64 (p.size level))
        (remain - p.size level) stops →
      Walked t va remain (⟨va, ptep, level⟩ :: stops)

variable {p}

section Runs

variable {kzalloc : ℕ → Bool} {va : BitVec 64} {remain : ℤ} {t t' : Tables E}
  {ptes ptes' : List (SmptracePte L)}

theorem poisonLoop_stop {ptep : E} {level : L} {pte : BitVec 64} (hpos : 0 < remain)
    (hfind : p.find t va = some (ptep, level)) (halloc : kzalloc ptes.length = true)
    (hpoison : p.poisoned level (t ptep) = some pte) :
    poisonLoop p kzalloc va remain t ptes =
      poisonLoop p kzalloc (va + BitVec.ofNat 64 (p.size level)) (remain - p.size level)
        (p.swap t ⟨va, ptep, level⟩) (ptes ++ [⟨va, level, t ptep⟩]) := by
  rw [poisonLoop, if_pos hpos, hfind]
  simp only [halloc, if_true]
  split
  · next hnone => simp [hpoison] at hnone
  · next pte' hsome =>
    rw [hpoison, Option.some.injEq] at hsome
    rw [Paging.swap, hpoison, hsome, Option.getD_some]

theorem poisonLoop_done (h : ¬ remain > 0) :
    poisonLoop p kzalloc va remain t ptes = (.ok ptes, t) := by
  rw [poisonLoop, if_neg h]

theorem walked_of_poisonLoop (h : poisonLoop p kzalloc va remain t ptes = (.ok ptes', t')) :
    ∃ stops, Walked p t va remain stops ∧ ptes' = ptes ++ p.saved t stops ∧
      t' = p.swapped t stops := by
  induction va, remain, t, ptes using poisonLoop.induct p kzalloc with
  | case1 va remain t ptes hpos hfind =>
    rw [poisonLoop, if_pos hpos, hfind] at h
    cases h
  | case2 va remain t ptes hpos ptep level hfind halloc hpoison =>
    rw [poisonLoop, if_pos hpos, hfind] at h
    simp only [halloc, if_true] at h
    split at h
    · cases h
    · next hsome => simp [hpoison] at hsome
  | case3 va remain t ptes hpos ptep level hfind halloc pte hpoison ih =>
    rw [poisonLoop_stop hpos hfind halloc hpoison, Paging.swap, hpoison, Option.getD_some] at h
    obtain ⟨stops, hwalked, hptes, ht⟩ := ih h
    have hswap : p.swap t ⟨va, ptep, level⟩ = Function.update t ptep pte := by
      rw [Paging.swap, hpoison, Option.getD_some]
    rw [← hswap] at hwalked hptes ht
    exact ⟨⟨va, ptep, level⟩ :: stops,
      .stop hpos hfind (Option.isSome_of_eq_some hpoison) hwalked,
      by rw [hptes, List.append_assoc]; rfl, ht⟩
  | case4 va remain t ptes hpos ptep level hfind halloc =>
    rw [poisonLoop, if_pos hpos, hfind] at h
    simp only [halloc] at h
    cases h
  | case5 va remain t ptes hpos =>
    rw [poisonLoop_done hpos] at h
    cases h
    exact ⟨[], .done (by omega), by simp [Paging.saved], rfl⟩

theorem exists_offset {stops : List (Stop E L)} (h : Walked p t va remain stops) :
    ∀ s ∈ stops, ∃ k : ℕ, (k : ℤ) < remain ∧ s.va = va + BitVec.ofNat 64 k := by
  induction h with
  | done => simp
  | @stop t va remain ptep level stops hpos hfind hpoison hwalked ih =>
    intro s hs
    rcases List.mem_cons.mp hs with rfl | hmem
    · exact ⟨0, by simpa using hpos, by simp⟩
    · obtain ⟨k, hk, hva⟩ := ih s hmem
      refine ⟨p.size level + k, by push_cast; omega, ?_⟩
      rw [hva, BitVec.ofNat_add, BitVec.add_assoc]

theorem add_ofNat_ne (va : BitVec 64) {k : ℕ} (hpos : 0 < k) (hlt : k < 2 ^ 64) :
    va + BitVec.ofNat 64 k ≠ va := by
  intro h
  have hzero : BitVec.ofNat 64 k = 0 := by simpa using h
  have hnat := congrArg BitVec.toNat hzero
  simp only [BitVec.toNat_ofNat, Nat.mod_eq_of_lt hlt, BitVec.toNat_ofNat] at hnat
  simp at hnat
  omega

theorem swapped_of_notMem {stops : List (Stop E L)} {e : E} (h : ∀ s ∈ stops, s.ptep ≠ e) :
    p.swapped t stops e = t e := by
  induction stops generalizing t with
  | nil => rfl
  | cons s stops ih =>
    have hs : s.ptep ≠ e := h s List.mem_cons_self
    refine (ih fun s' hs' ↦ h s' (List.mem_cons_of_mem s hs')).trans ?_
    exact Function.update_of_ne hs.symm _ _

theorem swapped_congr {stops : List (Stop E L)} {e : E} (h : t e = t' e) :
    p.swapped t stops e = p.swapped t' stops e := by
  induction stops generalizing t t' with
  | nil => exact h
  | cons s stops ih =>
    refine ih ?_
    by_cases hs : e = s.ptep
    · subst hs
      rw [Paging.swap, Paging.swap, Function.update_self, Function.update_self, h]
    · exact (Function.update_of_ne hs _ _).trans (h.trans (Function.update_of_ne hs _ _).symm)

end Runs

end Loop

end Pciem.Trace.Poison
