import Mathlib.Algebra.Order.Ring.Nat
import Mathlib.Data.BitVec
import Pciem.Library.KeyedList
import Pciem.Library.PageWalk
import Pciem.Trace.Poison

namespace Pciem.Trace.Walkers

open Kernel Library Library.PageWalk Context Poison

inductive Level
  | pte
  | pmd
  | pud
deriving DecidableEq

def Level.size : Level → ℕ
  | .pte => pageSize
  | .pmd => pmdSize
  | .pud => pudSize

theorem Level.le_size (level : Level) : pageSize ≤ level.size := by
  cases level with
  | pte | pmd | pud => decide

/-- A walk from the entry that the first table has for an address. -/
structure Walker (E : Type) where
  stages : List (Stage E (BitVec 64) (BitVec 64) Level)
  first : BitVec 64 → E
  sound : Sound stages

section Loops

variable {E : Type} [DecidableEq E] (w : Walker E)

def Walker.find (t : Tables E) (va : BitVec 64) : Option (E × Level) :=
  walk .pte t va w.stages (w.first va)

/-- The entries that are read on the way to the one that is found. -/
def Walker.path (t : Tables E) (va : BitVec 64) : List E :=
  PageWalk.path t va w.stages (w.first va)

/-- An entry is cleared, whatever its level. -/
def Walker.paging : Paging E Level where
  find := w.find
  poisoned _ _ := some 0
  size := Level.size
  le_size _ := Level.le_size _

def restoreLoop (va : BitVec 64) (remain : ℤ) (t : Tables E) (ptes : List (SmptracePte Level)) :
    Tables E × List (SmptracePte Level) :=
  if remain > 0 then
    match w.find t va with
    | none => restoreLoop (va + BitVec.ofNat 64 pageSize) (remain - pageSize) t ptes
    | some (ptep, level) =>
      match smptraceFindPte ptes va with
      | none => restoreLoop (va + BitVec.ofNat 64 level.size) (remain - level.size) t ptes
      | some orig =>
        restoreLoop (va + BitVec.ofNat 64 level.size) (remain - level.size)
          (Function.update t ptep orig.pte) (KeyedList.remove SmptracePte.va va ptes)
  else
    (t, ptes)
termination_by remain.toNat
decreasing_by
  · unfold pageSize
    omega
  · have hle := level.le_size
    unfold pageSize at hle
    omega
  · have hle := level.le_size
    unfold pageSize at hle
    omega

def restorePte (map : SmptraceMap) (t : Tables E) (ptes : List (SmptracePte Level)) :
    Tables E × List (SmptracePte Level) :=
  restoreLoop w map.va map.len.toInt t ptes

end Loops

section Walks

variable {E : Type} {w : Walker E} {t t' : Tables E} {va : BitVec 64} {r : E × Level}

theorem find_of_cleared (h : Cleared t t') (hfind : w.find t' va = some r) :
    w.find t va = some r := by
  have hpath := walk_cleared w.sound h hfind
  rw [← hfind]
  exact (walk_congr fun e he ↦ (hpath e he).1).symm

theorem ne_zero_of_mem_path (h : Cleared t t') (hfind : w.find t' va = some r)
    {e : E} (he : e ∈ w.path t va) : t' e ≠ 0 := by
  obtain ⟨heq, hne⟩ := walk_cleared w.sound h hfind e he
  rwa [heq]

theorem find_congr (h : ∀ e ∈ w.path t va, t' e = t e) : w.find t' va = w.find t va :=
  walk_congr h

end Walks

section Restore

variable {E : Type} [DecidableEq E] {w : Walker E} {t t' u r : Tables E} {va : BitVec 64}
  {remain : ℤ} {stops : List (Stop E Level)}

theorem cleared_swap (h : Cleared t t') (s : Stop E Level) : Cleared t (w.paging.swap t' s) :=
  h.update (.inr rfl)

/-- What has been saved for an address that is not met stays in the list. -/
theorem mem_restoreLoop {ptes : List (SmptracePte Level)} {orig : SmptracePte Level}
    (hmem : orig ∈ ptes)
    (hva : ∀ k : ℕ, (k : ℤ) < remain → va + BitVec.ofNat 64 k ≠ orig.va) :
    orig ∈ (restoreLoop w va remain u ptes).2 := by
  have hnext {remain : ℤ} {va : BitVec 64} (n : ℕ)
      (h : ∀ k : ℕ, (k : ℤ) < remain → va + BitVec.ofNat 64 k ≠ orig.va) :
      ∀ k : ℕ, (k : ℤ) < remain - n → va + BitVec.ofNat 64 n + BitVec.ofNat 64 k ≠ orig.va := by
    intro k hk
    rw [BitVec.add_assoc, ← BitVec.ofNat_add]
    exact h (n + k) (by push_cast; omega)
  fun_induction restoreLoop w va remain u ptes with
  | case1 va remain u ptes hpos hfind ih => exact ih hmem (hnext _ hva)
  | case2 va remain u ptes hpos ptep level hfind hnone ih => exact ih hmem (hnext _ hva)
  | case3 va remain u ptes hpos ptep level hfind orig' hsome ih =>
    refine ih ?_ (hnext _ hva)
    have hne : orig.va ≠ va := by
      simpa using (hva 0 (by simpa using hpos)).symm
    exact (List.mem_eraseP_of_neg (by simpa using hne)).mpr hmem
  | case4 va remain u ptes hpos => exact hmem

variable (w) in
/-- Every stop finds its entry again. -/
def Finds : Tables E → Tables E → List (Stop E Level) → Prop
  | _, _, [] => True
  | u, t, s :: stops => w.find u s.va = some (s.ptep, s.level) ∧
      Finds (Function.update u s.ptep (t s.ptep)) (w.paging.swap t s) stops

variable (w) in
/-- What is written back: the values that the stops have found. -/
def restored : Tables E → Tables E → List (Stop E Level) → Tables E
  | u, _, [] => u
  | u, t, s :: stops =>
    restored (Function.update u s.ptep (t s.ptep)) (w.paging.swap t s) stops

/-- The list is empty in the end just where the second loop finds what the first has found. -/
theorem restoreLoop_eq_iff {t₀ : Tables E} (hremain : remain < 2 ^ 64)
    (hwalked : Walked w.paging t va remain stops) (ht : Cleared t₀ t) (hu : Cleared t₀ u) :
    restoreLoop w va remain u (w.paging.saved t stops) = (r, []) ↔
      Finds w u t stops ∧ restored w u t stops = r := by
  induction hwalked generalizing u with
  | done hle =>
    rw [restoreLoop, if_neg (by omega)]
    simp [Paging.saved, Finds, restored]
  | @stop t va remain ptep level stops hpos hfind hpoison hwalked ih =>
    have hsize := level.le_size
    have hvalue : t ptep = t₀ ptep ∨ t ptep = 0 := ht ptep
    have hfound : smptraceFindPte (w.paging.saved t (⟨va, ptep, level⟩ :: stops)) va =
        some ⟨va, level, t ptep⟩ := by
      simp [smptraceFindPte, Paging.saved]
    have hremove : KeyedList.remove SmptracePte.va va
        (w.paging.saved t (⟨va, ptep, level⟩ :: stops)) =
          w.paging.saved (w.paging.swap t ⟨va, ptep, level⟩) stops := by
      simp [KeyedList.remove, Paging.saved]
    cases hu' : w.find u va with
    | none =>
      have hstay : (⟨va, level, t ptep⟩ : SmptracePte Level) ∈
          (restoreLoop w va remain u (w.paging.saved t (⟨va, ptep, level⟩ :: stops))).2 := by
        rw [restoreLoop, if_pos hpos, hu']
        refine mem_restoreLoop (by simp [Paging.saved]) fun k hk ↦ ?_
        rw [BitVec.add_assoc, ← BitVec.ofNat_add]
        unfold pageSize at hk ⊢
        exact add_ofNat_ne va (by omega) (by omega)
      constructor
      · intro h
        rw [h] at hstay
        simp at hstay
      · rintro ⟨⟨h, -⟩, -⟩
        rw [hu'] at h
        cases h
    | some r' =>
      have hsame : r' = (ptep, level) := by
        have h := find_of_cleared ht hfind
        have h' := find_of_cleared hu hu'
        rw [h] at h'
        exact (Option.some.inj h').symm
      subst hsame
      rw [restoreLoop, if_pos hpos, hu']
      simp only [hfound, hremove]
      have hle : remain - level.size < 2 ^ 64 := by omega
      refine (ih hle (cleared_swap ht _) (hu.update hvalue)).trans ?_
      simp only [Finds, restored, hu', true_and]

theorem swapped_eq_zero {e : E} (h : t e = 0 ∨ ∃ s ∈ stops, s.ptep = e) :
    w.paging.swapped t stops e = 0 := by
  induction stops generalizing t with
  | nil => exact h.resolve_right (by simp)
  | cons s stops ih =>
    refine ih ?_
    by_cases hs : e = s.ptep
    · exact .inl (by rw [hs]; exact Function.update_self ..)
    · rcases h with hzero | ⟨s', hs', heq⟩
      · exact .inl ((Function.update_of_ne hs _ _).trans hzero)
      · rcases List.mem_cons.mp hs' with rfl | hmem
        · exact absurd heq.symm hs
        · exact .inr ⟨s', hmem, heq⟩

/-- An entry that is clear is on no way to an entry that is found. -/
theorem notMem_path {t₀ : Tables E} {e : E} (hwalked : Walked w.paging t va remain stops)
    (ht : Cleared t₀ t) (he : t e = 0) : ∀ s ∈ stops, e ∉ w.path t₀ s.va := by
  induction hwalked with
  | done => simp
  | @stop t va remain ptep level stops hpos hfind hpoison hwalked ih =>
    intro s hs
    rcases List.mem_cons.mp hs with rfl | hmem
    · exact fun hpath ↦ ne_zero_of_mem_path ht hfind hpath he
    · refine ih (cleared_swap ht _) ?_ s hmem
      by_cases heq : e = ptep
      · rw [heq]
        exact Function.update_self ..
      · exact (Function.update_of_ne heq _ _).trans he

theorem notMem_path_of_finds {t₀ : Tables E} {e : E}
    (hwalked : Walked w.paging t va remain stops) (ht : Cleared t₀ t) (hu : Cleared t₀ u)
    (hfinds : Finds w u t stops) (he : u e = 0) : ∀ s ∈ stops, e ∉ w.path t₀ s.va := by
  induction hwalked generalizing u with
  | done => simp
  | @stop t va remain ptep level stops hpos hfind hpoison hwalked ih =>
    intro s hs
    rcases List.mem_cons.mp hs with rfl | hmem
    · exact fun hpath ↦ ne_zero_of_mem_path hu hfinds.1 hpath he
    · by_cases heq : e = ptep
      · refine notMem_path hwalked (cleared_swap ht _) ?_ s hmem
        rw [heq]
        exact Function.update_self ..
      · exact ih (cleared_swap ht _) (hu.update (ht ptep)) hfinds.2
          ((Function.update_of_ne heq _ _).trans he) s hmem

/-- The entries that are found are on no way to one. -/
def Apart (w : Walker E) (t : Tables E) (stops : List (Stop E Level)) : Prop :=
  ∀ s ∈ stops, ∀ s' ∈ stops, s'.ptep ∉ w.path t s.va

theorem finds_of_apart {t₀ : Tables E} (all : List (Stop E Level))
    (hu : ∀ e, (∀ s ∈ all, s.ptep ≠ e) → u e = t₀ e) (hsub : ∀ s ∈ stops, s ∈ all)
    (hwalked : Walked w.paging t va remain stops) (ht : Cleared t₀ t) (h : Apart w t₀ all) :
    Finds w u t stops := by
  induction hwalked generalizing u with
  | done => trivial
  | @stop t va remain ptep level stops hpos hfind hpoison hwalked ih =>
    have hmem : ⟨va, ptep, level⟩ ∈ all := hsub _ List.mem_cons_self
    refine ⟨?_, ih (fun e he ↦ ?_) (fun s hs ↦ hsub s (List.mem_cons_of_mem _ hs))
      (cleared_swap ht _)⟩
    · rw [find_congr fun e he ↦ hu e fun s hs heq ↦ h _ hmem s hs (heq ▸ he)]
      exact find_of_cleared ht hfind
    · exact (Function.update_of_ne (he _ hmem).symm _ _).trans (hu e he)

theorem cleared_swapped (t : Tables E) (stops : List (Stop E Level)) :
    Cleared t (w.paging.swapped t stops) := by
  intro e
  by_cases he : ∃ s ∈ stops, s.ptep = e
  · exact .inr (swapped_eq_zero (.inr he))
  · exact .inl (swapped_of_notMem fun s hs heq ↦ he ⟨s, hs, heq⟩)

theorem finds_iff (hwalked : Walked w.paging t va remain stops) :
    Finds w (w.paging.swapped t stops) t stops ↔ Apart w t stops := by
  constructor
  · intro h s hs s' hs'
    exact notMem_path_of_finds hwalked (.refl t) (cleared_swapped t stops) h
      (swapped_eq_zero (.inr ⟨s', hs', rfl⟩)) s hs
  · exact finds_of_apart stops (fun e he ↦ swapped_of_notMem he) (fun _ hs ↦ hs) hwalked (.refl t)

theorem restored_of_notMem {e : E} (h : ∀ s ∈ stops, s.ptep ≠ e) :
    restored w u t stops e = u e := by
  induction stops generalizing u t with
  | nil => rfl
  | cons s stops ih =>
    have hs : s.ptep ≠ e := h s List.mem_cons_self
    refine (ih fun s' hs' ↦ h s' (List.mem_cons_of_mem s hs')).trans ?_
    exact Function.update_of_ne hs.symm _ _

/-- What has been clear is clear again, whatever it has been in between. -/
theorem restored_eq_zero {e : E} (ht : t e = 0) (h : ∃ s ∈ stops, s.ptep = e) :
    restored w u t stops e = 0 := by
  induction stops generalizing u t with
  | nil => simp at h
  | cons s stops ih =>
    have hswap : w.paging.swap t s e = 0 := by
      by_cases hs : e = s.ptep
      · rw [hs]
        exact Function.update_self ..
      · exact (Function.update_of_ne hs _ _).trans ht
    by_cases hrest : ∃ s' ∈ stops, s'.ptep = e
    · exact ih hswap hrest
    · obtain ⟨s', hs', heq⟩ := h
      have hs : s.ptep = e := by
        rcases List.mem_cons.mp hs' with rfl | hmem
        · exact heq
        · exact absurd ⟨s', hmem, heq⟩ hrest
      refine (restored_of_notMem fun s' hs' heq ↦ hrest ⟨s', hs', heq⟩).trans ?_
      rw [hs, Function.update_self]
      exact ht

/-- An entry that is found twice is clear. -/
def Once (t : Tables E) (stops : List (Stop E Level)) : Prop :=
  stops.Pairwise fun s s' ↦ s.ptep = s'.ptep → t s.ptep = 0

theorem restored_of_once {e : E} (honce : Once t stops) (h : ∃ s ∈ stops, s.ptep = e) :
    restored w u t stops e = t e := by
  induction stops generalizing u t with
  | nil => simp at h
  | cons s stops ih =>
    rw [Once, List.pairwise_cons] at honce
    by_cases hs : s.ptep = e
    · subst hs
      by_cases hrest : ∃ s' ∈ stops, s'.ptep = s.ptep
      · obtain ⟨s', hs', heq⟩ := hrest
        rw [honce.1 s' hs' heq.symm, restored]
        exact restored_eq_zero (Function.update_self ..) ⟨s', hs', heq⟩
      · refine (restored_of_notMem fun s' hs' heq ↦ hrest ⟨s', hs', heq⟩).trans ?_
        exact Function.update_self ..
    · obtain ⟨s', hs', heq⟩ := h
      have hmem : s' ∈ stops := by
        rcases List.mem_cons.mp hs' with rfl | hmem
        · exact absurd heq hs
        · exact hmem
      have hne : ∀ e', e' ≠ s.ptep → w.paging.swap t s e' = t e' :=
        fun e' he' ↦ Function.update_of_ne he' _ _
      rw [← hne e (Ne.symm hs)]
      refine ih ?_ ⟨s', hmem, heq⟩
      refine honce.2.imp fun {a b} hab heq' ↦ ?_
      by_cases ha : a.ptep = s.ptep
      · rw [ha]
        exact Function.update_self ..
      · exact (hne _ ha).trans (hab heq')

theorem once_of_restored
    (h : ∀ e, (∃ s ∈ stops, s.ptep = e) → restored w u t stops e = t e) : Once t stops := by
  induction stops generalizing u t with
  | nil => exact List.Pairwise.nil
  | cons s stops ih =>
    have hself : w.paging.swap t s s.ptep = 0 := Function.update_self ..
    have hne : ∀ e, e ≠ s.ptep → w.paging.swap t s e = t e :=
      fun e he ↦ Function.update_of_ne he _ _
    have hhead : ∀ s' ∈ stops, s.ptep = s'.ptep → t s.ptep = 0 := by
      intro s' hs' heq
      rw [← h s.ptep ⟨s, List.mem_cons_self, rfl⟩, restored]
      exact restored_eq_zero hself ⟨s', hs', heq.symm⟩
    have hrest : Once (w.paging.swap t s) stops := by
      refine ih (u := Function.update u s.ptep (t s.ptep)) ?_
      rintro e ⟨s', hs', rfl⟩
      by_cases heq : s'.ptep = s.ptep
      · rw [heq, hself]
        exact restored_eq_zero hself ⟨s', hs', heq⟩
      · rw [hne _ heq]
        exact h s'.ptep ⟨s', List.mem_cons_of_mem s hs', rfl⟩
    refine List.pairwise_cons.mpr ⟨hhead, ?_⟩
    refine List.Pairwise.imp_of_mem (fun {a b} ha hb hab heq ↦ ?_) hrest
    by_cases hs : a.ptep = s.ptep
    · rw [hs]
      exact hhead a ha hs.symm
    · rw [← hne _ hs]
      exact hab heq

theorem restored_eq_iff :
    restored w (w.paging.swapped t stops) t stops = t ↔ Once t stops := by
  constructor
  · exact fun h ↦ once_of_restored fun e _ ↦ congrFun h e
  · intro h
    funext e
    by_cases he : ∃ s ∈ stops, s.ptep = e
    · exact restored_of_once h he
    · have hnone : ∀ s ∈ stops, s.ptep ≠ e := fun s hs heq ↦ he ⟨s, hs, heq⟩
      rw [restored_of_notMem hnone, swapped_of_notMem hnone]

end Restore

section Pages

variable {E : Type} [DecidableEq E] {w : Walker E} {t t' : Tables E} {va : BitVec 64}
  {remain : ℤ} {stops : List (Stop E Level)} {map : SmptraceMap}

def pageAt (va : BitVec 64) (i : ℕ) : BitVec 64 := va + BitVec.ofNat 64 (pageSize * i)

theorem pageAt_succ (va : BitVec 64) (i : ℕ) :
    pageAt va (i + 1) = pageAt (va + BitVec.ofNat 64 pageSize) i := by
  rw [pageAt, pageAt, BitVec.add_assoc, ← BitVec.ofNat_add, Nat.mul_succ, Nat.add_comm]

/-- The map has the page. -/
def HasPage (map : SmptraceMap) (i : ℕ) : Prop := ((pageSize * i : ℕ) : ℤ) < map.len.toInt

/-- Each page of a map has an entry of its own in a last table, unless the entry is clear, and no
such entry is on the way to one. -/
structure Recoverable (w : Walker E) (t : Tables E) (map : SmptraceMap) : Prop where
  page : ∀ i, HasPage map i → ∃ e, w.find t (pageAt map.va i) = some (e, .pte)
  once : ∀ i j e, i < j → HasPage map j → w.find t (pageAt map.va i) = some (e, .pte) →
    w.find t (pageAt map.va j) = some (e, .pte) → t e = 0
  apart : ∀ i j e, HasPage map i → HasPage map j →
    w.find t (pageAt map.va i) = some (e, .pte) → e ∉ w.path t (pageAt map.va j)

/-- What a stop finds is what it would have found before. -/
theorem find_stop {t₀ : Tables E} (h : Walked w.paging t va remain stops) (ht : Cleared t₀ t) :
    ∀ s ∈ stops, w.find t₀ s.va = some (s.ptep, s.level) := by
  induction h with
  | done => simp
  | stop hpos hfind hpoison hwalked ih =>
    intro s hs
    rcases List.mem_cons.mp hs with rfl | hmem
    · exact find_of_cleared ht hfind
    · exact ih (cleared_swap ht _) s hmem

/-- Where each stop is in a last table, the stops are the pages. -/
theorem stops_are_pages (h : Walked w.paging t va remain stops)
    (hlevel : ∀ s ∈ stops, s.level = .pte) :
    (∀ i (hi : i < stops.length), stops[i].va = pageAt va i) ∧
      ∀ i, i < stops.length ↔ ((pageSize * i : ℕ) : ℤ) < remain := by
  induction h with
  | done hle =>
    refine ⟨fun i hi ↦ absurd hi (Nat.not_lt_zero i),
      fun i ↦ ⟨fun hi ↦ absurd hi (Nat.not_lt_zero i), fun hi ↦ ?_⟩⟩
    omega
  | @stop t va remain ptep level stops hpos hfind hpoison hwalked ih =>
    have hpte : level = .pte := hlevel _ List.mem_cons_self
    subst hpte
    obtain ⟨hva, hlength⟩ := ih fun s hs ↦ hlevel s (List.mem_cons_of_mem _ hs)
    constructor
    · intro i hi
      cases i with
      | zero => simp [pageAt]
      | succ i =>
        rw [pageAt_succ, List.getElem_cons_succ]
        exact hva i (by simpa using hi)
    · intro i
      cases i with
      | zero => simpa using hpos
      | succ i =>
        rw [List.length_cons, Nat.succ_lt_succ_iff, hlength i, Nat.mul_succ]
        change ((pageSize * i : ℕ) : ℤ) < remain - (pageSize : ℕ) ↔ _
        omega

theorem find_page (h : Walked w.paging t va remain stops) (hlevel : ∀ s ∈ stops, s.level = .pte)
    (i : ℕ) (hi : i < stops.length) :
    w.find t (pageAt va i) = some (stops[i].ptep, .pte) := by
  rw [← (stops_are_pages h hlevel).1 i hi, find_stop h (.refl t) _ (List.getElem_mem hi),
    hlevel _ (List.getElem_mem hi)]

theorem level_of_pages {t₀ : Tables E} (h : Walked w.paging t va remain stops)
    (ht : Cleared t₀ t) (hpage : ∀ i : ℕ, ((pageSize * i : ℕ) : ℤ) < remain →
      ∃ e, w.find t₀ (pageAt va i) = some (e, .pte)) :
    ∀ s ∈ stops, s.level = .pte := by
  induction h with
  | done => simp
  | @stop t va remain ptep level stops hpos hfind hpoison hwalked ih =>
    have hpte : level = .pte := by
      obtain ⟨e, he⟩ := hpage 0 (by simpa using hpos)
      have hfirst : pageAt va 0 = va := by simp [pageAt]
      rw [hfirst, find_of_cleared ht hfind] at he
      cases he
      rfl
    subst hpte
    intro s hs
    rcases List.mem_cons.mp hs with rfl | hmem
    · rfl
    · refine ih (cleared_swap ht _) (fun i hi ↦ ?_) s hmem
      have hlt : ((pageSize * i : ℕ) : ℤ) < remain - (pageSize : ℕ) := hi
      obtain ⟨e, he⟩ := hpage (i + 1) (by rw [Nat.mul_succ]; omega)
      exact ⟨e, by rwa [pageAt_succ] at he⟩

theorem recoverable_iff (h : Walked w.paging t map.va map.len.toInt stops) :
    Apart w t stops ∧ Once t stops ↔ Recoverable w t map := by
  constructor
  · rintro ⟨hapart, honce⟩
    have hlevel : ∀ s ∈ stops, s.level = .pte := fun s hs ↦
      (mem_path_of_walk (find_stop h (.refl t) s hs)).resolve_right (hapart s hs s hs)
    obtain ⟨hva, hlength⟩ := stops_are_pages h hlevel
    have hstop := find_page h hlevel
    have hentry : ∀ i (hi : i < stops.length) e, w.find t (pageAt map.va i) = some (e, .pte) →
        stops[i].ptep = e := by
      intro i hi e he
      rw [hstop i hi] at he
      cases he
      rfl
    refine ⟨fun i hi ↦ ⟨_, hstop i ((hlength i).mpr hi)⟩, fun i j e hij hj hi' hj' ↦ ?_,
      fun i j e hi hj hi' ↦ ?_⟩
    · have hj'' : j < stops.length := (hlength j).mpr hj
      have hi'' : i < stops.length := hij.trans hj''
      have hzero := List.pairwise_iff_getElem.mp honce i j hi'' hj'' hij
        ((hentry i hi'' e hi').trans (hentry j hj'' e hj').symm)
      rwa [hentry i hi'' e hi'] at hzero
    · have hi'' : i < stops.length := (hlength i).mpr hi
      have hj'' : j < stops.length := (hlength j).mpr hj
      have hne := hapart _ (List.getElem_mem hj'') _ (List.getElem_mem hi'')
      rwa [hentry i hi'' e hi', hva j hj''] at hne
  · intro hr
    have hlevel := level_of_pages h (.refl t) hr.page
    obtain ⟨hva, hlength⟩ := stops_are_pages h hlevel
    have hstop := find_page h hlevel
    constructor
    · intro s hs s' hs'
      obtain ⟨i, hi, rfl⟩ := List.getElem_of_mem hs
      obtain ⟨j, hj, rfl⟩ := List.getElem_of_mem hs'
      rw [hva i hi]
      exact hr.apart j i _ ((hlength j).mp hj) ((hlength i).mp hi) (hstop j hj)
    · refine List.pairwise_iff_getElem.mpr fun i j hi hj hij heq ↦ ?_
      refine hr.once i j _ hij ((hlength j).mp hj) (hstop i hi) ?_
      rw [hstop j hj, heq]

/-- The table is as it was and the list is empty just where the map is one that can be recovered. -/
theorem restorePte_iff {kzalloc : ℕ → Bool} {ptes : List (SmptracePte Level)}
    (h : poisonPte w.paging kzalloc map t = (.ok ptes, t')) :
    restorePte w map t' ptes = (t, []) ↔ Recoverable w t map := by
  obtain ⟨stops, hwalked, rfl, rfl⟩ := walked_of_poisonLoop h
  have hremain : map.len.toInt < 2 ^ 64 := by
    have := map.len.toInt_lt
    omega
  rw [List.nil_append, restorePte,
    restoreLoop_eq_iff hremain hwalked (.refl t) (cleared_swapped t stops), finds_iff hwalked,
    restored_eq_iff, recoverable_iff hwalked]

end Pages

end Pciem.Trace.Walkers
