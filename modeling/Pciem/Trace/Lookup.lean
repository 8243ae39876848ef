import Pciem.Library.KeyedList
import Pciem.Trace.Poison

namespace Pciem.Trace.Lookup

open Kernel Library Context Poison

/-- The levels that `lookup_address` gives an entry. -/
inductive PgLevel
  | l4K
  | l2M
  | l1G
  | l512G
deriving DecidableEq

/-- There is no result where the kernel runs into `BUG`. -/
def level2size : PgLevel → Option ℕ
  | .l4K => some pageSize
  | .l2M => some pmdSize
  | .l1G => some pudSize
  | .l512G => none

def swapPte (pmdMkinvalid pudMkinvalid : BitVec 64 → BitVec 64) :
    PgLevel → BitVec 64 → Option (BitVec 64)
  | .l4K, _ => some 0
  | .l2M, pmd => some (pmdMkinvalid pmd)
  | .l1G, pud => some (pudMkinvalid pud)
  | .l512G, _ => none

/-- What the kernel has for the tables of x86: an entry of 4K is found whatever its value is, and a
larger one also where it is not present, as it is not clear. -/
structure X86Pgtable (E : Type) [DecidableEq E] where
  lookupAddress : Tables E → BitVec 64 → Option (E × PgLevel)
  pmdMkinvalid : BitVec 64 → BitVec 64
  pudMkinvalid : BitVec 64 → BitVec 64
  lookup_update : ∀ {t va va' ptep level pte}, lookupAddress t va = some (ptep, level) →
    swapPte pmdMkinvalid pudMkinvalid level (t ptep) = some pte →
    lookupAddress (Function.update t ptep pte) va' = lookupAddress t va'

section Loops

variable {E : Type} [DecidableEq E] (k : X86Pgtable E)

theorem level2size_isSome {f g : BitVec 64 → BitVec 64} {level : PgLevel} {value : BitVec 64}
    (h : (swapPte f g level value).isSome) :
    ∃ size, level2size level = some size ∧ pageSize ≤ size := by
  cases level with
  | l4K | l2M | l1G => exact ⟨_, rfl, by decide⟩
  | l512G => cases h

def X86Pgtable.paging : Paging E PgLevel where
  find := k.lookupAddress
  poisoned := swapPte k.pmdMkinvalid k.pudMkinvalid
  size level := (level2size level).getD 0
  le_size h := by
    obtain ⟨size, hsize, hle⟩ := level2size_isSome h
    rwa [hsize]

theorem pos_of_level2size {level : PgLevel} {size : ℕ} (h : level2size level = some size) :
    0 < size := by
  cases level with
  | l4K | l2M | l1G =>
    cases h
    decide
  | l512G => cases h

/-- The loop is left where the level is not known. -/
def restoreLoop (va : BitVec 64) (remain : ℤ) (t : Tables E) (ptes : List (SmptracePte PgLevel)) :
    Option (Tables E × List (SmptracePte PgLevel)) :=
  if remain > 0 then
    match k.lookupAddress t va with
    | none => restoreLoop (va + BitVec.ofNat 64 pageSize) (remain - pageSize) t ptes
    | some (ptep, level) =>
      match smptraceFindPte ptes va with
      | none =>
        match _h : level2size level with
        | none => none
        | some size => restoreLoop (va + BitVec.ofNat 64 size) (remain - size) t ptes
      | some orig =>
        let ptes := KeyedList.remove SmptracePte.va va ptes
        match level2size level with
        | none => some (t, ptes)
        | some _ =>
          match _h : level2size orig.level with
          | none => none
          | some size =>
            restoreLoop (va + BitVec.ofNat 64 size) (remain - size)
              (Function.update t ptep orig.pte) ptes
  else
    some (t, ptes)
termination_by remain.toNat
decreasing_by
  · unfold pageSize
    omega
  · have hpos := pos_of_level2size _h
    omega
  · have hpos := pos_of_level2size _h
    omega

def poisonPte (kzalloc : ℕ → Bool) (map : SmptraceMap) (t : Tables E) :
    Except Errno (List (SmptracePte PgLevel)) × Tables E :=
  Poison.poisonPte k.paging kzalloc map t

def restorePte (map : SmptraceMap) (t : Tables E) (ptes : List (SmptracePte PgLevel)) :
    Option (Tables E × List (SmptracePte PgLevel)) :=
  restoreLoop k map.va map.len.toInt t ptes

end Loops

section Restore

variable {E : Type} [DecidableEq E] {k : X86Pgtable E} {t t' : Tables E} {va : BitVec 64}
  {remain : ℤ} {stops : List (Stop E PgLevel)}

/-- What a stop is to find in a table. -/
def Finds (k : X86Pgtable E) (t : Tables E) (s : Stop E PgLevel) : Prop :=
  k.lookupAddress t s.va = some (s.ptep, s.level) ∧ ∃ size, level2size s.level = some size

theorem Finds.isSome {s : Stop E PgLevel} (h : Finds k t s) (value : BitVec 64) :
    ∃ pte, swapPte k.pmdMkinvalid k.pudMkinvalid s.level value = some pte := by
  obtain ⟨-, size, hsize⟩ := h
  cases hlevel : s.level with
  | l4K | l2M | l1G => exact ⟨_, rfl⟩
  | l512G =>
    rw [hlevel] at hsize
    cases hsize

theorem lookup_swap {s : Stop E PgLevel} (h : Finds k t s) (va : BitVec 64) :
    k.lookupAddress (k.paging.swap t s) va = k.lookupAddress t va := by
  obtain ⟨pte, hpte⟩ := h.isSome (t s.ptep)
  have hswap : k.paging.swap t s = Function.update t s.ptep pte := by
    change Function.update t s.ptep ((swapPte _ _ s.level (t s.ptep)).getD 0) = _
    rw [hpte, Option.getD_some]
  rw [hswap]
  exact k.lookup_update h.1 hpte

theorem Finds.of_swap {s s' : Stop E PgLevel} (h : Finds k t s) :
    Finds k (k.paging.swap t s) s' ↔ Finds k t s' := by
  rw [Finds, lookup_swap h, Finds]

theorem lookup_swapped (h : ∀ s ∈ stops, Finds k t s) (va : BitVec 64) :
    k.lookupAddress (k.paging.swapped t stops) va = k.lookupAddress t va := by
  induction stops generalizing t with
  | nil => rfl
  | cons s stops ih =>
    have hs : Finds k t s := h s List.mem_cons_self
    refine (ih fun s' hs' ↦ ?_).trans (lookup_swap hs va)
    exact hs.of_swap.mpr (h s' (List.mem_cons_of_mem s hs'))

theorem finds_of_walked (h : Walked k.paging t va remain stops) : ∀ s ∈ stops, Finds k t s := by
  induction h with
  | done => simp
  | @stop t va remain ptep level stops hpos hfind hpoison hwalked ih =>
    obtain ⟨size, hsize, -⟩ := level2size_isSome hpoison
    have hfirst : Finds k t ⟨va, ptep, level⟩ := ⟨hfind, size, hsize⟩
    intro s hs
    rcases List.mem_cons.mp hs with rfl | hmem
    · exact hfirst
    · exact hfirst.of_swap.mp (ih s hmem)

/-- In a range an entry is for the addresses of one block. -/
def OwnBlocks (k : X86Pgtable E) (t : Tables E) (va : BitVec 64) (remain : ℤ) : Prop :=
  ∀ (i j : ℕ) (ptep : E) (level level' : PgLevel) (size : ℕ), (i : ℤ) < remain → (j : ℤ) < remain →
    k.lookupAddress t (va + BitVec.ofNat 64 i) = some (ptep, level) →
    k.lookupAddress t (va + BitVec.ofNat 64 j) = some (ptep, level') →
    level2size level = some size →
    (va + BitVec.ofNat 64 i).toNat / size = (va + BitVec.ofNat 64 j).toNat / size

theorem OwnBlocks.tail (h : OwnBlocks k t va remain) (size : ℕ) :
    OwnBlocks k t (va + BitVec.ofNat 64 size) (remain - size) := by
  intro i j ptep level level' size' hi hj hi' hj' hsize'
  rw [BitVec.add_assoc, ← BitVec.ofNat_add] at hi' hj' ⊢
  rw [BitVec.add_assoc, ← BitVec.ofNat_add]
  exact h _ _ ptep level level' size' (by push_cast; omega) (by push_cast; omega) hi' hj' hsize'

/-- The block of an address ends before what is one size further on. -/
theorem block_ne (va : BitVec 64) {size d : ℕ} (hpos : 0 < size) (hle : size ≤ d)
    (hlt : d < 2 ^ 63) : va.toNat / size ≠ (va + BitVec.ofNat 64 d).toNat / size := by
  intro h
  have hx := Nat.div_add_mod va.toNat size
  have hy := Nat.div_add_mod (va + BitVec.ofNat 64 d).toNat size
  have hxlt := Nat.mod_lt va.toNat hpos
  have hylt := Nat.mod_lt (va + BitVec.ofNat 64 d).toNat hpos
  have hva := va.isLt
  rw [h] at hx
  rw [BitVec.toNat_add, BitVec.toNat_ofNat, Nat.mod_eq_of_lt (a := d) (by omega)] at *
  generalize size * ((va.toNat + d) % 2 ^ 64 / size) = q at hx hy
  generalize va.toNat % size = r at hx hxlt
  generalize (va.toNat + d) % 2 ^ 64 % size = r' at hy hylt
  omega

/-- No entry is poisoned twice. -/
theorem ptep_ne (h : Walked k.paging t va remain stops) (hremain : remain < 2 ^ 63)
    (hown : OwnBlocks k t va remain) : stops.Pairwise fun s s' ↦ s.ptep ≠ s'.ptep := by
  induction h with
  | done => exact List.Pairwise.nil
  | @stop t va remain ptep level stops hpos hfind hpoison hwalked ih =>
    obtain ⟨size, hsize, -⟩ := level2size_isSome hpoison
    have hpaging : k.paging.size level = size := by
      change (level2size level).getD 0 = size
      rw [hsize, Option.getD_some]
    rw [hpaging] at hwalked ih
    have hfirst : Finds k t ⟨va, ptep, level⟩ := ⟨hfind, size, hsize⟩
    have hsame := lookup_swap hfirst
    have hrest : OwnBlocks k (k.paging.swap t ⟨va, ptep, level⟩) (va + BitVec.ofNat 64 size)
        (remain - size) := by
      unfold OwnBlocks
      simp only [hsame]
      exact hown.tail size
    refine List.pairwise_cons.mpr ⟨fun s hs heq ↦ ?_, ih (by omega) hrest⟩
    obtain ⟨i, hi, hva⟩ := exists_offset hwalked s hs
    have hfinds := (finds_of_walked hwalked s hs).1
    rw [hsame, hva, BitVec.add_assoc, ← BitVec.ofNat_add, ← heq] at hfinds
    have hzero : va + BitVec.ofNat 64 0 = va := BitVec.add_zero va
    have hblock := hown 0 (size + i) ptep level s.level size (by simpa using hpos)
      (by push_cast; omega) (hzero.symm ▸ hfirst.1) hfinds hsize
    rw [hzero] at hblock
    exact block_ne va (pos_of_level2size hsize) (by omega) (by omega) hblock

theorem saved_eq (h : stops.Pairwise fun s s' ↦ s.ptep ≠ s'.ptep) : k.paging.saved t stops =
    stops.map fun s ↦ ⟨s.va, s.level, t s.ptep⟩ := by
  induction stops generalizing t with
  | nil => rfl
  | cons s stops ih =>
    rw [List.pairwise_cons] at h
    rw [Paging.saved, List.map_cons, ih h.2]
    congr 1
    refine List.map_congr_left fun s' hs' ↦ ?_
    rw [Paging.swap, Function.update_of_ne (h.1 s' hs').symm]

/-- Writing the first of the saved values back leaves what the other stops have poisoned. -/
theorem update_swapped {s : Stop E PgLevel} (h : ∀ s' ∈ stops, s.ptep ≠ s'.ptep) :
    Function.update (k.paging.swapped t (s :: stops)) s.ptep (t s.ptep) =
      k.paging.swapped t stops := by
  funext e
  by_cases he : e = s.ptep
  · subst he
    rw [Function.update_self, swapped_of_notMem fun s' hs' ↦ (h s' hs').symm]
  · rw [Function.update_of_ne he]
    exact swapped_congr (Function.update_of_ne he _ _)

theorem restoreLoop_found {u : Tables E} {ptes : List (SmptracePte PgLevel)} {ptep : E}
    {level : PgLevel} {orig : SmptracePte PgLevel} {size : ℕ} (hpos : 0 < remain)
    (hlookup : k.lookupAddress u va = some (ptep, level))
    (hfound : smptraceFindPte ptes va = some orig) (hlevel : orig.level = level)
    (hsize : level2size level = some size) :
    restoreLoop k va remain u ptes =
      restoreLoop k (va + BitVec.ofNat 64 size) (remain - size) (Function.update u ptep orig.pte)
        (KeyedList.remove SmptracePte.va va ptes) := by
  rw [restoreLoop, if_pos hpos, hlookup]
  simp only [hfound, hsize]
  split
  · next hnone => simp [hlevel, hsize] at hnone
  · next size' hsome =>
    rw [hlevel, hsize, Option.some.injEq] at hsome
    rw [hsome]

/-- The second loop finds what the first has found, as long as it goes. -/
theorem restoreLoop_eq {t₀ : Tables E} (hwalked : Walked k.paging t va remain stops)
    (hfinds : ∀ s ∈ stops, Finds k t₀ s) (hremain : remain < 2 ^ 63)
    (hne : stops.Pairwise fun s s' ↦ s.ptep ≠ s'.ptep) :
    restoreLoop k va remain (k.paging.swapped t₀ stops)
      (stops.map fun s ↦ ⟨s.va, s.level, t₀ s.ptep⟩) = some (t₀, []) := by
  induction hwalked with
  | done hle =>
    rw [restoreLoop, if_neg (by omega)]
    rfl
  | @stop t va remain ptep level stops hpos hfind hpoison hwalked ih =>
    obtain ⟨size, hsize, -⟩ := level2size_isSome hpoison
    have hpaging : k.paging.size level = size := by
      change (level2size level).getD 0 = size
      rw [hsize, Option.getD_some]
    rw [hpaging] at hwalked ih
    rw [List.pairwise_cons] at hne
    have hlookup := (lookup_swapped hfinds va).trans (hfinds _ List.mem_cons_self).1
    have hrest := ih (fun s hs ↦ hfinds s (List.mem_cons_of_mem _ hs)) (by omega) hne.2
    have hfound : smptraceFindPte ((⟨va, ptep, level⟩ :: stops : List (Stop E PgLevel)).map
        fun s ↦ ⟨s.va, s.level, t₀ s.ptep⟩) va = some ⟨va, level, t₀ ptep⟩ := by
      simp [smptraceFindPte]
    have hremove : KeyedList.remove SmptracePte.va va
        ((⟨va, ptep, level⟩ :: stops : List (Stop E PgLevel)).map
          fun s ↦ (⟨s.va, s.level, t₀ s.ptep⟩ : SmptracePte PgLevel)) =
            stops.map fun s ↦ ⟨s.va, s.level, t₀ s.ptep⟩ := by
      simp [KeyedList.remove]
    rw [restoreLoop_found hpos hlookup hfound rfl hsize, hremove]
    exact (congrArg (restoreLoop k _ _ · _) (update_swapped hne.1)).trans hrest

/-- Where poisoning has not failed, restoring leaves the tables as they were, and the list empty. -/
theorem restore_undoes {kzalloc : ℕ → Bool} {map : SmptraceMap}
    {ptes : List (SmptracePte PgLevel)} (hown : OwnBlocks k t map.va map.len.toInt)
    (h : poisonPte k kzalloc map t = (.ok ptes, t')) :
    restorePte k map t' ptes = some (t, []) := by
  obtain ⟨stops, hwalked, rfl, rfl⟩ := walked_of_poisonLoop h
  have hremain : map.len.toInt < 2 ^ 63 := map.len.toInt_lt
  have hne := ptep_ne hwalked hremain hown
  rw [List.nil_append, saved_eq hne]
  exact restoreLoop_eq hwalked (finds_of_walked hwalked) hremain hne

/-- Blocks of 2M take turns with pages of 4K. -/
def mixed : X86Pgtable (PgLevel × BitVec 64) where
  lookupAddress _ va :=
    if (va >>> 21) &&& 1 = 0 then some ((.l2M, va >>> 21), .l2M)
    else some ((.l4K, va >>> 12), .l4K)
  pmdMkinvalid pmd := pmd &&& ~~~0x101
  pudMkinvalid pud := pud &&& ~~~0x101
  lookup_update _ _ := rfl

theorem div_eq_of_shift {x y : BitVec 64} {n : ℕ} (h : x >>> n = y >>> n) :
    x.toNat / 2 ^ n = y.toNat / 2 ^ n := by
  have hnat := congrArg BitVec.toNat h
  simpa only [BitVec.toNat_ushiftRight, Nat.shiftRight_eq_div_pow] using hnat

theorem own_mixed (t : Tables (PgLevel × BitVec 64)) (va : BitVec 64) (remain : ℤ) :
    OwnBlocks mixed t va remain := by
  intro i j ptep level level' size _ _ h h' hsize
  simp only [mixed] at h h'
  split_ifs at h h' with hi hj hj
  · simp only [Option.some.injEq, Prod.mk.injEq] at h h'
    obtain ⟨rfl, rfl⟩ := h
    cases hsize
    exact (div_eq_of_shift (Prod.ext_iff.mp h'.1).2).symm
  · simp only [Option.some.injEq, Prod.mk.injEq] at h h'
    obtain ⟨rfl, rfl⟩ := h
    exact absurd (Prod.ext_iff.mp h'.1).1 (by simp)
  · simp only [Option.some.injEq, Prod.mk.injEq] at h h'
    obtain ⟨rfl, rfl⟩ := h
    exact absurd (Prod.ext_iff.mp h'.1).1 (by simp)
  · simp only [Option.some.injEq, Prod.mk.injEq] at h h'
    obtain ⟨rfl, rfl⟩ := h
    cases hsize
    exact (div_eq_of_shift (Prod.ext_iff.mp h'.1).2).symm

/-- The map begins inside a block, and has a page after it. -/
def mixedMap : SmptraceMap := ⟨0xFFFFC90000001000, 0x201000, 0x10000000⟩

def mixedTable : Tables (PgLevel × BitVec 64) := fun _ ↦ 0x100001E3

theorem poison_mixed : ∃ ptes t', poisonPte mixed (fun _ ↦ true) mixedMap mixedTable =
    (.ok ptes, t') := by
  have hfirst (t : Tables (PgLevel × BitVec 64)) : mixed.paging.find t mixedMap.va =
      some ((.l2M, 0x7FFFE480000), .l2M) := rfl
  have hsecond (t : Tables (PgLevel × BitVec 64)) : mixed.paging.find t 0xFFFFC90000201000 =
      some ((.l4K, 0xFFFFC90000201), .l4K) := rfl
  refine ⟨_, _, (poisonLoop_stop (by decide) (hfirst _) rfl rfl).trans
    ((poisonLoop_stop (by decide) (hsecond _) rfl rfl).trans (poisonLoop_done (by decide)))⟩

theorem restore_undoes_mixed : ∃ ptes t', poisonPte mixed (fun _ ↦ true) mixedMap mixedTable =
    (.ok ptes, t') ∧ restorePte mixed mixedMap t' ptes = some (mixedTable, []) := by
  obtain ⟨ptes, t', h⟩ := poison_mixed
  exact ⟨ptes, t', h, restore_undoes (own_mixed mixedTable mixedMap.va mixedMap.len.toInt) h⟩

end Restore

end Pciem.Trace.Lookup
