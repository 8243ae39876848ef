import Mathlib.Data.Nat.Count
import Pciem.Library.PowerOfTwo
import Pciem.Library.Replay
import Pciem.Pool.Accounts

namespace Pciem.Pool.Natural

open Slot.State Library.PowerOfTwo Library.Replay
open Allocate (pages chunkAddress alignMask alignOff Claimed bitmapFindNextZeroAreaOff)

section Alloc

variable (pool : PciemMempool) (size : BitVec 64)

/-- The number of pages of the pool. -/
def pageCount : ℕ := pool.totalSize.toNat / 2 ^ pool.pageShift

/-- The search of `pciem_first_fit_align`, which takes the number of pages as an `unsigned int`.

A search for no page is content with an index that has a free page somewhere before it, and
`gen_pool` searches on from there if the page at the index is taken: what the two come to is
the search for one page. -/
def pciemFirstFitAlign (nbits start : ℕ) (nr : BitVec 32) (align : BitVec 64) : Option ℕ :=
  bitmapFindNextZeroAreaOff pool.allocated nbits start (max nr.toNat 1) (alignMask pool align).toNat
    (alignOff pool align).toNat

/-- The memory that `gen_pool` counts as free. -/
def avail : ℕ :=
  pool.totalSize.toNat -
    Nat.count (fun page ↦ pool.allocated page = true) (pageCount pool) * 2 ^ pool.pageShift

/-- `gen_pool_alloc_algo`. It takes the pages one by one, also behind the end of the pool, where
nothing is taken at first. Where it comes to a page that is taken it gives them back and searches
again: the call does not return, as it finds the same place. -/
def genPoolAllocAlgo (algo : ℕ → ℕ → BitVec 32 → Option ℕ) : Option (BitVec 64 × PciemMempool) :=
  if avail pool < size.toNat then
    some (0, pool)
  else
    match algo (pageCount pool) 0 (BitVec.ofNat 32 (pages pool size)) with
    | none => some (0, pool)
    | some page =>
      if ∀ j < pages pool size, pool.allocated (page + j) = false then
        some (chunkAddress pool page, pool.setChunk (chunkAddress pool page) size true)
      else
        none

def pciemPoolAlloc : Option (BitVec 64 × PciemMempool) :=
  if pool.totalSize = 0 then
    some (0, pool)
  else if size = 0 ∨ size &&& (size - 1) ≠ 0 then
    some (0, pool)
  else
    genPoolAllocAlgo pool size fun nbits start nr ↦ pciemFirstFitAlign pool nbits start nr size

end Alloc

section Place

variable {pool : PciemMempool} {k page : ℕ}

theorem pages_twoPow (hk : k < 64) :
    pages pool (BitVec.twoPow 64 k) = 2 ^ (k - pool.pageShift) := by
  have hs := Nat.two_pow_pos pool.pageShift
  rw [pages, BitVec.toNat_twoPow_of_lt hk]
  rcases Nat.lt_or_ge k pool.pageShift with hlt | hge
  · have hpow : 2 ^ k < 2 ^ pool.pageShift := Nat.pow_lt_pow_right (by decide) hlt
    have hk := Nat.two_pow_pos k
    rw [Nat.sub_eq_zero_of_le (Nat.le_of_lt hlt), Nat.pow_zero]
    exact Nat.div_eq_of_lt_le (by omega) (by omega)
  · have hpow : 2 ^ k = 2 ^ (k - pool.pageShift) * 2 ^ pool.pageShift := by
      rw [← Nat.pow_add, Nat.sub_add_cancel hge]
    refine Nat.div_eq_of_lt_le (by omega) ?_
    rw [Nat.add_mul]
    omega

theorem add_pages_le (hk : k < 64) (hpage : page < pageCount pool)
    (hle : page * 2 ^ pool.pageShift + 2 ^ k ≤ pool.totalSize.toNat) :
    page + pages pool (BitVec.twoPow 64 k) ≤ pageCount pool := by
  rw [pages_twoPow hk]
  rcases Nat.lt_or_ge k pool.pageShift with hlt | hge
  · rw [Nat.sub_eq_zero_of_le (Nat.le_of_lt hlt)]
    exact hpage
  · have hpow : 2 ^ k = 2 ^ (k - pool.pageShift) * 2 ^ pool.pageShift := by
      rw [← Nat.pow_add, Nat.sub_add_cancel hge]
    rw [hpow, ← Nat.add_mul] at hle
    exact (Nat.le_div_iff_mul_le (Nat.two_pow_pos _)).mpr hle

theorem toNat_alignMask (hshift : pool.pageShift < 64) (hk : k < 64) :
    (alignMask pool (BitVec.twoPow 64 k)).toNat = 2 ^ (k - pool.pageShift) - 1 := by
  have hshift' : 2 ^ pool.pageShift ≤ 2 ^ 63 := Nat.pow_le_pow_right (by decide) (by omega)
  have hk' : 2 ^ k ≤ 2 ^ 63 := Nat.pow_le_pow_right (by decide) (by omega)
  have hpos := Nat.two_pow_pos pool.pageShift
  have hpage : (1#64 <<< pool.pageShift).toNat = 2 ^ pool.pageShift := by
    rw [← BitVec.twoPow_eq, BitVec.toNat_twoPow_of_lt hshift]
  have hsum : (BitVec.twoPow 64 k + 1#64 <<< pool.pageShift - 1).toNat =
      2 ^ k + 2 ^ pool.pageShift - 1 := by
    have htoNat : (BitVec.twoPow 64 k).toNat = 2 ^ k := BitVec.toNat_twoPow_of_lt hk
    bv_omega
  have hpages : pages pool (BitVec.twoPow 64 k) = 2 ^ (k - pool.pageShift) := pages_twoPow hk
  rw [pages, BitVec.toNat_twoPow_of_lt hk] at hpages
  have hshifted : ((BitVec.twoPow 64 k + 1#64 <<< pool.pageShift - 1) >>> pool.pageShift).toNat =
      2 ^ (k - pool.pageShift) := by
    rw [BitVec.toNat_ushiftRight, hsum, Nat.shiftRight_eq_div_pow, hpages]
  have hone := Nat.two_pow_pos (k - pool.pageShift)
  rw [alignMask, toNat_sub_one]
  · rw [hshifted]
  · intro hno
    rw [hno] at hshifted
    exact Nat.ne_of_lt hone hshifted

theorem toNat_alignOff (hk : k < 64) : (alignOff pool (BitVec.twoPow 64 k)).toNat =
    pool.base.toNat % 2 ^ k / 2 ^ pool.pageShift := by
  rw [alignOff, BitVec.toNat_ushiftRight, Nat.shiftRight_eq_div_pow, toNat_and_mask _ hk]

/-- A place that the mask allows is aligned as far as the base is. -/
theorem dvd_address_iff {b s : ℕ} (hmask : 2 ^ (k - s) ∣ page + b % 2 ^ k / 2 ^ s) :
    2 ^ k ∣ b + page * 2 ^ s ↔ min (2 ^ k) (2 ^ s) ∣ b := by
  rcases Nat.lt_or_ge k s with hlt | hge
  · have hpage : 2 ^ k ∣ page * 2 ^ s :=
      Nat.dvd_mul_left_of_dvd (Nat.pow_dvd_pow 2 (Nat.le_of_lt hlt)) page
    rw [Nat.min_eq_left (Nat.pow_le_pow_right (by decide) (Nat.le_of_lt hlt))]
    exact (Nat.dvd_add_iff_left hpage).symm
  · have hpow : 2 ^ k = 2 ^ (k - s) * 2 ^ s := by
      rw [← Nat.pow_add, Nat.sub_add_cancel hge]
    obtain ⟨q, hq⟩ := hmask
    have hlow : b % 2 ^ k % 2 ^ s = b % 2 ^ s := Nat.mod_mod_of_dvd b (Nat.pow_dvd_pow 2 hge)
    have hsplit : b + page * 2 ^ s = 2 ^ k * (b / 2 ^ k + q) + b % 2 ^ s := by
      have hb := Nat.div_add_mod b (2 ^ k)
      have hm := Nat.div_add_mod (b % 2 ^ k) (2 ^ s)
      have hqs : 2 ^ s * page + 2 ^ s * (b % 2 ^ k / 2 ^ s) = 2 ^ k * q := by
        rw [← Nat.mul_add, hq, hpow]
        ring
      rw [Nat.mul_add, Nat.mul_comm page, ← hlow]
      omega
    have hrest : 2 ^ k ∣ b % 2 ^ s ↔ b % 2 ^ s = 0 := by
      constructor
      · intro h
        have hlt : b % 2 ^ s < 2 ^ k :=
          Nat.lt_of_lt_of_le (Nat.mod_lt _ (Nat.two_pow_pos s))
            (Nat.pow_le_pow_right (by decide) hge)
        exact Nat.eq_zero_of_dvd_of_lt h hlt
      · intro h
        rw [h]
        exact Nat.dvd_zero _
    have hdvd : 2 ^ k ∣ b % 2 ^ s ↔ 2 ^ s ∣ b := hrest.trans Nat.dvd_iff_mod_eq_zero.symm
    rw [hsplit, Nat.min_eq_right (Nat.pow_le_pow_right (by decide) hge), ← hdvd]
    exact (Nat.dvd_add_iff_right (Nat.dvd_mul_right _ _)).symm

end Place

structure Chunk where
  addr : BitVec 64
  size : BitVec 64
  deriving DecidableEq

/-- The chunks share no byte. -/
def Apart (c d : Chunk) : Prop :=
  c.addr.toNat + c.size.toNat ≤ d.addr.toNat ∨ d.addr.toNat + d.size.toNat ≤ c.addr.toNat

instance (c d : Chunk) : Decidable (Apart c d) := inferInstanceAs (Decidable (_ ∨ _))

/-- The pool, and the chunks that were allocated and not yet freed. -/
structure PoolState where
  pool : PciemMempool
  live : List Chunk

inductive Call
  | alloc (size : BitVec 64)
  | free (chunk : Chunk)

/-- A call of the pool. Only what was allocated is freed. -/
def step (s : PoolState) : Call → PoolState
  | .alloc size =>
    match pciemPoolAlloc s.pool size with
    | none => s
    | some (addr, pool) => ⟨pool, if addr = 0 then s.live else ⟨addr, size⟩ :: s.live⟩
  | .free c => if c ∈ s.live then ⟨pciemPoolFree s.pool c.addr c.size, s.live.erase c⟩ else s

structure Sound (s : PoolState) : Prop where
  aligned : ∀ c ∈ s.live, c.size.toNat ∣ c.addr.toNat
  inside : ∀ c ∈ s.live, s.pool.base.toNat ≤ c.addr.toNat ∧
    c.addr.toNat + c.size.toNat ≤ s.pool.base.toNat + s.pool.totalSize.toNat
  apart : s.live.Pairwise Apart

section Serve

variable (pool : PciemMempool) (size : BitVec 64)

/-- The number of pages that the search looks at. -/
def looked : ℕ := max (pages pool size % 2 ^ 32) 1

def Place (page : ℕ) : Prop :=
  page + looked pool size ≤ pageCount pool ∧
    (page + (alignOff pool size).toNat) &&& (alignMask pool size).toNat = 0 ∧
    ∀ j < looked pool size, pool.allocated (page + j) = false

/-- The request is one for the pool to serve, at the page. -/
structure Serves (page : ℕ) : Prop where
  power : IsPowerOfTwo size
  left : size.toNat ≤ avail pool
  place : Place pool size page
  first : ∀ q < page, ¬ Place pool size q
  free : ∀ j < pages pool size, pool.allocated (page + j) = false
  ne_zero : chunkAddress pool page ≠ 0

end Serve

/-- The base is aligned for what is allocated, and the pool does not end within it. -/
def ServesWell (s : PoolState) : Call → Prop
  | .alloc size => ∀ page, Serves s.pool size page →
      min size.toNat (2 ^ s.pool.pageShift) ∣ s.pool.base.toNat ∧
        page + pages s.pool size ≤ pageCount s.pool
  | .free _ => True

section Alloc

variable {pool : PciemMempool} {size : BitVec 64} {page : ℕ}

theorem firstFit_iff : pciemFirstFitAlign pool (pageCount pool) 0
    (BitVec.ofNat 32 (pages pool size)) size = some page ↔
      Place pool size page ∧ ∀ q < page, ¬ Place pool size q := by
  have hplace (q : ℕ) : Place pool size q ↔ q < pageCount pool + 1 - looked pool size ∧
      (q + (alignOff pool size).toNat) &&& (alignMask pool size).toNat = 0 ∧
      ∀ j < looked pool size, pool.allocated (q + j) = false :=
    and_congr_left fun _ ↦ by omega
  rw [pciemFirstFitAlign, BitVec.toNat_ofNat, ← looked, bitmapFindNextZeroAreaOff,
    List.find?_range_eq_some]
  simp only [hplace, List.mem_range, zero_le, true_and, decide_eq_true_eq, Bool.not_eq_true',
    decide_eq_false_iff_not]
  constructor
  · rintro ⟨hpage, hlt, hfirst⟩
    exact ⟨⟨hlt, hpage⟩, fun q hq hq' ↦ hfirst q hq hq'.2⟩
  · rintro ⟨⟨hlt, hpage⟩, hfirst⟩
    exact ⟨hpage, hlt, fun q hq hq' ↦ hfirst q hq ⟨Nat.lt_trans hq hlt, hq'⟩⟩

theorem Serves.lt (h : Serves pool size page) : page < pageCount pool := by
  have hle := h.place.1
  rw [looked] at hle
  omega

theorem Serves.mul_lt (h : Serves pool size page) :
    page * 2 ^ pool.pageShift < pool.totalSize.toNat := by
  have hle := Nat.mul_le_of_le_div _ _ _ (Nat.succ_le_of_lt h.lt)
  have hpow := Nat.two_pow_pos pool.pageShift
  rw [Nat.succ_mul] at hle
  omega

theorem Serves.fits (h : Serves pool size page)
    (hle : page * 2 ^ pool.pageShift + size.toNat ≤ pool.totalSize.toNat) :
    page + pages pool size ≤ pageCount pool := by
  obtain ⟨k, hk, rfl⟩ := isPowerOfTwo_iff.mp h.power
  rw [BitVec.toNat_twoPow_of_lt hk] at hle
  exact add_pages_le hk h.lt hle

theorem Serves.pages_le (h : Serves pool size page) : pages pool size ≤ pageCount pool := by
  obtain ⟨k, hk, rfl⟩ := isPowerOfTwo_iff.mp h.power
  have hle : (BitVec.twoPow 64 k).toNat ≤ pool.totalSize.toNat :=
    Nat.le_trans h.left (Nat.sub_le _ _)
  rw [BitVec.toNat_twoPow_of_lt hk] at hle
  have hpages : 0 + pages pool (BitVec.twoPow 64 k) ≤ pageCount pool :=
    add_pages_le hk (Nat.zero_lt_of_lt h.lt) (by omega)
  omega

theorem poolAlloc_of_serves (h : Serves pool size page) : pciemPoolAlloc pool size =
    some (chunkAddress pool page, pool.setChunk (chunkAddress pool page) size true) := by
  have htotal : pool.totalSize ≠ 0 := by
    intro hno
    have hlt := h.mul_lt
    simp [hno] at hlt
  have hok : ¬ (size = 0 ∨ size &&& (size - 1) ≠ 0) := by
    rw [not_or, not_not]
    exact h.power
  rw [pciemPoolAlloc, if_neg htotal, if_neg hok, genPoolAllocAlgo, if_neg (Nat.not_lt.mpr h.left),
    firstFit_iff.mpr ⟨h.place, h.first⟩]
  exact if_pos h.free

theorem looked_eq (hsize : size ≠ 0) (hlt : pages pool size < 2 ^ 32) :
    looked pool size = pages pool size := by
  have hpos : 0 < pages pool size := Allocate.pages_pos hsize
  rw [looked, Nat.mod_eq_of_lt hlt]
  omega

theorem le_avail_of_free (h : Allocate.FreeChunk pool size page) : size.toNat ≤ avail pool := by
  obtain ⟨hle, -, hfree⟩ := h
  obtain ⟨rest, hrest⟩ := Nat.exists_eq_add_of_le hle
  have hnone : Nat.count (fun j ↦ pool.allocated (page + j) = true) (pages pool size) = 0 := by
    rw [Nat.count_iff_forall_not]
    intro j hj
    simp [hfree j hj]
  have hcount : Nat.count (fun q ↦ pool.allocated q = true) (pageCount pool) ≤ page + rest := by
    have hbefore := Nat.count_le (p := fun q ↦ pool.allocated q = true) (n := page)
    have hafter := Nat.count_le
      (p := fun q ↦ pool.allocated (page + pages pool size + q) = true) (n := rest)
    rw [pageCount, hrest, Nat.count_add, Nat.count_add, hnone]
    omega
  have hmul := Nat.mul_le_mul_right (2 ^ pool.pageShift) hcount
  have htotal : (page + pages pool size + rest) * 2 ^ pool.pageShift ≤ pool.totalSize.toNat := by
    rw [← hrest]
    exact Nat.div_mul_le_self _ _
  have hsize : size.toNat ≤ pages pool size * 2 ^ pool.pageShift := Accounts.size_le_pages
  rw [avail]
  simp only [Nat.add_mul] at hmul htotal
  omega

/-- Below 2 ^ 32 pages the number of pages is what the search takes it for. -/
theorem poolAlloc_eq (hlt : pages pool size < 2 ^ 32) :
    pciemPoolAlloc pool size = some (Allocate.pciemPoolAlloc pool size) := by
  rw [pciemPoolAlloc, Allocate.pciemPoolAlloc]
  split_ifs with htotal hsize
  · rfl
  · rfl
  · have hsize' : size ≠ 0 := fun hno ↦ hsize (.inl hno)
    have hsearch : pciemFirstFitAlign pool (pageCount pool) 0
        (BitVec.ofNat 32 (pages pool size)) size =
          Allocate.pciemFirstFitAlign pool (pageCount pool) 0 (pages pool size) size := by
      rw [pciemFirstFitAlign, BitVec.toNat_ofNat, ← looked, looked_eq hsize' hlt]
      rfl
    rw [genPoolAllocAlgo, Allocate.genPoolAllocAlgo, hsearch]
    cases hfind : Allocate.pciemFirstFitAlign pool (pageCount pool) 0 (pages pool size) size with
    | none =>
      rw [pageCount] at hfind
      rw [hfind]
      exact ite_self _
    | some page =>
      have hfree := (Allocate.findChunk_iff.mp hfind).1
      rw [pageCount] at hfind
      rw [hfind, if_neg (Nat.not_lt.mpr (le_avail_of_free hfree))]
      exact if_pos hfree.2.2

/-- What a call of `pciem_pool_alloc` comes to. -/
theorem poolAlloc_cases (pool : PciemMempool) (size : BitVec 64) :
    pciemPoolAlloc pool size = none ∨ pciemPoolAlloc pool size = some (0, pool) ∨
      pciemPoolAlloc pool size = some (0, pool.setChunk 0 size true) ∨
      ∃ page, Serves pool size page := by
  rw [pciemPoolAlloc]
  split_ifs with htotal hsize
  · exact .inr (.inl rfl)
  · exact .inr (.inl rfl)
  · rw [not_or, not_not] at hsize
    rw [genPoolAllocAlgo]
    split_ifs with hleft
    · exact .inr (.inl rfl)
    · split
      · exact .inr (.inl rfl)
      · rename_i page hfind
        obtain ⟨hplace, hfirst⟩ := firstFit_iff.mp hfind
        split_ifs with hfree
        · by_cases hzero : chunkAddress pool page = 0
          · rw [hzero]
            exact .inr (.inr (.inl rfl))
          · exact .inr (.inr (.inr
              ⟨page, hsize, Nat.le_of_not_lt hleft, hplace, hfirst, hfree, hzero⟩))
        · exact .inl rfl

end Alloc

section Step

variable {s : PoolState} {size : BitVec 64} {page : ℕ}

/-- The chunks share no page. -/
def Separate (pool : PciemMempool) (c d : Chunk) : Prop :=
  ∀ q, pool.InChunk c.addr c.size q → ¬ pool.InChunk d.addr d.size q

theorem Separate.symm {pool : PciemMempool} {c d : Chunk} (h : Separate pool c d) :
    Separate pool d c :=
  fun q hd hc ↦ h q hc hd

/-- The chunks lie in the pool, on pages that are taken and that no two of them share. -/
structure Inv (s : PoolState) : Prop where
  shift : s.pool.pageShift < 64
  claimed : Claimed s.pool
  aligned : ∀ c ∈ s.live, c.size.toNat ∣ c.addr.toNat
  placed : ∀ c ∈ s.live, ∃ page, c.addr = chunkAddress s.pool page ∧ c.size ≠ 0 ∧
    page + pages s.pool c.size ≤ pageCount s.pool
  taken : ∀ c ∈ s.live, ∀ q, s.pool.InChunk c.addr c.size q → s.pool.allocated q = true
  separate : s.live.Pairwise (Separate s.pool)

theorem Serves.toNat_address (h : Serves s.pool size page) (hinv : Inv s) :
    (chunkAddress s.pool page).toNat = s.pool.base.toNat + page * 2 ^ s.pool.pageShift :=
  Allocate.toNat_chunkAddress hinv.claimed h.mul_lt

theorem Serves.dvd_iff (h : Serves s.pool size page) (hinv : Inv s) :
    size.toNat ∣ (chunkAddress s.pool page).toNat ↔
      min size.toNat (2 ^ s.pool.pageShift) ∣ s.pool.base.toNat := by
  obtain ⟨k, hk, rfl⟩ := isPowerOfTwo_iff.mp h.power
  have hmask := h.place.2.1
  rw [toNat_alignOff hk, toNat_alignMask hinv.shift hk, Nat.and_two_pow_sub_one_eq_mod] at hmask
  rw [h.toNat_address hinv, BitVec.toNat_twoPow_of_lt hk]
  exact dvd_address_iff (Nat.dvd_of_mod_eq_zero hmask)

theorem Inv.address_add_le (h : Inv s) {c : Chunk} (hsize : c.size ≠ 0)
    (haddr : c.addr = chunkAddress s.pool page)
    (hle : page + pages s.pool c.size ≤ pageCount s.pool) :
    c.addr.toNat = s.pool.base.toNat + page * 2 ^ s.pool.pageShift ∧
      page * 2 ^ s.pool.pageShift + c.size.toNat ≤ s.pool.totalSize.toNat := by
  have hend := Accounts.pages_mul_le hle
  have hpos : 0 < c.size.toNat := by
    rw [Nat.pos_iff_ne_zero]
    intro hno
    exact hsize (BitVec.eq_of_toNat_eq (by simpa using hno))
  rw [haddr]
  exact ⟨Allocate.toNat_chunkAddress h.claimed (by omega), hend⟩

theorem Inv.inChunk_iff {c : Chunk} (haddr : c.addr = chunkAddress s.pool page)
    (hle : page + pages s.pool c.size ≤ pageCount s.pool) (q : ℕ) :
    s.pool.InChunk c.addr c.size q ↔ page ≤ q ∧ q < page + pages s.pool c.size := by
  rw [haddr]
  exact Accounts.inChunk_chunkAddress hle q

/-- Chunks that have no page in common have no byte in common. -/
theorem Inv.apart_of_separate (h : Inv s) {c d : Chunk} (hc : c ∈ s.live) (hd : d ∈ s.live)
    (hcd : Separate s.pool c d) : Apart c d := by
  obtain ⟨p, haddr, hsize, hle⟩ := h.placed c hc
  obtain ⟨p', haddr', hsize', hle'⟩ := h.placed d hd
  obtain ⟨hnat, -⟩ := h.address_add_le hsize haddr hle
  obtain ⟨hnat', -⟩ := h.address_add_le hsize' haddr' hle'
  have hpages : 0 < pages s.pool c.size := Allocate.pages_pos hsize
  have hpages' : 0 < pages s.pool d.size := Allocate.pages_pos hsize'
  have hend : c.size.toNat ≤ pages s.pool c.size * 2 ^ s.pool.pageShift := Accounts.size_le_pages
  have hend' : d.size.toNat ≤ pages s.pool d.size * 2 ^ s.pool.pageShift := Accounts.size_le_pages
  rw [Apart, hnat, hnat']
  rcases Nat.le_total p p' with hpp | hpp
  · have hno := hcd.symm p' ((Inv.inChunk_iff haddr' hle' p').mpr ⟨Nat.le_refl _, by omega⟩)
    rw [Inv.inChunk_iff haddr hle] at hno
    have hmul := Nat.mul_le_mul_right (2 ^ s.pool.pageShift)
      (show p + pages s.pool c.size ≤ p' by omega)
    rw [Nat.add_mul] at hmul
    omega
  · have hno := hcd p ((Inv.inChunk_iff haddr hle p).mpr ⟨Nat.le_refl _, by omega⟩)
    rw [Inv.inChunk_iff haddr' hle'] at hno
    have hmul := Nat.mul_le_mul_right (2 ^ s.pool.pageShift)
      (show p' + pages s.pool d.size ≤ p by omega)
    rw [Nat.add_mul] at hmul
    omega

theorem Inv.sound (h : Inv s) : Sound s where
  aligned := h.aligned
  inside c hc := by
    obtain ⟨p, haddr, hsize, hle⟩ := h.placed c hc
    obtain ⟨hnat, hend⟩ := h.address_add_le hsize haddr hle
    omega
  apart := h.separate.imp_of_mem fun hc hd hcd ↦ h.apart_of_separate hc hd hcd

/-- A chunk that is taken and that nobody is told of does no harm. -/
theorem Inv.lose (h : Inv s) (addr size : BitVec 64) :
    Inv ⟨s.pool.setChunk addr size true, s.live⟩ where
  shift := h.shift
  claimed := h.claimed
  aligned := h.aligned
  placed := h.placed
  taken c hc q hq := by
    have htaken : s.pool.allocated q = true := h.taken c hc q hq
    simp [PciemMempool.setChunk, htaken]
  separate := h.separate

theorem Inv.serve (h : Inv s) (hserves : Serves s.pool size page)
    (hdvd : min size.toNat (2 ^ s.pool.pageShift) ∣ s.pool.base.toNat)
    (hfits : page + pages s.pool size ≤ pageCount s.pool) :
    Inv ⟨s.pool.setChunk (chunkAddress s.pool page) size true,
      ⟨chunkAddress s.pool page, size⟩ :: s.live⟩ := by
  have hlose := h.lose (chunkAddress s.pool page) size
  exact {
    shift := h.shift
    claimed := h.claimed
    aligned := List.forall_mem_cons.mpr ⟨(hserves.dvd_iff h).mpr hdvd, h.aligned⟩
    placed := List.forall_mem_cons.mpr ⟨⟨page, rfl, hserves.power.1, hfits⟩, h.placed⟩
    taken := List.forall_mem_cons.mpr ⟨fun q hq ↦ if_pos hq, hlose.taken⟩
    separate := by
      refine List.pairwise_cons.mpr ⟨fun c hc q hq hqc ↦ ?_, h.separate⟩
      obtain ⟨hge, hlt⟩ := (Accounts.inChunk_chunkAddress hfits q).mp hq
      have hfree := hserves.free (q - page) (by omega)
      rw [Nat.add_sub_cancel' hge] at hfree
      exact Bool.false_ne_true (hfree.symm.trans (h.taken c hc q hqc)) }

theorem Inv.free (h : Inv s) {c : Chunk} (hc : c ∈ s.live) :
    Inv ⟨pciemPoolFree s.pool c.addr c.size, s.live.erase c⟩ := by
  have hmem : ∀ d ∈ s.live.erase c, d ∈ s.live := fun d hd ↦ List.mem_of_mem_erase hd
  obtain ⟨hapart, hseparate⟩ := List.pairwise_cons.mp
    ((List.Perm.pairwise_iff Separate.symm (List.perm_cons_erase hc)).mp h.separate)
  have hkept : Inv ⟨s.pool, s.live.erase c⟩ :=
    ⟨h.shift, h.claimed, fun d hd ↦ h.aligned d (hmem d hd), fun d hd ↦ h.placed d (hmem d hd),
      fun d hd ↦ h.taken d (hmem d hd), hseparate⟩
  rw [pciemPoolFree]
  split_ifs with hrefused
  · exact hkept
  · refine ⟨hkept.shift, hkept.claimed, hkept.aligned, hkept.placed, fun d hd q hq ↦ ?_,
      hkept.separate⟩
    have hno : ¬ s.pool.InChunk c.addr c.size q := fun hcq ↦ hapart d hd q hcq hq
    exact (if_neg hno).trans (hkept.taken d hd q hq)

theorem inv_step (h : Inv s) (call : Call) (hwell : ServesWell s call) : Inv (step s call) := by
  cases call with
  | alloc size =>
    rcases poolAlloc_cases s.pool size with heq | heq | heq | ⟨page, hserves⟩
    · rw [step, heq]
      exact h
    · rw [step, heq]
      exact h
    · rw [step, heq]
      exact h.lose 0 size
    · rw [step, poolAlloc_of_serves hserves]
      simp only [hserves.ne_zero, if_false]
      exact h.serve hserves (hwell page hserves).1 (hwell page hserves).2
  | free c =>
    rw [step]
    split_ifs with hc
    · exact h.free hc
    · exact h

theorem not_sound_step (h : Inv s) (call : Call) (hwell : ¬ ServesWell s call) :
    ¬ Sound (step s call) := by
  cases call with
  | alloc size =>
    rw [ServesWell, not_forall] at hwell
    obtain ⟨page, hwell⟩ := hwell
    obtain ⟨hserves, hwell⟩ := Classical.not_imp.mp hwell
    rw [step, poolAlloc_of_serves hserves]
    simp only [hserves.ne_zero, if_false]
    intro hsound
    have hdvd := hsound.aligned _ List.mem_cons_self
    obtain ⟨-, hend⟩ := hsound.inside _ List.mem_cons_self
    refine hwell ⟨(hserves.dvd_iff h).mp hdvd, hserves.fits ?_⟩
    have hnat := hserves.toNat_address h
    simp only [PciemMempool.setChunk] at hend
    omega
  | free c => exact absurd trivial hwell

/-- A pool that begins with a page, and that has less than 2 ^ 32 of them, serves well. -/
theorem servesWell_of_aligned (hbase : 2 ^ s.pool.pageShift ∣ s.pool.base.toNat)
    (hcount : pageCount s.pool < 2 ^ 32) (call : Call) : ServesWell s call := by
  cases call with
  | alloc size =>
    intro page hserves
    obtain ⟨k, hk, rfl⟩ := isPowerOfTwo_iff.mp hserves.power
    have hfits := hserves.place.1
    rw [looked_eq hserves.power.1 (Nat.lt_of_le_of_lt hserves.pages_le hcount)] at hfits
    refine ⟨Nat.dvd_trans ?_ hbase, hfits⟩
    rw [BitVec.toNat_twoPow_of_lt hk]
    rcases Nat.le_total k s.pool.pageShift with hle | hge
    · rw [Nat.min_eq_left (Nat.pow_le_pow_right (by decide) hle)]
      exact Nat.pow_dvd_pow 2 hle
    · rw [Nat.min_eq_right (Nat.pow_le_pow_right (by decide) hge)]
  | free c => trivial

theorem pool_step (s : PoolState) (call : Call) :
    (step s call).pool = { s.pool with allocated := (step s call).pool.allocated } := by
  cases call with
  | alloc size =>
    rcases poolAlloc_cases s.pool size with heq | heq | heq | ⟨page, hserves⟩
    · rw [step, heq]
    · rw [step, heq]
    · rw [step, heq]
      rfl
    · rw [step, poolAlloc_of_serves hserves]
      rfl
  | free c =>
    rw [step]
    split_ifs with hc
    · rw [pciemPoolFree]
      split_ifs with hrefused <;> rfl
    · rfl

theorem each_servesWell_of_aligned (hbase : 2 ^ s.pool.pageShift ∣ s.pool.base.toNat)
    (hcount : pageCount s.pool < 2 ^ 32) (calls : List Call) : Each step ServesWell s calls := by
  induction calls generalizing s with
  | nil => trivial
  | cons call calls ih =>
    refine ⟨servesWell_of_aligned hbase hcount call, ih ?_ ?_⟩
    · rw [pool_step]
      exact hbase
    · rw [pool_step]
      exact hcount

end Step

section Run

variable {insertResource : BitVec 64 → BitVec 64 → Bool} {pageShift : ℕ} {base size : BitVec 64}
  {created added : Bool} {pool : PciemMempool}

theorem Inv.init (hshift : pageShift < 64)
    (hinsert : ∀ start stop, insertResource start stop = true → start ≤ stop)
    (h : Allocate.pciemPoolInit insertResource pageShift base size created added = .ok pool) :
    Inv ⟨pool, []⟩ where
  shift := by
    obtain ⟨-, -, rfl⟩ := Allocate.poolInit_of_ok h
    exact hshift
  claimed := Allocate.claimed_of_init hinsert h
  aligned := List.forall_mem_nil _
  placed := List.forall_mem_nil _
  taken := List.forall_mem_nil _
  separate := List.Pairwise.nil

/-- What is allocated is aligned, in the pool and apart throughout exactly if the base is aligned
for every request that is served, and no request is served where the pool ends within it. -/
theorem sound_iff (hshift : pageShift < 64)
    (hinsert : ∀ start stop, insertResource start stop = true → start ≤ stop)
    (h : Allocate.pciemPoolInit insertResource pageShift base size created added = .ok pool)
    (calls : List Call) :
    Always step Sound ⟨pool, []⟩ calls ↔ Each step ServesWell ⟨pool, []⟩ calls :=
  always_iff_each_of_lost (fun _ hinv ↦ hinv.sound) (fun _ call hinv ↦ inv_step hinv call)
    (fun _ call hinv ↦ not_sound_step hinv call) (Inv.init hshift hinsert h)

theorem sound_twoPages :
    Always step Sound ⟨⟨12, 0x2000, 0x2000, fun _ ↦ false⟩, []⟩
      [.alloc 0x1000, .alloc 0x800, .free ⟨0x2000, 0x1000⟩, .alloc 0x1000] := by
  have hinit : Allocate.pciemPoolInit (fun start stop ↦ decide (start ≤ stop)) 12 0x2000 0x2000
      true true = .ok ⟨12, 0x2000, 0x2000, fun _ ↦ false⟩ := rfl
  exact (sound_iff (by decide) (fun _ _ h ↦ of_decide_eq_true h) hinit _).mpr
    (each_servesWell_of_aligned (by decide) (by decide) _)

/-- A pool at 0x1800 serves a page there. -/
theorem not_sound_halfPage :
    ∃ pool, Allocate.pciemPoolInit (fun start stop ↦ decide (start ≤ stop)) 12 0x1800 0x2000
      true true = .ok pool ∧ ¬ Always step Sound ⟨pool, []⟩ [.alloc 0x1000] := by
  refine ⟨_, rfl, fun h ↦ ?_⟩
  have hlive : (step ⟨⟨12, 0x1800, 0x2000, fun _ ↦ false⟩, []⟩ (.alloc 0x1000)).live =
      [⟨0x1800, 0x1000⟩] := by decide
  have hdvd := h.last.aligned ⟨0x1800, 0x1000⟩ (by
    rw [List.foldl_cons, List.foldl_nil, hlive]
    exact List.mem_singleton_self _)
  exact absurd hdvd (by decide)

/-- With a base that begins a page, and less than 2 ^ 32 pages, nothing goes wrong. -/
theorem always_sound_of_aligned (hshift : pageShift < 64)
    (hinsert : ∀ start stop, insertResource start stop = true → start ≤ stop)
    (h : Allocate.pciemPoolInit insertResource pageShift base size created added = .ok pool)
    (hbase : 2 ^ pageShift ∣ base.toNat) (hcount : size.toNat / 2 ^ pageShift < 2 ^ 32)
    (calls : List Call) : Always step Sound ⟨pool, []⟩ calls := by
  have hinit : Inv ⟨pool, []⟩ := Inv.init hshift hinsert h
  obtain ⟨-, -, rfl⟩ := Allocate.poolInit_of_ok h
  have hwell := each_servesWell_of_aligned (s := ⟨⟨pageShift, base, size, fun _ ↦ false⟩, []⟩)
    hbase hcount calls
  exact (Each.always (I := Inv) (fun _ call hinv ↦ inv_step hinv call) hinit hwell).mono
    fun _ hinv ↦ hinv.sound

end Run

end Pciem.Pool.Natural
