import Mathlib.Data.List.Range
import Pciem.Slot.State

namespace Pciem.Pool.Allocate

open Kernel Slot.State

/-- `bitmap_find_next_zero_area_off`: the first index from `start` on that has `nr` zero bits
before `size`, and whose sum with `alignOff` has no bit of the mask. -/
def bitmapFindNextZeroAreaOff (map : ℕ → Bool) (size start nr alignMask alignOff : ℕ) :
    Option ℕ :=
  (List.range (size + 1 - nr)).find? fun i ↦
    decide (start ≤ i ∧ (i + alignOff) &&& alignMask = 0 ∧ ∀ j < nr, map (i + j) = false)

variable (pool : PciemMempool) (size : BitVec 64)

def alignMask (align : BitVec 64) : BitVec 64 :=
  ((align + (1#64 <<< pool.pageShift) - 1) >>> pool.pageShift) - 1

def alignOff (align : BitVec 64) : BitVec 64 := (pool.base &&& (align - 1)) >>> pool.pageShift

/-- `nbits` is the number of pages of the pool. -/
def pciemFirstFitAlign (nbits start nr : ℕ) (align : BitVec 64) : Option ℕ :=
  bitmapFindNextZeroAreaOff pool.allocated nbits start nr (alignMask pool align).toNat
    (alignOff pool align).toNat

/-- The number of pages that hold `size` bytes. -/
def pages : ℕ := (size.toNat + 2 ^ pool.pageShift - 1) / 2 ^ pool.pageShift

def chunkAddress (page : ℕ) : BitVec 64 := pool.base + BitVec.ofNat 64 (page * 2 ^ pool.pageShift)

/-- `gen_pool_alloc_algo` on the pool, which has one chunk of memory to take from; an address of
0 says that it has found nothing. -/
def genPoolAllocAlgo (algo : ℕ → ℕ → ℕ → Option ℕ) : BitVec 64 × PciemMempool :=
  match algo (pool.totalSize.toNat / 2 ^ pool.pageShift) 0 (pages pool size) with
  | none => (0, pool)
  | some page => (chunkAddress pool page, pool.setChunk (chunkAddress pool page) size true)

/-- A pool that is not configured has the size 0. -/
def pciemPoolAlloc : BitVec 64 × PciemMempool :=
  if pool.totalSize = 0 then
    (0, pool)
  else if size = 0 ∨ size &&& (size - 1) ≠ 0 then
    (0, pool)
  else
    genPoolAllocAlgo pool size fun nbits start nr ↦ pciemFirstFitAlign pool nbits start nr size

/-- `pciem_pool_init` on a region that could be parsed. `insertResource` takes the first and the
last address of what it is to add to the resources of the machine, and `created` and `added`
tell what comes of the calls on the new `gen_pool`. -/
def pciemPoolInit (insertResource : BitVec 64 → BitVec 64 → Bool) (pageShift : ℕ)
    (base size : BitVec 64) (created added : Bool) : Except Errno PciemMempool :=
  if size = 0 ∨ size &&& (size - 1) ≠ 0 then
    .error .einval
  else if insertResource base (base + size - 1) = false then
    .error .ebusy
  else if created = false ∨ added = false then
    .error .enomem
  else
    .ok ⟨pageShift, base, size, fun _ ↦ false⟩

/-- The pool ends within the addresses there are. -/
def Claimed : Prop := pool.base.toNat + pool.totalSize.toNat ≤ 2 ^ 64

instance : Decidable (Claimed pool) := inferInstanceAs (Decidable (_ ≤ _))

/-- The chunk is free, and where the size asks for it. -/
def FreeChunk (page : ℕ) : Prop :=
  page + pages pool size ≤ pool.totalSize.toNat / 2 ^ pool.pageShift ∧
    (page + (alignOff pool size).toNat) &&& (alignMask pool size).toNat = 0 ∧
    ∀ j < pages pool size, pool.allocated (page + j) = false

instance (page : ℕ) : Decidable (FreeChunk pool size page) :=
  inferInstanceAs (Decidable (_ ∧ _ ∧ _))

/-- The chunk is the first one that will do. -/
def FirstChunk (page : ℕ) : Prop :=
  FreeChunk pool size page ∧ ∀ q < page, ¬ FreeChunk pool size q

variable {pool : PciemMempool} {size : BitVec 64} {page : ℕ}

theorem poolInit_of_ok {insertResource : BitVec 64 → BitVec 64 → Bool} {pageShift : ℕ}
    {base : BitVec 64} {created added : Bool}
    (h : pciemPoolInit insertResource pageShift base size created added = .ok pool) :
    size ≠ 0 ∧ insertResource base (base + size - 1) = true ∧
      pool = ⟨pageShift, base, size, fun _ ↦ false⟩ := by
  rw [pciemPoolInit] at h
  split_ifs at h with hsize hres _
  cases h
  exact ⟨fun hno ↦ hsize (.inl hno), by simpa using hres, rfl⟩

/-- `insert_resource` takes no resource that ends before it begins. -/
theorem claimed_of_init {insertResource : BitVec 64 → BitVec 64 → Bool} {pageShift : ℕ}
    {base : BitVec 64} {created added : Bool}
    (hinsert : ∀ start stop, insertResource start stop = true → start ≤ stop)
    (h : pciemPoolInit insertResource pageShift base size created added = .ok pool) :
    Claimed pool := by
  obtain ⟨hne, hres, rfl⟩ := poolInit_of_ok h
  have hle := hinsert _ _ hres
  simp only [Claimed]
  bv_omega

theorem findChunk_iff :
    pciemFirstFitAlign pool (pool.totalSize.toNat / 2 ^ pool.pageShift) 0 (pages pool size) size =
      some page ↔ FirstChunk pool size page := by
  have hfree (q : ℕ) : FreeChunk pool size q ↔
      q < pool.totalSize.toNat / 2 ^ pool.pageShift + 1 - pages pool size ∧
        (q + (alignOff pool size).toNat) &&& (alignMask pool size).toNat = 0 ∧
        ∀ j < pages pool size, pool.allocated (q + j) = false :=
    and_congr_left fun _ ↦ by omega
  rw [pciemFirstFitAlign, bitmapFindNextZeroAreaOff, List.find?_range_eq_some, FirstChunk]
  simp only [hfree, List.mem_range, zero_le, true_and, decide_eq_true_eq, Bool.not_eq_true',
    decide_eq_false_iff_not]
  constructor
  · rintro ⟨hpage, hlt, hfirst⟩
    exact ⟨⟨hlt, hpage⟩, fun q hq hq' ↦ hfirst q hq hq'.2⟩
  · rintro ⟨⟨hlt, hpage⟩, hfirst⟩
    exact ⟨hpage, hlt, fun q hq hq' ↦ hfirst q hq ⟨Nat.lt_trans hq hlt, hq'⟩⟩

theorem toNat_chunkAddress (h : Claimed pool) (hpage : page * 2 ^ pool.pageShift <
    pool.totalSize.toNat) :
    (chunkAddress pool page).toNat = pool.base.toNat + page * 2 ^ pool.pageShift := by
  rw [Claimed] at h
  rw [chunkAddress, BitVec.toNat_add, BitVec.toNat_ofNat]
  omega

theorem poolAlloc_cases (pool : PciemMempool) (size : BitVec 64) :
    pciemPoolAlloc pool size = (0, pool) ∨
      ∃ page, FirstChunk pool size page ∧ size ≠ 0 ∧ pciemPoolAlloc pool size =
        (chunkAddress pool page, pool.setChunk (chunkAddress pool page) size true) := by
  rw [pciemPoolAlloc]
  split_ifs with htotal hsize
  · exact .inl rfl
  · exact .inl rfl
  · rw [genPoolAllocAlgo]
    split
    · exact .inl rfl
    · rename_i page hfind
      exact .inr ⟨page, findChunk_iff.mp hfind, fun hno ↦ hsize (.inl hno), rfl⟩

theorem pages_pos (hsize : size ≠ 0) : 0 < pages pool size := by
  have hpos : 0 < size.toNat := by
    rw [Nat.pos_iff_ne_zero]
    intro hno
    exact hsize (BitVec.eq_of_toNat_eq (by simpa using hno))
  have hpow := Nat.two_pow_pos pool.pageShift
  exact Nat.div_pos (by omega) hpow

theorem FreeChunk.lt (h : FreeChunk pool size page) (hsize : size ≠ 0) :
    page * 2 ^ pool.pageShift < pool.totalSize.toNat := by
  have hpages : 0 < pages pool size := pages_pos hsize
  have hle := Nat.mul_le_of_le_div _ _ _ h.1
  have hpow := Nat.two_pow_pos pool.pageShift
  have hlt : page * 2 ^ pool.pageShift < (page + pages pool size) * 2 ^ pool.pageShift :=
    Nat.mul_lt_mul_of_pos_right (by omega) hpow
  omega

theorem poolAlloc_of_first (hsize : size ≠ 0) (hpow : size &&& (size - 1) = 0)
    (h : FirstChunk pool size page) : pciemPoolAlloc pool size =
      (chunkAddress pool page, pool.setChunk (chunkAddress pool page) size true) := by
  have htotal : pool.totalSize ≠ 0 := by
    intro hno
    have hpos := h.1.lt hsize
    simp [hno] at hpos
  have hok : ¬ (size = 0 ∨ size &&& (size - 1) ≠ 0) := by
    rw [not_or, not_not]
    exact ⟨hsize, hpow⟩
  rw [pciemPoolAlloc, if_neg htotal, if_neg hok, genPoolAllocAlgo, findChunk_iff.mpr h]

theorem poolAlloc_of_none (h : ∀ page, ¬ FirstChunk pool size page) :
    pciemPoolAlloc pool size = (0, pool) := by
  rcases poolAlloc_cases pool size with heq | ⟨page, hfirst, -, -⟩
  · exact heq
  · exact absurd hfirst (h page)

/-- An allocation that fails takes nothing, unless the memory of the pool begins at 0. -/
theorem poolAlloc_of_zero (hclaimed : Claimed pool) (hbase : pool.base ≠ 0)
    (h : (pciemPoolAlloc pool size).1 = 0) : (pciemPoolAlloc pool size).2 = pool := by
  rcases poolAlloc_cases pool size with heq | ⟨page, hfirst, hsize, heq⟩
  · simp [heq]
  · rw [heq] at h
    have haddr := toNat_chunkAddress hclaimed (hfirst.1.lt hsize)
    have hpos : pool.base.toNat ≠ 0 := fun hno ↦ hbase (BitVec.eq_of_toNat_eq (by simpa using hno))
    have hzero : (chunkAddress pool page).toNat = 0 := by
      simp [show chunkAddress pool page = 0 from h]
    omega

end Pciem.Pool.Allocate
