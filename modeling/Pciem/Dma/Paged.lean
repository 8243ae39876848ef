import Pciem.Kernel.Errno
import Pciem.Library.ByteMemory
import Pciem.Library.PowerOfTwo
import Pciem.Library.Scatter
import Mathlib.Tactic.Ring

namespace Pciem.Dma.Paged

open Kernel Library.ByteMemory Library.PowerOfTwo Library.Scatter

/-- What the DMA functions use of the machine and of the rest of the kernel. -/
structure Platform where
  pageShift : ℕ
  pageShift_lt : pageShift < 32
  /-- `iommu_iova_to_phys` of the domain of the device, when it has one. -/
  domain : Option (BitVec 64 → BitVec 64)
  /-- Whether `kmalloc_array` has room for so many pages. -/
  allocated : BitVec 64 → Bool
  /-- Whether `pciem_map_phys` can map the page. -/
  mapped : BitVec 64 → Bool

variable (p : Platform)

def Platform.pageSize : BitVec 64 := .twoPow 64 p.pageShift

def pageAlignDown (addr : BitVec 64) : BitVec 64 := addr &&& ~~~(p.pageSize - 1)

def pageAlign (addr : BitVec 64) : BitVec 64 := (addr + (p.pageSize - 1)) &&& ~~~(p.pageSize - 1)

def offsetInPage (addr : BitVec 64) : BitVec 64 := addr &&& (p.pageSize - 1)

def translateIovaOnce (iova : BitVec 64) : BitVec 64 :=
  match p.domain with
  | some iommuIovaToPhys => iommuIovaToPhys iova
  | none => iova

/-- The loop of `translate_iova`; `room` is what is left of the array `pages`. -/
def translateLoop (iovaEnd : BitVec 64) : ℕ → BitVec 64 → Except Errno (List (BitVec 64))
  | 0, _ => .ok []
  | room + 1, iova =>
    if iova < iovaEnd then
      if translateIovaOnce p iova = 0 then
        .error .efault
      else do
        let pages ← translateLoop iovaEnd room (iova + p.pageSize)
        return translateIovaOnce p iova :: pages
    else
      .ok []

/-- The pages, and `num_pages`. -/
def translateIova (guestIova len : BitVec 64) : Except Errno (List (BitVec 64) × BitVec 32) :=
  let iovaStart := pageAlignDown p guestIova
  let iovaEnd := pageAlign p (guestIova + len)
  let maxPages := (iovaEnd - iovaStart) >>> p.pageShift
  if p.allocated maxPages then do
    let pages ← translateLoop p iovaEnd maxPages.toNat iovaStart
    return (pages, BitVec.ofNat 32 pages.length)
  else
    .error .enomem

def memcpy (dst : Memory) (pos : ℕ) (src : Memory) (start n : ℕ) : Memory :=
  store dst pos ((List.range n).map fun k ↦ src (start + k))

/-- Page `i` and those after it. -/
def readLoop (mem : Memory) (guestIova : BitVec 64) (len i : ℕ) (pages : List (BitVec 64))
    (dstOffset : ℕ) (dst : Memory) : Except Errno Unit × Memory :=
  match pages with
  | [] => (.ok (), dst)
  | page :: pages =>
    let srcOffset := if i = 0 then (offsetInPage p guestIova).toNat else 0
    let chunkLen := min (p.pageSize.toNat - srcOffset) (len - dstOffset)
    if p.mapped page then
      readLoop mem guestIova len (i + 1) pages (dstOffset + chunkLen)
        (memcpy dst dstOffset mem (page.toNat + srcOffset) chunkLen)
    else
      (.error .efault, dst)

/-- `pciem_dma_read_from_guest` after its tests for null pointers: what is returned, and what
is in `dst` then. -/
def pciemDmaReadFromGuest (mem : Memory) (guestIova : BitVec 64) (dst : Memory)
    (len : BitVec 64) : Except Errno Unit × Memory :=
  if len = 0 then
    (.error .einval, dst)
  else
    match translateIova p guestIova len with
    | .error e => (.error e, dst)
    | .ok (pages, numPages) =>
      readLoop p mem guestIova len.toNat 0 (pages.take numPages.toNat) 0 dst

def writeLoop (src : Memory) (guestIova : BitVec 64) (len i : ℕ) (pages : List (BitVec 64))
    (srcOffset : ℕ) (mem : Memory) : Except Errno Unit × Memory :=
  match pages with
  | [] => (.ok (), mem)
  | page :: pages =>
    let dstOffset := if i = 0 then (offsetInPage p guestIova).toNat else 0
    let chunkLen := min (p.pageSize.toNat - dstOffset) (len - srcOffset)
    if p.mapped page then
      writeLoop src guestIova len (i + 1) pages (srcOffset + chunkLen)
        (memcpy mem (page.toNat + dstOffset) src srcOffset chunkLen)
    else
      (.error .enomem, mem)

/-- `pciem_dma_write_to_guest` after its tests for null pointers: what is returned, and the
memory of the guest then. -/
def pciemDmaWriteToGuest (mem : Memory) (guestIova : BitVec 64) (src : Memory)
    (len : BitVec 64) : Except Errno Unit × Memory :=
  if len = 0 then
    (.error .einval, mem)
  else
    match translateIova p guestIova len with
    | .error e => (.error e, mem)
    | .ok (pages, numPages) =>
      writeLoop p src guestIova len.toNat 0 (pages.take numPages.toNat) 0 mem

/-- The place of the byte at an address of the device: in the page that its page translates to,
at the same offset. -/
def locate (addr : BitVec 64) : ℕ :=
  (translateIovaOnce p (pageAlignDown p addr)).toNat + (offsetInPage p addr).toNat

/-- The offsets into the buffer and the places in memory that the loops pair, in their order. -/
def tiles (guestIova : BitVec 64) (len i : ℕ) (pages : List (BitVec 64)) (done : ℕ) :
    List (ℕ × ℕ) :=
  match pages with
  | [] => []
  | page :: pages =>
    let offset := if i = 0 then (offsetInPage p guestIova).toNat else 0
    let chunkLen := min (p.pageSize.toNat - offset) (len - done)
    (List.range chunkLen).map (fun k ↦ (done + k, page.toNat + offset + k)) ++
      tiles guestIova len (i + 1) pages (done + chunkLen)

theorem memcpy_eq_scatter (dst : Memory) (pos : ℕ) (src : Memory) (start n : ℕ) :
    memcpy dst pos src start n =
      scatter dst ((List.range n).map fun k ↦ (pos + k, src (start + k))) := by
  funext q
  by_cases hq : pos ≤ q ∧ q < pos + n
  · obtain ⟨k, rfl⟩ := Nat.exists_eq_add_of_le hq.1
    have hk : k < n := by omega
    have hinj : ∀ i < n, ∀ j < n, pos + i = pos + j → i = j := fun i _ j _ hij ↦ by omega
    rw [scatter_range_of_injOn hinj hk, memcpy, store_inside (by simpa using hk)]
    simp
  · rw [scatter_range_of_ne fun k hk heq ↦ hq (by omega), memcpy,
      store_outside (by simp; omega)]

section Loops

variable {p} {guestIova : BitVec 64} {len : ℕ} {pages : List (BitVec 64)}

theorem readLoop_eq (hmap : ∀ page ∈ pages, p.mapped page = true) (mem : Memory)
    (i done : ℕ) (dst : Memory) : readLoop p mem guestIova len i pages done dst =
      (.ok (), scatter dst ((tiles p guestIova len i pages done).map
        fun t ↦ (t.1, mem t.2))) := by
  induction pages generalizing i done dst with
  | nil => rfl
  | cons page pages ih =>
    rw [readLoop, if_pos (hmap page List.mem_cons_self),
      ih fun page' h ↦ hmap page' (List.mem_cons_of_mem page h), tiles, List.map_append,
      scatter_append, List.map_map, memcpy_eq_scatter]
    rfl

theorem writeLoop_eq (hmap : ∀ page ∈ pages, p.mapped page = true) (src : Memory)
    (i done : ℕ) (mem : Memory) : writeLoop p src guestIova len i pages done mem =
      (.ok (), scatter mem ((tiles p guestIova len i pages done).map
        fun t ↦ (t.2, src t.1))) := by
  induction pages generalizing i done mem with
  | nil => rfl
  | cons page pages ih =>
    rw [writeLoop, if_pos (hmap page List.mem_cons_self),
      ih fun page' h ↦ hmap page' (List.mem_cons_of_mem page h), tiles, List.map_append,
      scatter_append, List.map_map, memcpy_eq_scatter]
    rfl

end Loops

section Pages

@[simp]
theorem toNat_pageSize : p.pageSize.toNat = 2 ^ p.pageShift :=
  BitVec.toNat_twoPow_of_lt (Nat.lt_trans p.pageShift_lt (by decide))

theorem toNat_pageAlignDown (addr : BitVec 64) :
    (pageAlignDown p addr).toNat = addr.toNat / 2 ^ p.pageShift * 2 ^ p.pageShift :=
  toNat_and_not_mask addr (Nat.lt_trans p.pageShift_lt (by decide))

theorem toNat_offsetInPage (addr : BitVec 64) :
    (offsetInPage p addr).toNat = addr.toNat % 2 ^ p.pageShift :=
  toNat_and_mask addr (Nat.lt_trans p.pageShift_lt (by decide))

theorem locate_eq {addr page : BitVec 64} {offset : ℕ}
    (hpage : 2 ^ p.pageShift ∣ page.toNat) (hoffset : offset < 2 ^ p.pageShift)
    (h : addr.toNat = page.toNat + offset) :
    pageAlignDown p addr = page ∧ locate p addr = (translateIovaOnce p page).toNat + offset := by
  obtain ⟨q, hq⟩ := hpage
  have hpos := Nat.two_pow_pos p.pageShift
  have hdown : pageAlignDown p addr = page := by
    apply BitVec.eq_of_toNat_eq
    rw [toNat_pageAlignDown, h, hq, Nat.mul_add_div hpos, Nat.div_eq_of_lt hoffset,
      Nat.add_zero, Nat.mul_comm]
  refine ⟨hdown, ?_⟩
  rw [locate, hdown, toNat_offsetInPage, h, hq, Nat.mul_add_mod, Nat.mod_eq_of_lt hoffset]

/-- The page-rounded end of a range. -/
def pagesEnd (guestIova : BitVec 64) (len : ℕ) : ℕ :=
  (guestIova.toNat + len + (2 ^ p.pageShift - 1)) / 2 ^ p.pageShift * 2 ^ p.pageShift

def pageCount (guestIova : BitVec 64) (len : ℕ) : ℕ :=
  (guestIova.toNat + len + (2 ^ p.pageShift - 1)) / 2 ^ p.pageShift -
    guestIova.toNat / 2 ^ p.pageShift

def pagesFrom : ℕ → BitVec 64 → List (BitVec 64)
  | 0, _ => []
  | m + 1, iova => translateIovaOnce p iova :: pagesFrom m (iova + p.pageSize)

theorem length_pagesFrom (m : ℕ) (iova : BitVec 64) : (pagesFrom p m iova).length = m := by
  induction m generalizing iova with
  | zero => rfl
  | succ m ih => rw [pagesFrom, List.length_cons, ih]

variable {p}

theorem toNat_add_pageSize {iova : BitVec 64} (m : ℕ)
    (h : iova.toNat + (m + 1) * 2 ^ p.pageShift < 2 ^ 64) :
    (iova + p.pageSize).toNat = iova.toNat + 2 ^ p.pageShift := by
  rw [Nat.succ_mul] at h
  rw [BitVec.toNat_add, toNat_pageSize, Nat.mod_eq_of_lt (by omega)]

theorem translateLoop_eq {iova iovaEnd : BitVec 64} {m room : ℕ} (hroom : m ≤ room)
    (h : iova.toNat + m * 2 ^ p.pageShift = iovaEnd.toNat) :
    translateLoop p iovaEnd room iova =
      if 0 ∈ pagesFrom p m iova then .error .efault else .ok (pagesFrom p m iova) := by
  have hpos := Nat.two_pow_pos p.pageShift
  induction m generalizing iova room with
  | zero =>
    have hend : ¬ iova < iovaEnd := by
      rw [BitVec.lt_def]
      omega
    cases room with
    | zero => rfl
    | succ room =>
      rw [translateLoop, if_neg hend]
      rfl
  | succ m ih =>
    obtain ⟨room, rfl⟩ := Nat.exists_eq_add_of_le' (Nat.lt_of_lt_of_le (Nat.succ_pos m) hroom)
    have hlt : iova < iovaEnd := by
      rw [BitVec.lt_def, ← h, Nat.succ_mul]
      omega
    have hnext : (iova + p.pageSize).toNat = iova.toNat + 2 ^ p.pageShift :=
      toNat_add_pageSize m (h ▸ iovaEnd.isLt)
    have hrest : translateLoop p iovaEnd room (iova + p.pageSize) = _ :=
      ih (by omega) (by rw [hnext, ← h, Nat.succ_mul]; omega)
    rw [translateLoop, if_pos hlt, hrest, pagesFrom]
    by_cases hzero : translateIovaOnce p iova = 0
    · rw [if_pos hzero, if_pos (by rw [hzero]; exact List.mem_cons_self)]
    · rw [if_neg hzero]
      by_cases hmem : 0 ∈ pagesFrom p m (iova + p.pageSize)
      · rw [if_pos hmem, if_pos (List.mem_cons_of_mem _ hmem)]
        rfl
      · have hcons : 0 ∉ translateIovaOnce p iova :: pagesFrom p m (iova + p.pageSize) := by
          rw [List.mem_cons, not_or]
          exact ⟨Ne.symm hzero, hmem⟩
        rw [if_neg hmem, if_neg hcons]
        rfl

/-- The pages of a range, taken one after the other, tile it. -/
theorem tiles_eq {guestIova page : BitVec 64} {len m i done offset : ℕ}
    (hoffset : offset = if i = 0 then (offsetInPage p guestIova).toNat else 0)
    (hpage : 2 ^ p.pageShift ∣ page.toNat)
    (hcur : guestIova.toNat + done = page.toNat + offset)
    (hlo : guestIova.toNat + len ≤ page.toNat + m * 2 ^ p.pageShift)
    (hhi : page.toNat + m * 2 ^ p.pageShift < guestIova.toNat + len + 2 ^ p.pageShift)
    (hend : page.toNat + m * 2 ^ p.pageShift < 2 ^ 64) :
    tiles p guestIova len i (pagesFrom p m page) done = (List.range (len - done)).map
      fun k ↦ (done + k, locate p (guestIova + BitVec.ofNat 64 (done + k))) := by
  induction m generalizing page i done offset with
  | zero =>
    have hdone : len - done = 0 := by omega
    rw [hdone]
    rfl
  | succ m ih =>
    have hlt : offset < 2 ^ p.pageShift := by
      have hmod := toNat_offsetInPage p guestIova
      have hpos := Nat.two_pow_pos p.pageShift
      have hbound := Nat.mod_lt guestIova.toNat hpos
      split at hoffset <;> omega
    rw [Nat.succ_mul] at hlo hhi hend
    have hplace : ∀ k < min (2 ^ p.pageShift - offset) (len - done),
        locate p (guestIova + BitVec.ofNat 64 (done + k)) =
          (translateIovaOnce p page).toNat + offset + k := by
      intro k hk
      rw [Nat.add_assoc]
      refine (locate_eq p hpage (by omega) ?_).2
      rw [BitVec.toNat_add, BitVec.toNat_ofNat, Nat.add_mod_mod, Nat.mod_eq_of_lt (by omega)]
      omega
    rw [pagesFrom, tiles, ← hoffset, toNat_pageSize]
    rcases Nat.lt_or_ge (2 ^ p.pageShift - offset) (len - done) with hmore | hlast
    · have hnext : (page + p.pageSize).toNat = page.toNat + 2 ^ p.pageShift :=
        toNat_add_pageSize m (by rw [Nat.succ_mul]; exact hend)
      have hrest : tiles p guestIova len (i + 1) (pagesFrom p m (page + p.pageSize))
          (done + (2 ^ p.pageShift - offset)) = _ :=
        ih (if_neg (Nat.succ_ne_zero i)).symm
          (by rw [hnext]; exact Nat.dvd_add hpage (Nat.dvd_refl _)) (by omega) (by omega)
          (by omega) (by omega)
      rw [Nat.min_eq_left (Nat.le_of_lt hmore)] at hplace ⊢
      have hsplit : len - done =
          (2 ^ p.pageShift - offset) + (len - (done + (2 ^ p.pageShift - offset))) := by omega
      rw [hrest, hsplit, List.range_add, List.map_append, List.map_map]
      congr 1
      · refine List.map_congr_left fun k hk ↦ ?_
        rw [hplace k (List.mem_range.mp hk)]
      · refine List.map_congr_left fun k _ ↦ ?_
        simp [Nat.add_assoc]
    · have hm : m = 0 := by
        by_contra hne
        have hle := Nat.le_mul_of_pos_left (2 ^ p.pageShift) (Nat.pos_of_ne_zero hne)
        omega
      rw [Nat.min_eq_right hlast] at hplace ⊢
      subst hm
      rw [pagesFrom, tiles, List.append_nil]
      refine List.map_congr_left fun k hk ↦ ?_
      rw [hplace k (List.mem_range.mp hk)]

theorem pagesFrom_place (iova : BitVec 64) (i : ℕ) :
    iova + BitVec.ofNat 64 ((i + 1) * 2 ^ p.pageShift) =
      iova + p.pageSize + BitVec.ofNat 64 (i * 2 ^ p.pageShift) := by
  have hsize : p.pageSize = BitVec.ofNat 64 (2 ^ p.pageShift) := by
    rw [← toNat_pageSize, BitVec.ofNat_toNat, BitVec.setWidth_eq]
  rw [BitVec.add_assoc, Nat.succ_mul, Nat.add_comm, BitVec.ofNat_add, ← hsize]

theorem mem_pagesFrom {page iova : BitVec 64} {m : ℕ} : page ∈ pagesFrom p m iova ↔
    ∃ i < m, page = translateIovaOnce p (iova + BitVec.ofNat 64 (i * 2 ^ p.pageShift)) := by
  induction m generalizing iova with
  | zero => simp [pagesFrom]
  | succ m ih =>
    rw [pagesFrom, List.mem_cons, ih]
    constructor
    · rintro (rfl | ⟨i, hi, rfl⟩)
      · exact ⟨0, Nat.succ_pos m, by simp⟩
      · exact ⟨i + 1, Nat.succ_lt_succ hi, by rw [pagesFrom_place]⟩
    · rintro ⟨i, hi, rfl⟩
      cases i with
      | zero => exact .inl (by simp)
      | succ i => exact .inr ⟨i, Nat.lt_of_succ_lt_succ hi, by rw [pagesFrom_place]⟩

end Pages

section Range

variable {p} {guestIova len : BitVec 64}

/-- The page-rounded end of the range does not wrap. -/
def Below (p : Platform) (guestIova : BitVec 64) (len : ℕ) : Prop :=
  pagesEnd p guestIova len < 2 ^ 64

instance (p : Platform) (guestIova : BitVec 64) (len : ℕ) : Decidable (Below p guestIova len) :=
  inferInstanceAs (Decidable (_ < _))

theorem Below.end_lt (h : Below p guestIova len.toNat) :
    guestIova.toNat + len.toNat + (2 ^ p.pageShift - 1) < 2 ^ 64 := by
  have hpos := Nat.two_pow_pos p.pageShift
  have hsplit : 2 ^ 64 = 2 ^ (64 - p.pageShift) * 2 ^ p.pageShift := by
    have := p.pageShift_lt
    rw [← Nat.pow_add]
    congr 1
    omega
  rw [Below, pagesEnd, hsplit] at h
  have hlt := Nat.lt_of_mul_lt_mul_right h
  have hle := Nat.mul_le_mul_right (2 ^ p.pageShift) hlt
  have hdiv := Nat.lt_div_mul_add hpos (a := guestIova.toNat + len.toNat + (2 ^ p.pageShift - 1))
  rw [hsplit]
  rw [Nat.succ_mul] at hle
  omega

theorem pageCount_eq (guestIova : BitVec 64) (len : ℕ) :
    guestIova.toNat / 2 ^ p.pageShift * 2 ^ p.pageShift +
      pageCount p guestIova len * 2 ^ p.pageShift = pagesEnd p guestIova len := by
  rw [pageCount, pagesEnd, ← Nat.add_mul, Nat.add_sub_cancel']
  exact Nat.div_le_div_right (by omega)

theorem Below.toNat_pageAlign (h : Below p guestIova len.toNat) :
    (pageAlign p (guestIova + len)).toNat = pagesEnd p guestIova len.toNat := by
  have hlt := h.end_lt
  have hshift := Nat.lt_trans p.pageShift_lt (show 32 < 64 by decide)
  rw [pageAlign, Platform.pageSize, toNat_and_not_mask _ hshift, BitVec.toNat_add,
    BitVec.toNat_add, toNat_mask hshift, Nat.mod_add_mod, Nat.mod_eq_of_lt hlt]
  rfl

theorem Below.toNat_maxPages (h : Below p guestIova len.toNat) :
    ((pageAlign p (guestIova + len) - pageAlignDown p guestIova) >>> p.pageShift).toNat =
      pageCount p guestIova len.toNat := by
  have hcount := pageCount_eq (p := p) guestIova len.toNat
  have hle : pageAlignDown p guestIova ≤ pageAlign p (guestIova + len) := by
    rw [BitVec.le_def, h.toNat_pageAlign, toNat_pageAlignDown]
    omega
  rw [BitVec.toNat_ushiftRight, BitVec.toNat_sub_of_le hle, h.toNat_pageAlign,
    toNat_pageAlignDown, Nat.shiftRight_eq_div_pow, ← hcount, Nat.add_sub_cancel_left,
    Nat.mul_div_cancel _ (Nat.two_pow_pos _)]

theorem translateIova_eq (h : Below p guestIova len.toNat) : translateIova p guestIova len =
    if p.allocated (BitVec.ofNat 64 (pageCount p guestIova len.toNat)) then
      if 0 ∈ pagesFrom p (pageCount p guestIova len.toNat) (pageAlignDown p guestIova) then
        .error .efault
      else
        .ok (pagesFrom p (pageCount p guestIova len.toNat) (pageAlignDown p guestIova),
          BitVec.ofNat 32 (pageCount p guestIova len.toNat))
    else .error .enomem := by
  have hloop : translateLoop p (pageAlign p (guestIova + len)) (pageCount p guestIova len.toNat)
      (pageAlignDown p guestIova) = _ :=
    translateLoop_eq (Nat.le_refl _)
      (by rw [h.toNat_pageAlign, toNat_pageAlignDown, pageCount_eq])
  have hmax := h.toNat_maxPages
  have hbits : BitVec.ofNat 64 (pageCount p guestIova len.toNat) =
      (pageAlign p (guestIova + len) - pageAlignDown p guestIova) >>> p.pageShift := by
    rw [← hmax, BitVec.ofNat_toNat, BitVec.setWidth_eq]
  rw [translateIova, hbits, hmax, hloop]
  split_ifs
  · rfl
  · change Except.ok (_, BitVec.ofNat 32 (pagesFrom p _ _).length) = _
    rw [length_pagesFrom]
  · rfl

/-- Where the page-rounded end wraps, no page is translated. -/
theorem translateIova_of_not_below (h32 : len.toNat < 2 ^ 32)
    (hend : ¬ Below p guestIova len.toNat) : translateIova p guestIova len =
      if p.allocated ((pageAlign p (guestIova + len) - pageAlignDown p guestIova) >>> p.pageShift)
      then .ok ([], 0) else .error .enomem := by
  have hshift := p.pageShift_lt
  have hpow : 2 ^ p.pageShift < 2 ^ 32 := Nat.pow_lt_pow_right (by decide) hshift
  have hwrap : 2 ^ 64 ≤ guestIova.toNat + len.toNat + (2 ^ p.pageShift - 1) := by
    rw [Below, pagesEnd, Nat.not_lt] at hend
    exact hend.trans (Nat.div_mul_le_self _ _)
  have hrounded : (pageAlign p (guestIova + len)).toNat ≤
      guestIova.toNat + len.toNat + (2 ^ p.pageShift - 1) - 2 ^ 64 := by
    rw [pageAlign, Platform.pageSize, toNat_and_not_mask _ (by omega), BitVec.toNat_add,
      BitVec.toNat_add, toNat_mask (by omega), Nat.mod_add_mod]
    refine (Nat.div_mul_le_self _ _).trans ?_
    have hlt := guestIova.isLt
    omega
  have hdown := Nat.lt_div_mul_add (Nat.two_pow_pos p.pageShift) (a := guestIova.toNat)
  have hnot : ¬ pageAlignDown p guestIova < pageAlign p (guestIova + len) := by
    rw [BitVec.lt_def, toNat_pageAlignDown]
    omega
  have hloop (room : ℕ) : translateLoop p (pageAlign p (guestIova + len)) room
      (pageAlignDown p guestIova) = .ok [] := by
    cases room with
    | zero => rfl
    | succ room => rw [translateLoop, if_neg hnot]
  rw [translateIova, hloop]
  rfl

theorem pagesEnd_bounds (guestIova : BitVec 64) (len : ℕ) :
    guestIova.toNat + len ≤ pagesEnd p guestIova len ∧
      pagesEnd p guestIova len < guestIova.toNat + len + 2 ^ p.pageShift := by
  have hpos := Nat.two_pow_pos p.pageShift
  have hlo := Nat.lt_div_mul_add hpos (a := guestIova.toNat + len + (2 ^ p.pageShift - 1))
  have hhi := Nat.div_mul_le_self (guestIova.toNat + len + (2 ^ p.pageShift - 1))
    (2 ^ p.pageShift)
  rw [pagesEnd]
  omega

theorem pageCount_le (hlen : 0 < len.toNat) :
    pageCount p guestIova len.toNat ≤ len.toNat := by
  have hpos := Nat.two_pow_pos p.pageShift
  have hmod := Nat.mod_lt guestIova.toNat hpos
  have hsplit := Nat.div_add_mod guestIova.toNat (2 ^ p.pageShift)
  obtain ⟨n, hn⟩ : ∃ n, len.toNat = n + 1 := Nat.exists_eq_succ_of_ne_zero (Nat.ne_of_gt hlen)
  rw [pageCount, Nat.sub_le_iff_le_add, ← Nat.lt_succ_iff, Nat.div_lt_iff_lt_mul hpos, hn]
  have hexpand : (n + 1 + guestIova.toNat / 2 ^ p.pageShift).succ * 2 ^ p.pageShift =
      n * 2 ^ p.pageShift + 2 ^ p.pageShift * (guestIova.toNat / 2 ^ p.pageShift) +
        2 * 2 ^ p.pageShift := by
    rw [Nat.succ_eq_add_one]
    ring
  have hle := Nat.le_mul_of_pos_right n hpos
  omega

theorem pageAlignDown_add {k i r : ℕ} (hr : r < 2 ^ p.pageShift)
    (hk : guestIova.toNat % 2 ^ p.pageShift + k = i * 2 ^ p.pageShift + r)
    (hlt : guestIova.toNat + k < 2 ^ 64) : pageAlignDown p (guestIova + BitVec.ofNat 64 k) =
      pageAlignDown p guestIova + BitVec.ofNat 64 (i * 2 ^ p.pageShift) := by
  have hsplit := Nat.div_add_mod guestIova.toNat (2 ^ p.pageShift)
  rw [Nat.mul_comm] at hsplit
  have hpage : (pageAlignDown p guestIova + BitVec.ofNat 64 (i * 2 ^ p.pageShift)).toNat =
      guestIova.toNat / 2 ^ p.pageShift * 2 ^ p.pageShift + i * 2 ^ p.pageShift := by
    rw [BitVec.toNat_add, toNat_pageAlignDown, BitVec.toNat_ofNat, Nat.add_mod_mod,
      Nat.mod_eq_of_lt (by omega)]
  refine (locate_eq p ?_ hr ?_).1
  · rw [hpage, ← Nat.add_mul]
    exact Nat.dvd_mul_left _ _
  · rw [hpage, BitVec.toNat_add, BitVec.toNat_ofNat, Nat.add_mod_mod, Nat.mod_eq_of_lt hlt]
    omega

theorem Below.mem_pages_iff (h : Below p guestIova len.toNat) (hlen : 0 < len.toNat)
    {page : BitVec 64} :
    page ∈ pagesFrom p (pageCount p guestIova len.toNat) (pageAlignDown p guestIova) ↔
      ∃ k < len.toNat,
        page = translateIovaOnce p (pageAlignDown p (guestIova + BitVec.ofNat 64 k)) := by
  have hpos := Nat.two_pow_pos p.pageShift
  have hend := h.end_lt
  have hbounds := pagesEnd_bounds (p := p) guestIova len.toNat
  have hcount := pageCount_eq (p := p) guestIova len.toNat
  have hmod := Nat.mod_lt guestIova.toNat hpos
  have hsplit := Nat.div_add_mod guestIova.toNat (2 ^ p.pageShift)
  rw [Nat.mul_comm] at hsplit
  rw [mem_pagesFrom]
  constructor
  · rintro ⟨i, hi, rfl⟩
    have hle := Nat.mul_le_mul_right (2 ^ p.pageShift) hi
    rw [Nat.succ_mul] at hle
    rcases Nat.eq_zero_or_pos i with rfl | hipos
    · exact ⟨0, hlen, by simp⟩
    · have hle' := Nat.le_mul_of_pos_left (2 ^ p.pageShift) hipos
      refine ⟨i * 2 ^ p.pageShift - guestIova.toNat % 2 ^ p.pageShift, by omega, ?_⟩
      rw [pageAlignDown_add (r := 0) hpos (i := i) (by omega) (by omega)]
  · rintro ⟨k, hk, rfl⟩
    have hdiv := Nat.div_add_mod (guestIova.toNat % 2 ^ p.pageShift + k) (2 ^ p.pageShift)
    rw [Nat.mul_comm] at hdiv
    refine ⟨(guestIova.toNat % 2 ^ p.pageShift + k) / 2 ^ p.pageShift, ?_, ?_⟩
    · refine Nat.lt_of_mul_lt_mul_right (a := 2 ^ p.pageShift) ?_
      omega
    · rw [pageAlignDown_add (Nat.mod_lt _ hpos) hdiv.symm (by omega)]

theorem tiles_pages (h : Below p guestIova len.toNat) : tiles p guestIova len.toNat 0
    (pagesFrom p (pageCount p guestIova len.toNat) (pageAlignDown p guestIova)) 0 =
      (List.range len.toNat).map fun k ↦ (k, locate p (guestIova + BitVec.ofNat 64 k)) := by
  have hpages := pageCount_eq (p := p) guestIova len.toNat
  have hbounds := pagesEnd_bounds (p := p) guestIova len.toNat
  rw [← hpages, ← toNat_pageAlignDown] at hbounds
  rw [tiles_eq (if_pos rfl).symm _ _ hbounds.1 hbounds.2]
  · simp
  · rw [toNat_pageAlignDown, hpages]
    exact h
  · rw [toNat_pageAlignDown]
    exact Nat.dvd_mul_left _ _
  · rw [toNat_pageAlignDown, toNat_offsetInPage, Nat.div_add_mod', Nat.add_zero]

/-- What has to succeed for a transfer of the range to be served. -/
structure Served (p : Platform) (guestIova : BitVec 64) (len : ℕ) : Prop where
  allocated : p.allocated (BitVec.ofNat 64 (pageCount p guestIova len)) = true
  mapped : ∀ k < len, p.mapped
    (translateIovaOnce p (pageAlignDown p (guestIova + BitVec.ofNat 64 k))) = true

/-- Every page of the range has a translation. -/
def Translated (p : Platform) (guestIova : BitVec 64) (len : ℕ) : Prop :=
  ∀ k < len, translateIovaOnce p (pageAlignDown p (guestIova + BitVec.ofNat 64 k)) ≠ 0

instance (p : Platform) (guestIova : BitVec 64) (len : ℕ) :
    Decidable (Translated p guestIova len) :=
  inferInstanceAs (Decidable (∀ k < len, _ ≠ _))

variable (hlen : 0 < len.toNat) (h32 : len.toNat < 2 ^ 32) (hend : Below p guestIova len.toNat)
  (hserved : Served p guestIova len.toNat)
include hlen hend hserved

theorem translateIova_of_not (h : ¬ Translated p guestIova len.toNat) :
    translateIova p guestIova len = .error .efault := by
  rw [Translated, not_forall] at h
  obtain ⟨k, hk⟩ := h
  rw [Classical.not_imp, not_not] at hk
  rw [translateIova_eq hend, if_pos hserved.allocated,
    if_pos ((hend.mem_pages_iff hlen).mpr ⟨k, hk.1, hk.2.symm⟩)]

include h32

theorem translateIova_of_translated (h : Translated p guestIova len.toNat) :
    ∃ pages numPages, translateIova p guestIova len = .ok (pages, numPages) ∧
      (∀ page ∈ pages.take numPages.toNat, p.mapped page = true) ∧
      tiles p guestIova len.toNat 0 (pages.take numPages.toNat) 0 = (List.range len.toNat).map
        fun k ↦ (k, locate p (guestIova + BitVec.ofNat 64 k)) := by
  have hcount : pageCount p guestIova len.toNat ≤ len.toNat := pageCount_le hlen
  have hzero : 0 ∉ pagesFrom p (pageCount p guestIova len.toNat) (pageAlignDown p guestIova) := by
    intro hmem
    obtain ⟨k, hk, hpage⟩ := (hend.mem_pages_iff hlen).mp hmem
    exact h k hk hpage.symm
  have htake : (pagesFrom p (pageCount p guestIova len.toNat) (pageAlignDown p guestIova)).take
      (BitVec.ofNat 32 (pageCount p guestIova len.toNat)).toNat =
        pagesFrom p (pageCount p guestIova len.toNat) (pageAlignDown p guestIova) := by
    apply List.take_of_length_le
    rw [length_pagesFrom, BitVec.toNat_ofNat, Nat.mod_eq_of_lt (by omega)]
  refine ⟨_, _, by rw [translateIova_eq hend, if_pos hserved.allocated, if_neg hzero], ?_, ?_⟩
  · intro page hmem
    rw [htake] at hmem
    obtain ⟨k, hk, rfl⟩ := (hend.mem_pages_iff hlen).mp hmem
    exact hserved.mapped k hk
  · rw [htake, tiles_pages hend]

theorem read_eq (h : Translated p guestIova len.toNat) (mem dst : Memory) :
    pciemDmaReadFromGuest p mem guestIova dst len = (.ok (), scatter dst
      ((List.range len.toNat).map
        fun k ↦ (k, mem (locate p (guestIova + BitVec.ofNat 64 k))))) := by
  have hne : len ≠ 0 := by
    rintro rfl
    exact Nat.lt_irrefl 0 hlen
  obtain ⟨pages, numPages, hok, hmapped, htiles⟩ :=
    translateIova_of_translated hlen h32 hend hserved h
  rw [pciemDmaReadFromGuest, if_neg hne, hok]
  dsimp only
  rw [readLoop_eq hmapped, htiles, List.map_map]
  rfl

theorem write_eq (h : Translated p guestIova len.toNat) (mem src : Memory) :
    pciemDmaWriteToGuest p mem guestIova src len = (.ok (), scatter mem
      ((List.range len.toNat).map
        fun k ↦ (locate p (guestIova + BitVec.ofNat 64 k), src k))) := by
  have hne : len ≠ 0 := by
    rintro rfl
    exact Nat.lt_irrefl 0 hlen
  obtain ⟨pages, numPages, hok, hmapped, htiles⟩ :=
    translateIova_of_translated hlen h32 hend hserved h
  rw [pciemDmaWriteToGuest, if_neg hne, hok]
  dsimp only
  rw [writeLoop_eq hmapped, htiles, List.map_map]
  rfl

theorem read_apply (h : Translated p guestIova len.toNat) (mem dst : Memory) {k : ℕ}
    (hk : k < len.toNat) : (pciemDmaReadFromGuest p mem guestIova dst len).2 k =
      mem (locate p (guestIova + BitVec.ofNat 64 k)) := by
  rw [read_eq hlen h32 hend hserved h]
  exact scatter_range_of_injOn (fun i _ j _ hij ↦ hij) hk

/-- A paged transfer is the byte-wise one: it moves byte `k` to or from the place of address
`guestIova + k`, or fails with nothing moved when a page of the range has no translation. -/
theorem paged_dma_bytewise (mem : Memory) :
    (Translated p guestIova len.toNat →
      (∀ dst, (pciemDmaReadFromGuest p mem guestIova dst len).1 = .ok () ∧
        ∀ k < len.toNat, (pciemDmaReadFromGuest p mem guestIova dst len).2 k =
          mem (locate p (guestIova + BitVec.ofNat 64 k))) ∧
      (∀ src, pciemDmaWriteToGuest p mem guestIova src len = (.ok (), scatter mem
          ((List.range len.toNat).map
            fun k ↦ (locate p (guestIova + BitVec.ofNat 64 k), src k))) ∧
        ∀ q, (∀ k < len.toNat, locate p (guestIova + BitVec.ofNat 64 k) ≠ q) →
          (pciemDmaWriteToGuest p mem guestIova src len).2 q = mem q) ∧
      ((∀ i < len.toNat, ∀ j < len.toNat, locate p (guestIova + BitVec.ofNat 64 i) =
          locate p (guestIova + BitVec.ofNat 64 j) → i = j) →
        ∀ src dst, ∀ k < len.toNat, (pciemDmaReadFromGuest p
          (pciemDmaWriteToGuest p mem guestIova src len).2 guestIova dst len).2 k = src k)) ∧
    (¬ Translated p guestIova len.toNat →
      (∀ dst, pciemDmaReadFromGuest p mem guestIova dst len = (.error .efault, dst)) ∧
      ∀ src, pciemDmaWriteToGuest p mem guestIova src len = (.error .efault, mem)) := by
  have hne : len ≠ 0 := by
    rintro rfl
    exact Nat.lt_irrefl 0 hlen
  constructor
  · intro h
    refine ⟨fun dst ↦ ⟨?_, ?_⟩, fun src ↦ ⟨?_, ?_⟩, ?_⟩
    · rw [read_eq hlen h32 hend hserved h]
    · intro k hk
      exact read_apply hlen h32 hend hserved h mem dst hk
    · exact write_eq hlen h32 hend hserved h mem src
    · intro q hq
      rw [write_eq hlen h32 hend hserved h]
      exact scatter_range_of_ne hq
    · intro hinj src dst k hk
      rw [read_apply hlen h32 hend hserved h _ dst hk, write_eq hlen h32 hend hserved h]
      exact scatter_range_of_injOn hinj hk
  · intro h
    have herror := translateIova_of_not hlen hend hserved h
    refine ⟨fun dst ↦ ?_, fun src ↦ ?_⟩
    · rw [pciemDmaReadFromGuest, if_neg hne, herror]
    · rw [pciemDmaWriteToGuest, if_neg hne, herror]

end Range

/-- Four-kilobyte pages, no IOMMU, and nothing that fails. -/
def direct : Platform where
  pageShift := 12
  pageShift_lt := by decide
  domain := none
  allocated _ := true
  mapped _ := true

theorem paged_dma_bytewise_two_pages : (pciemDmaReadFromGuest direct
    (pciemDmaWriteToGuest direct (fun _ ↦ 0) 0x1FFE (fun k ↦ BitVec.ofNat 8 (k + 7)) 4).2
      0x1FFE (fun _ ↦ 0) 4).2 3 = 10 :=
  ((paged_dma_bytewise (by decide) (by decide) (by decide) ⟨rfl, fun _ _ ↦ rfl⟩ _).1
    (by decide)).2.2 (by decide) _ _ 3 (by decide)

end Pciem.Dma.Paged
