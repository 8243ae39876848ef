import Pciem.Dma.Walk

namespace Pciem.Dma.Stale

open Kernel Library.ByteMemory Library.Scatter Paged Indirect Walk

variable {p : Platform} {mem : Memory} {guestIova len : BitVec 64}

/-- The call has written byte `k` of the buffer: what the byte is then does not depend on what
was in the buffer before. -/
def Written (p : Platform) (mem : Memory) (guestIova len : BitVec 64) (k : ℕ) : Prop :=
  ∀ dst dst', (pciemDmaReadFromGuest p mem guestIova dst len).2 k =
    (pciemDmaReadFromGuest p mem guestIova dst' len).2 k

/-- The pages that `translate_iova` makes room for. -/
def maxPages (p : Platform) (guestIova len : BitVec 64) : BitVec 64 :=
  (pageAlign p (guestIova + len) - pageAlignDown p guestIova) >>> p.pageShift

theorem mapped_of_readLoop {n i done : ℕ} {pages : List (BitVec 64)} {dst : Memory}
    (h : (readLoop p mem guestIova n i pages done dst).1 = .ok ()) :
    ∀ page ∈ pages, p.mapped page = true := by
  induction pages generalizing i done dst with
  | nil => exact fun _ hpage ↦ absurd hpage List.not_mem_nil
  | cons page pages ih =>
    rw [readLoop] at h
    by_cases hmap : p.mapped page = true
    · rw [if_pos hmap] at h
      intro page' hpage'
      rcases List.mem_cons.mp hpage' with rfl | hpage'
      · exact hmap
      · exact ih h page' hpage'
    · rw [if_neg hmap] at h
      cases h

theorem translateIova_of_not_allocated (h : p.allocated (maxPages p guestIova len) = false) :
    translateIova p guestIova len = .error .enomem := by
  rw [maxPages] at h
  rw [translateIova, h]
  rfl

/-- A read that returns 0 below the end of the address space has taken every byte of the buffer
from the guest. -/
theorem read_of_below (h32 : len.toNat < 2 ^ 32) (hend : Below p guestIova len.toNat)
    {dst : Memory} (h : (pciemDmaReadFromGuest p mem guestIova dst len).1 = .ok ()) {k : ℕ}
    (hk : k < len.toNat) : (pciemDmaReadFromGuest p mem guestIova dst len).2 k =
      mem (locate p (guestIova + BitVec.ofNat 64 k)) := by
  have hcount : pageCount p guestIova len.toNat ≤ len.toNat :=
    pageCount_le (Nat.lt_of_le_of_lt (Nat.zero_le k) hk)
  have hne : len ≠ 0 := by
    rintro rfl
    exact Nat.not_lt_zero k hk
  rw [pciemDmaReadFromGuest, if_neg hne, translateIova_eq hend] at h ⊢
  split_ifs at h ⊢
  dsimp only at h ⊢
  rw [BitVec.toNat_ofNat, Nat.mod_eq_of_lt (by omega), List.take_of_length_le
    (by rw [length_pagesFrom])] at h ⊢
  rw [readLoop_eq (mapped_of_readLoop h), tiles_pages hend, List.map_map]
  exact scatter_range_of_injOn (fun i _ j _ hij ↦ hij) hk

theorem read_of_not_below (mem : Memory) (hlen : len ≠ 0) (h32 : len.toNat < 2 ^ 32)
    (hend : ¬ Below p guestIova len.toNat) (halloc : p.allocated (maxPages p guestIova len) = true)
    (dst : Memory) : pciemDmaReadFromGuest p mem guestIova dst len = (.ok (), dst) := by
  rw [maxPages] at halloc
  rw [pciemDmaReadFromGuest, if_neg hlen, translateIova_of_not_below h32 hend, if_pos halloc]
  rfl

/-- A read that returns 0 has written the whole buffer, unless the page-rounded end of the range
wraps and there is room for the pages. -/
theorem read_fills_buffer_iff (p : Platform) (mem : Memory) (guestIova : BitVec 64)
    {length : BitVec 32} (hlen : length ≠ 0) :
    (∀ dst, (pciemDmaReadFromGuest p mem guestIova dst (length.setWidth 64)).1 = .ok () →
      ∀ k < length.toNat, Written p mem guestIova (length.setWidth 64) k) ↔
    Below p guestIova length.toNat ∨
      p.allocated (maxPages p guestIova (length.setWidth 64)) = false := by
  have htoNat := toNat_size length
  have h32 : (length.setWidth 64).toNat < 2 ^ 32 := htoNat ▸ length.isLt
  have hpos : 0 < length.toNat := by
    apply Nat.pos_of_ne_zero
    intro hzero
    exact hlen (BitVec.eq_of_toNat_eq hzero)
  have hne : length.setWidth 64 ≠ 0 := by
    intro hzero
    rw [hzero] at htoNat
    exact Nat.ne_of_lt hpos htoNat
  rw [← htoNat] at hpos ⊢
  constructor
  · intro h
    by_contra hcon
    rw [not_or, Bool.not_eq_false] at hcon
    have hread := read_of_not_below mem hne h32 hcon.1 hcon.2
    have hzero := h (fun _ ↦ 0) (by rw [hread]) 0 hpos (fun _ ↦ 0) (fun _ ↦ 1)
    rw [hread, hread] at hzero
    exact absurd hzero (by decide)
  · rintro (hend | halloc) dst hok k hk dst' dst''
    · have hret (dst₁ : Memory) :
          (pciemDmaReadFromGuest p mem guestIova dst₁ (length.setWidth 64)).1 = .ok () :=
        (read_congr p mem guestIova dst₁ dst _ 0).1.trans hok
      rw [read_of_below h32 hend (hret dst') hk, read_of_below h32 hend (hret dst'') hk]
    · rw [pciemDmaReadFromGuest, if_neg hne, translateIova_of_not_allocated halloc] at hok
      cases hok

section Ioctl

structure PciemDmaOp where
  guestIova : BitVec 64
  userAddr : BitVec 64
  length : BitVec 32
  flags : BitVec 32
  func : BitVec 8

/-- One call, with what the kernel's allocation and user copies do in it. -/
structure DmaCall where
  us : PciemUserspaceState
  op : PciemDmaOp
  argCopied : Bool
  /-- What `kmalloc` returns, with what is in the memory before anything is stored there. -/
  kernelBuf : Option Memory
  /-- How many bytes a user copy at the address, of the length, leaves out. -/
  uncopied : BitVec 64 → ℕ → ℕ

/-- What the call does once it has its buffer and its function. -/
def dmaTransfer (c : DmaCall) (v : Platform) (kernelBuf guest : Memory) (user : UserMemory) :
    Outcome :=
  let uncopied := c.uncopied c.op.userAddr c.op.length.toNat
  if c.op.flags &&& pciemDmaFlagWrite ≠ 0 then
    if uncopied ≠ 0 then
      (.error .efault, guest, user)
    else
      let kernelBuf := copyFromUser kernelBuf user c.op.userAddr c.op.length.toNat uncopied
      let (ret, guest) :=
        pciemDmaWriteToGuest v guest c.op.guestIova kernelBuf (c.op.length.setWidth 64)
      (ret, guest, user)
  else
    let (ret, kernelBuf) :=
      pciemDmaReadFromGuest v guest c.op.guestIova kernelBuf (c.op.length.setWidth 64)
    match ret with
    | .error e => (.error e, guest, user)
    | .ok () =>
      (if uncopied ≠ 0 then .error .efault else .ok (), guest,
        copyToUser user c.op.userAddr kernelBuf c.op.length.toNat uncopied)

def pciemIoctlDma (c : DmaCall) (guest : Memory) (user : UserMemory) : Outcome :=
  match pciemCheckRegistered c.us with
  | .error e => (.error e, guest, user)
  | .ok () =>
    if c.argCopied = false then
      (.error .efault, guest, user)
    else if c.op.length = 0 then
      (.error .einval, guest, user)
    else
      match c.kernelBuf, usGetRc c.us c.op.func with
      | none, _ => (.error .enomem, guest, user)
      | some _, none => (.error .enodev, guest, user)
      | some kernelBuf, some v => dmaTransfer c v kernelBuf guest user

end Ioctl

theorem read_fills_buffer_iff_two_pages : Written direct (fun _ ↦ 7) 0x1FFE 4 3 :=
  (read_fills_buffer_iff direct (fun _ ↦ 7) 0x1FFE (show (4 : BitVec 32) ≠ 0 by decide)).mpr
    (.inl (by decide)) (fun _ ↦ 0) rfl 3 (by decide)

/-- One byte of the last page of the address space is read as 0, with nothing copied. -/
theorem last_page_read_as_stale : ¬ ∀ (p : Platform) (mem dst : Memory) (guestIova : BitVec 64)
    (length : BitVec 32), length ≠ 0 →
      (pciemDmaReadFromGuest p mem guestIova dst (length.setWidth 64)).1 = .ok () →
        ∀ k < length.toNat, Written p mem guestIova (length.setWidth 64) k := by
  intro h
  have hwritten := h direct (fun _ ↦ 7) (fun _ ↦ 0) 0xFFFFFFFFFFFFFFFF 1 (by decide) rfl 0
    (by decide) (fun _ ↦ 0) (fun _ ↦ 1)
  exact absurd hwritten (by decide)

end Pciem.Dma.Stale
