import Pciem.Dma.Paged
import Pciem.Kernel.PciRegs
import Pciem.Library.Loop

namespace Pciem.Dma.Indirect

open Kernel Library.ByteMemory Library.PowerOfTwo Library.Scatter Library.Loop Paged

def pciemDmaFlagWrite : BitVec 32 := 0x2

inductive Registration
  | unregistered
  | registering
  | registered

/-- The functions of a slot, each with what its DMA uses. -/
structure PciemUserspaceState where
  registered : Registration
  funcs : ℕ → Option Platform

structure PciemDmaIndirect where
  prp1 : BitVec 64
  prp2 : BitVec 64
  userAddr : BitVec 64
  length : BitVec 32
  pageSize : BitVec 32
  flags : BitVec 32
  func : BitVec 8

abbrev UserMemory := BitVec 64 → BitVec 8

/-- One call, with what the kernel's allocations and user copies do in it. -/
structure Call where
  us : PciemUserspaceState
  req : PciemDmaIndirect
  argCopied : Bool
  allocated : Bool
  /-- How many bytes a user copy at the address, of the length, leaves out. -/
  uncopied : BitVec 64 → ℕ → ℕ

/-- The memories that the call works on and its local variables. -/
structure Transfer where
  guest : Memory
  user : UserMemory
  listBuf : Memory
  dataBuf : Memory
  remaining : BitVec 32
  userPtr : BitVec 64
  curPrpList : BitVec 64
  listBytes : BitVec 32
  maxEntries : BitVec 32
  listIdx : BitVec 32

/-- What the call returns, and the memories of the guest and of userspace then. -/
abbrev Outcome := Except Errno Unit × Memory × UserMemory

def Transfer.outcome (t : Transfer) (ret : Except Errno Unit) : Outcome := (ret, t.guest, t.user)

def usGetRc (us : PciemUserspaceState) (func : BitVec 8) : Option Platform :=
  if func.toNat ≥ pciemMaxFunctions then none else us.funcs func.toNat

def pciemCheckRegistered (us : PciemUserspaceState) : Except Errno Unit :=
  if (us.funcs 0).isNone then
    .error .einval
  else
    match us.registered with
    | .registering => .error .ebusy
    | .unregistered => .error .einval
    | .registered => .ok ()

/-- The bytes that are left out read as 0. -/
def copyFromUser (buf : Memory) (user : UserMemory) (ptr : BitVec 64) (n uncopied : ℕ) : Memory :=
  store buf 0 ((List.range n).map
    fun k ↦ if k < n - uncopied then user (ptr + BitVec.ofNat 64 k) else 0)

def copyToUser (user : UserMemory) (ptr : BitVec 64) (buf : Memory) (n uncopied : ℕ) :
    UserMemory :=
  scatter user ((List.range (n - uncopied)).map fun k ↦ (ptr + BitVec.ofNat 64 k, buf k))

variable (c : Call) (v : Platform)

/-- One segment of the transfer through `data_buf`. -/
def moveSegment (t : Transfer) (iova : BitVec 64) (chunk : BitVec 32) :
    Except Errno Unit × Transfer :=
  let uncopied := c.uncopied t.userPtr chunk.toNat
  if c.req.flags &&& pciemDmaFlagWrite ≠ 0 then
    let t := { t with dataBuf := copyFromUser t.dataBuf t.user t.userPtr chunk.toNat uncopied }
    if uncopied ≠ 0 then
      (.error .efault, t)
    else
      let (ret, guest) := pciemDmaWriteToGuest v t.guest iova t.dataBuf (chunk.setWidth 64)
      (ret, { t with guest })
  else
    let (ret, dataBuf) := pciemDmaReadFromGuest v t.guest iova t.dataBuf (chunk.setWidth 64)
    let t := { t with dataBuf }
    match ret with
    | .error e => (.error e, t)
    | .ok () =>
      let t := { t with user := copyToUser t.user t.userPtr t.dataBuf chunk.toNat uncopied }
      (if uncopied ≠ 0 then .error .efault else .ok (), t)

def Transfer.advance (t : Transfer) (chunk : BitVec 32) : Transfer :=
  { t with remaining := t.remaining - chunk, userPtr := t.userPtr + chunk.setWidth 64 }

/-- The bytes from an address to the end of its page, in pages of the request's size. -/
def restOfPage (pageSize : BitVec 32) (addr : BitVec 64) : BitVec 32 :=
  pageSize - (addr &&& (pageSize - 1).setWidth 64).setWidth 32

/-- A list read into `list_buf`, from the address to the end of its page. -/
def readList (t : Transfer) (curPrpList : BitVec 64) : Except Errno Unit × Transfer :=
  let listBytes := restOfPage c.req.pageSize curPrpList
  let (ret, listBuf) :=
    pciemDmaReadFromGuest v t.guest curPrpList t.listBuf (listBytes.setWidth 64)
  (ret, { t with curPrpList, listBytes, maxEntries := listBytes / 8, listBuf, listIdx := 0 })

def Transfer.prps (t : Transfer) (i : BitVec 32) : BitVec 64 := load t.listBuf (8 * i.toNat) 8

/-- The slot at `list_idx` is the address of the next list. -/
def FollowsPointer (t : Transfer) : Prop :=
  t.listIdx = t.maxEntries - 1 ∧ t.remaining > c.req.pageSize

instance (t : Transfer) : Decidable (FollowsPointer c t) := inferInstanceAs (Decidable (_ ∧ _))

def entryChunk (t : Transfer) : BitVec 32 :=
  if t.remaining < c.req.pageSize then t.remaining else c.req.pageSize

/-- One turn of the list loop. -/
def listStep (t : Transfer) : Transfer ⊕ Outcome :=
  if t.remaining = 0 then
    .inr (t.outcome (.ok ()))
  else if FollowsPointer c t then
    match readList c v t (t.prps t.listIdx) with
    | (.error e, t) => .inr (t.outcome (.error e))
    | (.ok (), t) => .inl t
  else
    let dataPhys := t.prps t.listIdx
    let chunk := entryChunk c t
    match moveSegment c v { t with listIdx := t.listIdx + 1 } dataPhys chunk with
    | (.error e, t) => .inr (t.outcome (.error e))
    | (.ok (), t) => .inl (t.advance chunk)

def firstChunk (t : Transfer) : BitVec 32 :=
  let chunk := restOfPage c.req.pageSize c.req.prp1
  if chunk > t.remaining then t.remaining else chunk

/-- The part of the call for a request that can be served, up to the list loop. -/
def transferStart (t : Transfer) : Transfer ⊕ Outcome :=
  let chunk := firstChunk c t
  match moveSegment c v t c.req.prp1 chunk with
  | (.error e, t) => .inr (t.outcome (.error e))
  | (.ok (), t) =>
    let t := t.advance chunk
    if t.remaining = 0 then
      .inr (t.outcome (.ok ()))
    else if t.remaining ≤ c.req.pageSize then
      let (ret, t) := moveSegment c v t c.req.prp2 t.remaining
      .inr (t.outcome ret)
    else
      match readList c v t c.req.prp2 with
      | (.error e, t) => .inr (t.outcome (.error e))
      | (.ok (), t) => .inl t

def ValidPageSize (pageSize : BitVec 32) : Prop :=
  ¬ (pageSize < 4096 ∨ pageSize > 65536 ∨ pageSize &&& (pageSize - 1) ≠ 0)

instance (pageSize : BitVec 32) : Decidable (ValidPageSize pageSize) :=
  inferInstanceAs (Decidable (¬ (_ ∨ _ ∨ _)))

/-- The call up to the list loop: the function that serves it and the state in which the loop
begins, or the outcome. `t` has the memories, and what the buffers hold before. -/
def dmaIndirectStart (t : Transfer) : (Platform × Transfer) ⊕ Outcome :=
  match pciemCheckRegistered c.us with
  | .error e => .inr (t.outcome (.error e))
  | .ok () =>
    if ¬ c.argCopied then
      .inr (t.outcome (.error .efault))
    else if c.req.length = 0 then
      .inr (t.outcome (.ok ()))
    else if ¬ ValidPageSize c.req.pageSize then
      .inr (t.outcome (.error .einval))
    else if ¬ c.allocated then
      .inr (t.outcome (.error .enomem))
    else
      match usGetRc c.us c.req.func with
      | none => .inr (t.outcome (.error .enodev))
      | some v =>
        match transferStart c v
          { t with remaining := c.req.length, userPtr := c.req.userAddr } with
        | .inr r => .inr r
        | .inl t => .inl (v, t)

/-- `none` where the list loop has not ended after `fuel` turns. -/
def pciemIoctlDmaIndirect (t : Transfer) (fuel : ℕ) : Option Outcome :=
  match dmaIndirectStart c t with
  | .inr r => some r
  | .inl (v, t) => run (listStep c v) fuel t

section Steps

variable {c v} {t s : Transfer}

theorem moveSegment_frame (iova : BitVec 64) (chunk : BitVec 32) : ∃ guest user dataBuf,
    (moveSegment c v t iova chunk).2 = { t with guest, user, dataBuf } := by
  rw [moveSegment]
  split
  · split
    · exact ⟨_, _, _, rfl⟩
    · exact ⟨_, _, _, rfl⟩
  · dsimp only
    split
    · exact ⟨_, _, _, rfl⟩
    · exact ⟨_, _, _, rfl⟩

theorem readList_eq_ok {curPrpList : BitVec 64}
    (h : readList c v t curPrpList = (.ok (), s)) : ∃ listBuf,
      pciemDmaReadFromGuest v t.guest curPrpList t.listBuf
        ((restOfPage c.req.pageSize curPrpList).setWidth 64) = (.ok (), listBuf) ∧
      s = { t with
        curPrpList
        listBytes := restOfPage c.req.pageSize curPrpList
        maxEntries := restOfPage c.req.pageSize curPrpList / 8
        listBuf
        listIdx := 0 } := by
  rw [readList] at h
  cases hread : pciemDmaReadFromGuest v t.guest curPrpList t.listBuf
    ((restOfPage c.req.pageSize curPrpList).setWidth 64) with
  | mk ret listBuf =>
    rw [hread] at h
    cases h
    exact ⟨listBuf, rfl, rfl⟩

theorem listStep_eq_inl (h : listStep c v t = .inl s) : t.remaining ≠ 0 ∧
    ((FollowsPointer c t ∧ readList c v t (t.prps t.listIdx) = (.ok (), s)) ∨
      (¬ FollowsPointer c t ∧ ∃ guest user dataBuf, s =
        { t with guest, user, dataBuf, listIdx := t.listIdx + 1 }.advance (entryChunk c t))) := by
  rw [listStep] at h
  split at h
  · cases h
  · rename_i hne
    refine ⟨hne, ?_⟩
    split at h
    · rename_i hptr
      split at h
      · cases h
      · rename_i t' hread
        cases h
        exact .inl ⟨hptr, hread⟩
    · rename_i hptr
      dsimp only at h
      split at h
      · cases h
      · rename_i t' hmove
        cases h
        obtain ⟨guest, user, dataBuf, hframe⟩ := moveSegment_frame (c := c) (v := v)
          (t := { t with listIdx := t.listIdx + 1 }) (t.prps t.listIdx) (entryChunk c t)
        rw [hmove] at hframe
        subst hframe
        exact .inr ⟨hptr, guest, user, dataBuf, rfl⟩

theorem dmaIndirectStart_eq_inl (h : dmaIndirectStart c t = .inl (v, s)) :
    ValidPageSize c.req.pageSize ∧
      ∃ t', c.req.pageSize < t'.remaining ∧ readList c v t' c.req.prp2 = (.ok (), s) := by
  rw [dmaIndirectStart] at h
  split at h
  · cases h
  · split_ifs at h with _ _ hsize
    · refine ⟨hsize, ?_⟩
      split at h
      · cases h
      · split at h
        · cases h
        · rename_i hstart
          cases h
          rw [transferStart] at hstart
          dsimp only at hstart
          split at hstart
          · cases hstart
          · split_ifs at hstart with _ hmore
            rw [BitVec.not_le] at hmore
            split at hstart
            · cases hstart
            · rename_i hread
              cases hstart
              exact ⟨_, hmore, hread⟩

end Steps

theorem exists_shift_of_validPageSize {pageSize : BitVec 32} (h : ValidPageSize pageSize) :
    ∃ k, 12 ≤ k ∧ k ≤ 16 ∧ pageSize = .twoPow 32 k := by
  rw [ValidPageSize, not_or, not_or, not_not, BitVec.not_lt, BitVec.not_lt] at h
  obtain ⟨hlo, hhi, hand⟩ := h
  have hne : pageSize ≠ 0 := by
    rintro rfl
    exact absurd hlo (by decide)
  obtain ⟨k, hk, rfl⟩ := isPowerOfTwo_iff.mp ⟨hne, hand⟩
  rw [BitVec.le_def, BitVec.toNat_twoPow_of_lt hk] at hlo hhi
  refine ⟨k, ?_, ?_, rfl⟩
  · exact (Nat.pow_le_pow_iff_right (a := 2) (n := 12) (by decide)).mp hlo
  · exact (Nat.pow_le_pow_iff_right (a := 2) (m := 16) (by decide)).mp hhi

theorem toNat_restOfPage {pageSize : BitVec 32} (h : ValidPageSize pageSize)
    (addr : BitVec 64) :
    (restOfPage pageSize addr).toNat = pageSize.toNat - addr.toNat % pageSize.toNat := by
  obtain ⟨k, hlo, hhi, rfl⟩ := exists_shift_of_validPageSize h
  have hk : k < 32 := by omega
  have hmask : (BitVec.twoPow 32 k - 1).setWidth 64 = BitVec.twoPow 64 k - 1 := by
    apply BitVec.eq_of_toNat_eq
    rw [BitVec.toNat_setWidth_of_le (by decide), toNat_mask hk, toNat_mask (by omega)]
  have hmod := Nat.mod_lt addr.toNat (Nat.two_pow_pos k)
  have hpow := Nat.pow_lt_pow_right (a := 2) (by decide) hk
  have hoffset : ((addr &&& (BitVec.twoPow 64 k - 1)).setWidth 32).toNat =
      addr.toNat % 2 ^ k := by
    rw [BitVec.toNat_setWidth, toNat_and_mask addr (by omega), Nat.mod_eq_of_lt (by omega)]
  rw [restOfPage, hmask, BitVec.toNat_sub_of_le, hoffset, BitVec.toNat_twoPow_of_lt hk]
  rw [BitVec.le_def, hoffset, BitVec.toNat_twoPow_of_lt hk]
  omega

theorem pageSize_bounds {pageSize : BitVec 32} (h : ValidPageSize pageSize) :
    4096 ≤ pageSize.toNat ∧ pageSize.toNat ≤ 65536 := by
  rw [ValidPageSize, not_or, not_or, BitVec.not_lt, BitVec.not_lt] at h
  exact ⟨h.1, h.2.1⟩

theorem restOfPage_bounds {pageSize : BitVec 32} (h : ValidPageSize pageSize)
    (addr : BitVec 64) : 0 < (restOfPage pageSize addr).toNat ∧
      (restOfPage pageSize addr).toNat ≤ pageSize.toNat := by
  have hsize := pageSize_bounds h
  have hmod := Nat.mod_lt addr.toNat (show 0 < pageSize.toNat by omega)
  rw [toNat_restOfPage h]
  omega

end Pciem.Dma.Indirect
