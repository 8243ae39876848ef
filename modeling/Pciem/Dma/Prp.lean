import Pciem.Dma.Walk
import Pciem.Library.LinkedPages

namespace Pciem.Dma.Prp

open Kernel Library.ByteMemory Library.Scatter Library.Loop Library.LinkedPages Paged Indirect
  Walk

/-- A range of device addresses: where it starts, and its bytes. -/
abbrev Segment := BitVec 64 × ℕ

/-- The memory of the guest as a device sees it from an address on. -/
def window (v : Platform) (guest : Memory) (addr : BitVec 64) : Memory :=
  fun k ↦ guest (locate v (addr + BitVec.ofNat 64 k))

/-- Entry `i` of the PRP list at an address. -/
def slot (v : Platform) (guest : Memory) (list : BitVec 64) (i : ℕ) : BitVec 64 :=
  load (window v guest list) (8 * i) 8

/-- The bytes of the page of an address that are not before it. -/
def tail (pageSize : ℕ) (addr : BitVec 64) : ℕ := pageSize - addr.toNat % pageSize

def slots (pageSize : ℕ) (list : BitVec 64) : ℕ := tail pageSize list / 8

/-- The entries that so many bytes take. -/
def needed (pageSize n : ℕ) : ℕ := (n + pageSize - 1) / pageSize

/-- Each entry stands for a page, and the last one for what is left. -/
def entrySegments (pageSize : ℕ) : List (BitVec 64) → ℕ → List Segment
  | [], _ => []
  | entry :: entries, n =>
    (entry, min n pageSize) :: entrySegments pageSize entries (n - pageSize)

/-- The segments that the PRP rules give a request, and the lists that hold them. -/
inductive PrpSegments (v : Platform) (guest : Memory) (req : PciemDmaIndirect) :
    List Segment → List (BitVec 64) → Prop
  | one : req.length.toNat ≤ tail req.pageSize.toNat req.prp1 →
      PrpSegments v guest req [(req.prp1, req.length.toNat)] []
  | two (rest : ℕ) : 0 < rest → rest ≤ req.pageSize.toNat →
      req.length.toNat = tail req.pageSize.toNat req.prp1 + rest →
      PrpSegments v guest req
        [(req.prp1, tail req.pageSize.toNat req.prp1), (req.prp2, rest)] []
  | list (rest : ℕ) {entries lists : List (BitVec 64)} : req.pageSize.toNat < rest →
      req.length.toNat = tail req.pageSize.toNat req.prp1 + rest →
      Listed (slots req.pageSize.toNat) (slot v guest) req.prp2 0
        (needed req.pageSize.toNat rest) entries lists →
      PrpSegments v guest req ((req.prp1, tail req.pageSize.toNat req.prp1) ::
        entrySegments req.pageSize.toNat entries rest) (req.prp2 :: lists)

/-- The places of the bytes of a range, in order. -/
def segmentCells (v : Platform) (segment : Segment) : List ℕ :=
  (List.range segment.2).map fun k ↦ locate v (segment.1 + BitVec.ofNat 64 k)

def cells (v : Platform) (segments : List Segment) : List ℕ := segments.flatMap (segmentCells v)

def userCells (ptr : BitVec 64) (n : ℕ) : List (BitVec 64) :=
  (List.range n).map fun k ↦ ptr + BitVec.ofNat 64 k

/-- The memories after a transfer between the places and the user buffer: a write scatters
the buffer over the places, a read fills it with what they hold. -/
def transferred (write : Prop) [Decidable write] (guest : Memory) (user : UserMemory)
    (ptr : BitVec 64) (places : List ℕ) : Memory × UserMemory :=
  if write then
    (scatter guest (places.zip ((userCells ptr places.length).map user)), user)
  else
    (guest, scatter user ((userCells ptr places.length).zip (places.map guest)))

/-- A range that a transfer can take in whole: it ends below the last page of the 64-bit
space, and each of its pages translates and maps. -/
structure Accessible (v : Platform) (segment : Segment) : Prop where
  below : Below v segment.1 segment.2
  translated : Translated v segment.1 segment.2
  served : Served v segment.1 segment.2

section Lists

variable {v : Platform} {ptr : BitVec 64} {m n : ℕ}

theorem userCells_add : userCells ptr (m + n) =
    userCells ptr m ++ userCells (ptr + BitVec.ofNat 64 m) n := by
  rw [userCells, userCells, userCells, List.range_add, List.map_append, List.map_map]
  congr 1
  refine List.map_congr_left fun k _ ↦ ?_
  rw [Function.comp_apply, BitVec.ofNat_add, BitVec.add_assoc]

@[simp]
theorem length_userCells (ptr : BitVec 64) (n : ℕ) : (userCells ptr n).length = n := by
  simp [userCells]

@[simp]
theorem length_segmentCells (segment : Segment) :
    (segmentCells v segment).length = segment.2 := by
  simp [segmentCells]

theorem transferred_append (write : Prop) [Decidable write] (guest : Memory)
    (user : UserMemory) (ptr : BitVec 64) (places places' : List ℕ) :
    transferred write guest user ptr (places ++ places') =
      transferred write (transferred write guest user ptr places).1
        (transferred write guest user ptr places).2
        (ptr + BitVec.ofNat 64 places.length) places' := by
  rw [transferred, List.length_append, userCells_add]
  by_cases hw : write
  · simp only [transferred, if_pos hw, List.map_append]
    rw [List.zip_append (by simp), scatter_append]
  · simp only [transferred, if_neg hw, List.map_append]
    rw [List.zip_append (by simp), scatter_append]

theorem cells_cons (segment : Segment) (segments : List Segment) :
    cells v (segment :: segments) = segmentCells v segment ++ cells v segments :=
  List.flatMap_cons

end Lists

section Needed

variable {pageSize n : ℕ}

theorem needed_zero (h : 0 < pageSize) : needed pageSize 0 = 0 := by
  rw [needed, Nat.zero_add]
  exact Nat.div_eq_of_lt (by omega)

theorem needed_eq_one (hn : 0 < n) (h : n ≤ pageSize) : needed pageSize n = 1 := by
  rw [needed]
  exact Nat.div_eq_of_lt_le (by omega) (by omega)

theorem needed_add (h : 0 < pageSize) : needed pageSize (n + pageSize) = needed pageSize n + 1 := by
  rw [needed, needed, ← Nat.add_div_right _ h]
  congr 1
  omega

theorem needed_pos (h : 0 < pageSize) (hn : 0 < n) : 0 < needed pageSize n :=
  Nat.div_pos (by omega) h

end Needed

/-- The transfer goes to the guest. -/
abbrev Writes (req : PciemDmaIndirect) : Prop := req.flags &&& pciemDmaFlagWrite ≠ 0

section Moves

variable {c : Call} {v : Platform} {t : Transfer}

theorem transferred_segment (write : Prop) [Decidable write] (guest : Memory)
    (user : UserMemory) (ptr : BitVec 64) (segment : Segment) :
    transferred write guest user ptr (segmentCells v segment) =
      if write then
        (scatter guest ((List.range segment.2).map fun k ↦
          (locate v (segment.1 + BitVec.ofNat 64 k), user (ptr + BitVec.ofNat 64 k))), user)
      else
        (guest, scatter user ((List.range segment.2).map fun k ↦
          (ptr + BitVec.ofNat 64 k, guest (locate v (segment.1 + BitVec.ofNat 64 k))))) := by
  rw [transferred, length_segmentCells, segmentCells, userCells, List.map_map, List.map_map,
    List.zip_map', List.zip_map']
  rfl

theorem copyFromUser_apply (buf : Memory) (user : UserMemory) (ptr : BitVec 64) {n k : ℕ}
    (hk : k < n) : copyFromUser buf user ptr n 0 k = user (ptr + BitVec.ofNat 64 k) := by
  rw [copyFromUser, ← Nat.zero_add k, store_inside (by simpa using hk)]
  simp [hk]

theorem copyToUser_scatter (user : UserMemory) (ptr : BitVec 64) (buf : Memory) (n : ℕ)
    (value : ℕ → BitVec 8) :
    copyToUser user ptr (scatter buf ((List.range n).map fun k ↦ (k, value k))) n 0 =
      scatter user ((List.range n).map fun k ↦ (ptr + BitVec.ofNat 64 k, value k)) := by
  rw [copyToUser, Nat.sub_zero]
  congr 1
  refine List.map_congr_left fun k hk ↦ ?_
  rw [scatter_range_of_injOn (fun i _ j _ hij ↦ hij) (List.mem_range.mp hk)]

theorem moveSegment_eq (hcopies : ∀ ptr n, c.uncopied ptr n = 0) {iova : BitVec 64}
    {chunk : BitVec 32} (hpos : 0 < chunk.toNat) (h : Accessible v (iova, chunk.toNat)) :
    ∃ dataBuf, moveSegment c v t iova chunk = (.ok (), { t with
      guest := (transferred (Writes c.req) t.guest t.user t.userPtr
        (segmentCells v (iova, chunk.toNat))).1
      user := (transferred (Writes c.req) t.guest t.user t.userPtr
        (segmentCells v (iova, chunk.toNat))).2
      dataBuf }) := by
  have hlen : (chunk.setWidth 64).toNat = chunk.toNat := BitVec.toNat_setWidth_of_le (by decide)
  have h32 := chunk.isLt
  obtain ⟨hbelow, htranslated, hserved⟩ := h
  dsimp only at hbelow htranslated hserved
  rw [← hlen] at hpos h32 hbelow htranslated hserved
  rw [transferred_segment, moveSegment, hcopies]
  by_cases hw : Writes c.req
  · have hbytes : (List.range chunk.toNat).map (fun k ↦ (locate v (iova + BitVec.ofNat 64 k),
        copyFromUser t.dataBuf t.user t.userPtr chunk.toNat 0 k)) =
        (List.range chunk.toNat).map fun k ↦
          (locate v (iova + BitVec.ofNat 64 k), t.user (t.userPtr + BitVec.ofNat 64 k)) := by
      refine List.map_congr_left fun k hk ↦ ?_
      rw [copyFromUser_apply _ _ _ (List.mem_range.mp hk)]
    simp only [if_pos hw, ne_eq, not_true_eq_false, if_false]
    rw [write_eq hpos h32 hbelow hserved htranslated, hlen, hbytes]
    exact ⟨_, rfl⟩
  · simp only [if_neg hw]
    rw [read_eq hpos h32 hbelow hserved htranslated, hlen]
    dsimp only
    rw [copyToUser_scatter]
    exact ⟨_, rfl⟩

theorem toNat_restOfPage_eq (hsize : ValidPageSize c.req.pageSize) (addr : BitVec 64) :
    (restOfPage c.req.pageSize addr).toNat = tail c.req.pageSize.toNat addr :=
  toNat_restOfPage hsize addr

theorem tail_pos (hsize : ValidPageSize c.req.pageSize) (addr : BitVec 64) :
    0 < tail c.req.pageSize.toNat addr := by
  rw [← toNat_restOfPage_eq hsize]
  exact (restOfPage_bounds hsize addr).1

variable (c v) in
/-- The loop is at slot `i` of a list, whose other slots are in the buffer. -/
structure AtSlot (guest : Memory) (t : Transfer) (list : BitVec 64) (i : ℕ) : Prop where
  listIdx : t.listIdx.toNat = i
  maxEntries : t.maxEntries.toNat = slots c.req.pageSize.toNat list
  entries : ∀ j, i ≤ j → j < slots c.req.pageSize.toNat list →
    load t.listBuf (8 * j) 8 = slot v guest list j

variable (c v) in
/-- The lists hold what they hold in `guest`. -/
def Intact (guest guest' : Memory) (lists : List (BitVec 64)) : Prop :=
  ∀ list ∈ lists, ∀ k < tail c.req.pageSize.toNat list,
    window v guest' list k = window v guest list k

theorem slot_congr {guest guest' : Memory} {list : BitVec 64} {i : ℕ}
    (h : ∀ k < tail c.req.pageSize.toNat list, window v guest' list k = window v guest list k)
    (hi : i < slots c.req.pageSize.toNat list) : slot v guest' list i = slot v guest list i := by
  apply load_congr
  intro k hk
  apply h
  rw [slots] at hi
  omega

theorem readList_eq (hsize : ValidPageSize c.req.pageSize) {list : BitVec 64}
    (h : Accessible v (list, tail c.req.pageSize.toNat list)) : ∃ t',
      readList c v t list = (.ok (), t') ∧ AtSlot c v t.guest t' list 0 ∧ t'.guest = t.guest ∧
        t'.user = t.user ∧ t'.userPtr = t.userPtr ∧ t'.remaining = t.remaining := by
  have htail := toNat_restOfPage_eq hsize list
  have hlen : ((restOfPage c.req.pageSize list).setWidth 64).toNat =
      tail c.req.pageSize.toNat list := by
    rw [BitVec.toNat_setWidth_of_le (by decide), htail]
  have hpos := tail_pos hsize list
  have h32 := (restOfPage c.req.pageSize list).isLt
  obtain ⟨hbelow, htranslated, hserved⟩ := h
  dsimp only at hbelow htranslated hserved
  rw [← hlen] at hpos hbelow htranslated hserved
  rw [htail, ← hlen] at h32
  have hread := read_eq hpos h32 hbelow hserved htranslated t.guest t.listBuf
  rw [readList, hread]
  refine ⟨_, rfl, ⟨rfl, ?_, fun j _ hj ↦ ?_⟩, rfl, rfl, rfl, rfl⟩
  · dsimp only
    rw [BitVec.toNat_udiv, htail]
    rfl
  · apply load_congr
    intro k hk
    rw [slots] at hj
    exact scatter_range_of_injOn (fun i _ j _ hij ↦ hij) (by rw [hlen]; omega)

theorem transferred_guest {write : Prop} [Decidable write] {guest : Memory} {user : UserMemory}
    {ptr : BitVec 64} {places : List ℕ} {q : ℕ} (h : write → q ∉ places) :
    (transferred write guest user ptr places).1 q = guest q := by
  rw [transferred]
  split_ifs with hw
  · exact scatter_of_not_mem fun b hb ↦ h hw (List.of_mem_zip hb).1
  · rfl

variable (c v) in
/-- What the transfer writes is outside of the lists. -/
def KeepsLists (segments : List Segment) (lists : List (BitVec 64)) : Prop :=
  Writes c.req → ∀ q ∈ cells v segments, ∀ list ∈ lists,
    ∀ k < tail c.req.pageSize.toNat list, locate v (list + BitVec.ofNat 64 k) ≠ q

theorem KeepsLists.tail {segment : Segment} {segments : List Segment}
    {lists : List (BitVec 64)} (h : KeepsLists c v (segment :: segments) lists) :
    KeepsLists c v segments lists := by
  intro hw q hq
  apply h hw q
  rw [cells_cons]
  exact List.mem_append_right _ hq

theorem KeepsLists.intact {segment : Segment} {segments : List Segment}
    {lists : List (BitVec 64)} (h : KeepsLists c v (segment :: segments) lists)
    {start guest guest' : Memory} {user user' : UserMemory} {ptr : BitVec 64}
    (hmemories : (guest', user') =
      transferred (Writes c.req) guest user ptr (segmentCells v segment))
    (hintact : Intact c v start guest lists) : Intact c v start guest' lists := by
  intro list hl k hk
  rw [← hintact list hl k hk, show guest' = _ from congrArg Prod.fst hmemories]
  apply transferred_guest
  intro hw hq
  refine h hw _ ?_ list hl k hk rfl
  rw [cells_cons]
  exact List.mem_append_left _ hq

end Moves

section Walk

variable {c : Call} {v : Platform} {t : Transfer} {guest : Memory}

theorem toNat_entryChunk (t : Transfer) :
    (entryChunk c t).toNat = min t.remaining.toNat c.req.pageSize.toNat := by
  rw [entryChunk]
  split_ifs with h
  · rw [BitVec.lt_def] at h
    omega
  · rw [BitVec.not_lt, BitVec.le_def] at h
    omega

theorem AtSlot.prps_eq {list : BitVec 64} {i : ℕ} (hat : AtSlot c v guest t list i)
    (hi : i < slots c.req.pageSize.toNat list) : t.prps t.listIdx = slot v guest list i := by
  rw [Transfer.prps, hat.listIdx]
  exact hat.entries i (Nat.le_refl i) hi

theorem listStep_of_move {t' : Transfer} (hne : t.remaining ≠ 0) (hptr : ¬ FollowsPointer c t)
    (hmove : moveSegment c v { t with listIdx := t.listIdx + 1 } (t.prps t.listIdx)
      (entryChunk c t) = (.ok (), t')) :
    listStep c v t = .inl (t'.advance (entryChunk c t)) := by
  rw [listStep, if_neg hne, if_neg hptr]
  dsimp only
  rw [hmove]

theorem step_link (hsize : ValidPageSize c.req.pageSize) {list : BitVec 64} {i : ℕ}
    (hat : AtSlot c v guest t list i) (hi : i + 1 = slots c.req.pageSize.toNat list)
    (hmore : c.req.pageSize.toNat < t.remaining.toNat)
    (h : Accessible v (slot v guest list i, tail c.req.pageSize.toNat (slot v guest list i))) :
    ∃ t', listStep c v t = .inl t' ∧ AtSlot c v t.guest t' (slot v guest list i) 0 ∧
      t'.guest = t.guest ∧ t'.user = t.user ∧ t'.userPtr = t.userPtr ∧
      t'.remaining = t.remaining := by
  have hne : t.remaining ≠ 0 := by
    intro hzero
    rw [hzero] at hmore
    exact Nat.not_lt_zero _ hmore
  have hptr : FollowsPointer c t := by
    have hidx := hat.listIdx
    have hmax := hat.maxEntries
    refine ⟨?_, hmore⟩
    bv_omega
  obtain ⟨t', hread, hat', hfields⟩ := readList_eq (t := t) hsize h
  refine ⟨t', ?_, hat', hfields⟩
  rw [listStep, if_neg hne, if_pos hptr, hat.prps_eq (by omega), hread]

theorem step_entry (hcopies : ∀ ptr n, c.uncopied ptr n = 0)
    (hsize : ValidPageSize c.req.pageSize) {list : BitVec 64} {i : ℕ}
    (hat : AtSlot c v guest t list i) (hi : i < slots c.req.pageSize.toNat list)
    (hpos : 0 < t.remaining.toNat) (hlast : i + 1 = slots c.req.pageSize.toNat list →
      t.remaining.toNat ≤ c.req.pageSize.toNat)
    (h : Accessible v (slot v guest list i, min t.remaining.toNat c.req.pageSize.toNat)) :
    ∃ t', listStep c v t = .inl t' ∧ AtSlot c v guest t' list (i + 1) ∧
      t'.remaining.toNat = t.remaining.toNat - c.req.pageSize.toNat ∧
      t'.userPtr =
        t.userPtr + BitVec.ofNat 64 (min t.remaining.toNat c.req.pageSize.toNat) ∧
      (t'.guest, t'.user) = transferred (Writes c.req) t.guest t.user t.userPtr
        (segmentCells v (slot v guest list i, min t.remaining.toNat c.req.pageSize.toNat)) := by
  have hbounds := pageSize_bounds hsize
  have hne : t.remaining ≠ 0 := by
    intro hzero
    rw [hzero] at hpos
    exact Nat.lt_irrefl 0 hpos
  have hidx := hat.listIdx
  have hmax := hat.maxEntries
  have hptr : ¬ FollowsPointer c t := by
    rintro ⟨hend, hmore⟩
    have hi' : i + 1 = slots c.req.pageSize.toNat list := by bv_omega
    exact Nat.not_lt.mpr (hlast hi') hmore
  have hchunk := toNat_entryChunk (c := c) t
  rw [← hchunk] at h
  obtain ⟨dataBuf, hmove⟩ := moveSegment_eq (t := { t with listIdx := t.listIdx + 1 }) hcopies
    (by omega) h
  have hslots : slots c.req.pageSize.toNat list ≤ 8192 := by
    rw [slots, tail]
    omega
  rw [← hat.prps_eq hi] at hmove
  refine ⟨_, listStep_of_move hne hptr hmove, ⟨?_, hmax, ?_⟩, ?_, ?_, ?_⟩
  · simp only [Transfer.advance]
    bv_omega
  · intro j hj hlt
    exact hat.entries j (by omega) hlt
  · simp only [Transfer.advance]
    bv_omega
  · rw [← hchunk, BitVec.ofNat_toNat]
    rfl
  · rw [← hchunk, ← hat.prps_eq hi]
    rfl

theorem transferred_entry (write : Prop) [Decidable write] {t t' : Transfer}
    {segment : Segment} {segments : List Segment}
    (hptr : t'.userPtr = t.userPtr + BitVec.ofNat 64 segment.2)
    (hmemories : (t'.guest, t'.user) =
      transferred write t.guest t.user t.userPtr (segmentCells v segment)) :
    transferred write t.guest t.user t.userPtr (cells v (segment :: segments)) =
      transferred write t'.guest t'.user t'.userPtr (cells v segments) := by
  rw [cells_cons, transferred_append, ← hmemories, length_segmentCells, hptr]

/-- From a slot of a list on, the loop moves the segments of the entries that are left. -/
theorem run_entries (hcopies : ∀ ptr n, c.uncopied ptr n = 0)
    (hsize : ValidPageSize c.req.pageSize) {list : BitVec 64} {i n : ℕ}
    {entries lists : List (BitVec 64)}
    (h : Listed (slots c.req.pageSize.toNat) (slot v guest) list i n entries lists)
    (hat : AtSlot c v guest t list i) (hn : needed c.req.pageSize.toNat t.remaining.toNat = n)
    (hentries : ∀ segment ∈ entrySegments c.req.pageSize.toNat entries t.remaining.toNat,
      Accessible v segment)
    (hlists : ∀ list ∈ lists, Accessible v (list, tail c.req.pageSize.toNat list))
    (hintact : Intact c v guest t.guest lists)
    (hkeep : KeepsLists c v
      (entrySegments c.req.pageSize.toNat entries t.remaining.toNat) lists) :
    ∃ fuel, run (listStep c v) fuel t = some (.ok (),
      transferred (Writes c.req) t.guest t.user t.userPtr
        (cells v (entrySegments c.req.pageSize.toNat entries t.remaining.toNat))) := by
  have hpos : 0 < c.req.pageSize.toNat := by
    have := (pageSize_bounds hsize).1
    omega
  induction h generalizing t with
  | done list i =>
    have hzero : t.remaining = 0 := by
      by_contra hne
      have := needed_pos hpos (Nat.pos_of_ne_zero fun h ↦ hne (BitVec.eq_of_toNat_eq h))
      omega
    refine ⟨1, run_of_inr ?_ 0⟩
    rw [listStep, if_pos hzero, transferred]
    split_ifs <;> rfl
  | @link list i n entries lists hi h ih =>
    have hmore : c.req.pageSize.toNat < t.remaining.toNat := by
      by_contra hle
      rcases Nat.eq_zero_or_pos t.remaining.toNat with hzero | hrem
      · rw [hzero, needed_zero hpos] at hn
        omega
      · rw [needed_eq_one hrem (Nat.not_lt.mp hle)] at hn
        omega
    obtain ⟨t', hstep, hat', hguest, huser, hptr, hremaining⟩ :=
      step_link hsize hat hi hmore (hlists _ List.mem_cons_self)
    rw [← hremaining] at hn hentries hkeep
    obtain ⟨fuel, hrun⟩ := ih (t := t') ⟨hat'.listIdx, hat'.maxEntries, fun j hj hlt ↦ by
        rw [hat'.entries j hj hlt, slot_congr (hintact _ List.mem_cons_self) hlt]⟩ hn hentries
      (fun list hl ↦ hlists list (List.mem_cons_of_mem _ hl))
      (fun list hl ↦ hguest ▸ hintact list (List.mem_cons_of_mem _ hl))
      (fun hw q hq list hl ↦ hkeep hw q hq list (List.mem_cons_of_mem _ hl))
    refine ⟨fuel + 1, (run_of_inl hstep fuel).trans ?_⟩
    rw [hrun, hguest, huser, hptr, hremaining]
  | @entry list i n entries lists hi h ih =>
    have hrem : 0 < t.remaining.toNat := by
      by_contra hle
      rw [Nat.eq_zero_of_not_pos hle, needed_zero hpos] at hn
      omega
    have hlast : i + 1 = slots c.req.pageSize.toNat list →
        t.remaining.toNat ≤ c.req.pageSize.toNat := by
      intro hend
      by_contra hlt
      have hsplit := Nat.sub_add_cancel (Nat.le_of_not_le hlt)
      have hpos' := needed_pos hpos (n := t.remaining.toNat - c.req.pageSize.toNat) (by omega)
      rw [← hsplit, needed_add hpos] at hn
      omega
    rw [entrySegments] at hentries hkeep ⊢
    obtain ⟨t', hstep, hat', hremaining, hptr, hmemories⟩ := step_entry hcopies hsize hat
      (by omega) hrem hlast (hentries _ List.mem_cons_self)
    rw [← hremaining] at hentries hkeep ⊢
    rw [transferred_entry _ hptr hmemories]
    have hn' : needed c.req.pageSize.toNat t'.remaining.toNat = n := by
      rw [hremaining]
      rcases Nat.le_total t.remaining.toNat c.req.pageSize.toNat with hle | hle
      · rw [needed_eq_one hrem hle] at hn
        rw [Nat.sub_eq_zero_of_le hle, needed_zero hpos]
        omega
      · rw [← Nat.sub_add_cancel hle, needed_add hpos] at hn
        omega
    obtain ⟨fuel, hrun⟩ := ih hat' hn' (fun s hs ↦ hentries s (List.mem_cons_of_mem _ hs)) hlists
      (hkeep.intact hmemories hintact) hkeep.tail
    exact ⟨fuel + 1, (run_of_inl hstep fuel).trans hrun⟩

theorem toNat_firstChunk (hsize : ValidPageSize c.req.pageSize) (t : Transfer) :
    (firstChunk c t).toNat =
      min t.remaining.toNat (tail c.req.pageSize.toNat c.req.prp1) := by
  have htail := toNat_restOfPage_eq hsize c.req.prp1
  rw [firstChunk]
  split_ifs with h
  · rw [gt_iff_lt, BitVec.lt_def] at h
    omega
  · rw [gt_iff_lt, BitVec.not_lt, BitVec.le_def] at h
    omega

theorem transferStart_of_move {t' : Transfer}
    (hmove : moveSegment c v t c.req.prp1 (firstChunk c t) = (.ok (), t')) :
    transferStart c v t =
      if (t'.advance (firstChunk c t)).remaining = 0 then
        .inr ((t'.advance (firstChunk c t)).outcome (.ok ()))
      else if (t'.advance (firstChunk c t)).remaining ≤ c.req.pageSize then
        .inr ((moveSegment c v (t'.advance (firstChunk c t)) c.req.prp2
          (t'.advance (firstChunk c t)).remaining).2.outcome
          (moveSegment c v (t'.advance (firstChunk c t)) c.req.prp2
            (t'.advance (firstChunk c t)).remaining).1)
      else
        match readList c v (t'.advance (firstChunk c t)) c.req.prp2 with
        | (.error e, t) => .inr (t.outcome (.error e))
        | (.ok (), t) => .inl t := by
  rw [transferStart]
  dsimp only
  exact hmove ▸ rfl

theorem transferStart_first (hcopies : ∀ ptr n, c.uncopied ptr n = 0)
    (hsize : ValidPageSize c.req.pageSize) (hpos : 0 < t.remaining.toNat) (first : ℕ)
    (hfirst : first = min t.remaining.toNat (tail c.req.pageSize.toNat c.req.prp1))
    (h : Accessible v (c.req.prp1, first)) :
    ∃ t', t'.remaining.toNat = t.remaining.toNat - first ∧
      t'.userPtr = t.userPtr + BitVec.ofNat 64 first ∧
      (t'.guest, t'.user) = transferred (Writes c.req) t.guest t.user t.userPtr
        (segmentCells v (c.req.prp1, first)) ∧
      transferStart c v t =
        if t'.remaining = 0 then
          .inr (t'.outcome (.ok ()))
        else if t'.remaining ≤ c.req.pageSize then
          .inr ((moveSegment c v t' c.req.prp2 t'.remaining).2.outcome
            (moveSegment c v t' c.req.prp2 t'.remaining).1)
        else
          match readList c v t' c.req.prp2 with
          | (.error e, t) => .inr (t.outcome (.error e))
          | (.ok (), t) => .inl t := by
  have htail := tail_pos hsize c.req.prp1
  have hchunk := toNat_firstChunk hsize t
  rw [← hchunk] at hfirst
  subst hfirst
  obtain ⟨dataBuf, hmove⟩ := moveSegment_eq (t := t) hcopies (by omega) h
  refine ⟨_, ?_, ?_, ?_, transferStart_of_move hmove⟩
  · simp only [Transfer.advance]
    bv_omega
  · rw [BitVec.ofNat_toNat]
    rfl
  · rfl

theorem length_cells_entrySegments {pageSize : ℕ} (hpos : 0 < pageSize) :
    ∀ {entries : List (BitVec 64)} {n : ℕ}, entries.length = needed pageSize n →
      (cells v (entrySegments pageSize entries n)).length = n
  | [], n, h => by
    rcases Nat.eq_zero_or_pos n with rfl | hn
    · rfl
    · have := needed_pos hpos hn
      rw [List.length_nil] at h
      omega
  | entry :: entries, n, h => by
    rw [List.length_cons] at h
    rw [entrySegments, cells_cons, List.length_append, length_segmentCells]
    rcases Nat.lt_or_ge n pageSize with hlt | hge
    · have hn : 0 < n := by
        by_contra hle
        rw [Nat.eq_zero_of_not_pos hle, needed_zero hpos] at h
        omega
      rw [needed_eq_one hn hlt.le] at h
      have hnone : entries.length = needed pageSize 0 := by
        rw [needed_zero hpos]
        omega
      have hrest : (cells v (entrySegments pageSize entries 0)).length = 0 :=
        length_cells_entrySegments hpos hnone
      rw [Nat.sub_eq_zero_of_le hlt.le, hrest]
      omega
    · rw [← Nat.sub_add_cancel hge, needed_add hpos] at h
      rw [length_cells_entrySegments hpos (Nat.succ_injective h)]
      omega

theorem PrpSegments.length_cells {req : PciemDmaIndirect} (hpos : 0 < req.pageSize.toNat)
    {segments : List Segment} {lists : List (BitVec 64)}
    (h : PrpSegments v guest req segments lists) :
    (cells v segments).length = req.length.toNat := by
  cases h with
  | one h => simp [cells]
  | two rest _ _ h => simp [cells, h]
  | list rest hmore h hlisted =>
    rw [cells_cons, List.length_append, length_segmentCells,
      length_cells_entrySegments hpos hlisted.length, h]

variable (c v) in
/-- A request that is served by the function with platform `v`. -/
structure Ready : Prop where
  registered : pciemCheckRegistered c.us = .ok ()
  argCopied : c.argCopied = true
  allocated : c.allocated = true
  func : usGetRc c.us c.req.func = some v
  copies : ∀ ptr n, c.uncopied ptr n = 0
  pageSize : ValidPageSize c.req.pageSize
  length : c.req.length ≠ 0

theorem Ready.start_eq (hready : Ready c v) (t : Transfer) :
    dmaIndirectStart c t =
      match transferStart c v { t with remaining := c.req.length, userPtr := c.req.userAddr } with
      | .inr r => .inr r
      | .inl t => .inl (v, t) := by
  rw [dmaIndirectStart, hready.registered]
  dsimp only
  rw [if_neg (not_not.mpr hready.argCopied), if_neg hready.length,
    if_neg (not_not.mpr hready.pageSize), if_neg (not_not.mpr hready.allocated)]
  exact hready.func ▸ rfl

theorem transferStart_one (hcopies : ∀ ptr n, c.uncopied ptr n = 0)
    (hsize : ValidPageSize c.req.pageSize) (hpos : 0 < t.remaining.toNat)
    (hone : t.remaining.toNat ≤ tail c.req.pageSize.toNat c.req.prp1)
    (h : Accessible v (c.req.prp1, t.remaining.toNat)) :
    transferStart c v t = .inr (.ok (), transferred (Writes c.req) t.guest t.user t.userPtr
      (cells v [(c.req.prp1, t.remaining.toNat)])) := by
  obtain ⟨t', hremaining, hptr, hmemories, hstart⟩ :=
    transferStart_first hcopies hsize hpos _ (Nat.min_eq_left hone).symm h
  have hzero : t'.remaining = 0 := by
    apply BitVec.eq_of_toNat_eq
    rw [hremaining]
    exact Nat.sub_self _
  rw [hstart, if_pos hzero, transferred_entry _ hptr hmemories, transferred]
  split_ifs <;> rfl

theorem transferStart_two (hcopies : ∀ ptr n, c.uncopied ptr n = 0)
    (hsize : ValidPageSize c.req.pageSize) {rest : ℕ} (hrest : 0 < rest)
    (hpage : rest ≤ c.req.pageSize.toNat)
    (hsum : t.remaining.toNat = tail c.req.pageSize.toNat c.req.prp1 + rest)
    (h₁ : Accessible v (c.req.prp1, tail c.req.pageSize.toNat c.req.prp1))
    (h₂ : Accessible v (c.req.prp2, rest)) :
    transferStart c v t = .inr (.ok (), transferred (Writes c.req) t.guest t.user t.userPtr
      (cells v [(c.req.prp1, tail c.req.pageSize.toNat c.req.prp1), (c.req.prp2, rest)])) := by
  obtain ⟨t', hremaining, hptr, hmemories, hstart⟩ :=
    transferStart_first (t := t) hcopies hsize (by omega) (tail c.req.pageSize.toNat c.req.prp1)
      (by omega) h₁
  obtain rfl : t'.remaining.toNat = rest := by omega
  have hne : t'.remaining ≠ 0 := by
    intro hzero
    rw [hzero] at hrest
    exact Nat.lt_irrefl 0 hrest
  obtain ⟨dataBuf, hmove⟩ := moveSegment_eq (t := t') hcopies hrest h₂
  rw [hstart, if_neg hne, if_pos (BitVec.le_def.mpr hpage), hmove,
    transferred_entry _ hptr hmemories, cells_cons]
  simp [Transfer.outcome, cells]

theorem transferStart_list (hcopies : ∀ ptr n, c.uncopied ptr n = 0)
    (hsize : ValidPageSize c.req.pageSize) {rest : ℕ} {entries lists : List (BitVec 64)}
    (hmore : c.req.pageSize.toNat < rest)
    (hsum : t.remaining.toNat = tail c.req.pageSize.toNat c.req.prp1 + rest)
    (hlisted : Listed (slots c.req.pageSize.toNat) (slot v t.guest) c.req.prp2 0
      (needed c.req.pageSize.toNat rest) entries lists)
    (hfirst : Accessible v (c.req.prp1, tail c.req.pageSize.toNat c.req.prp1))
    (hentries : ∀ segment ∈ entrySegments c.req.pageSize.toNat entries rest,
      Accessible v segment)
    (hlists : ∀ list ∈ c.req.prp2 :: lists,
      Accessible v (list, tail c.req.pageSize.toNat list))
    (hkeep : KeepsLists c v ((c.req.prp1, tail c.req.pageSize.toNat c.req.prp1) ::
      entrySegments c.req.pageSize.toNat entries rest) (c.req.prp2 :: lists)) :
    ∃ s, transferStart c v t = .inl s ∧ ∃ fuel, run (listStep c v) fuel s = some (.ok (),
      transferred (Writes c.req) t.guest t.user t.userPtr
        (cells v ((c.req.prp1, tail c.req.pageSize.toNat c.req.prp1) ::
          entrySegments c.req.pageSize.toNat entries rest))) := by
  obtain ⟨t', hremaining, hptr, hmemories, hstart⟩ :=
    transferStart_first (t := t) hcopies hsize (by omega) (tail c.req.pageSize.toNat c.req.prp1)
      (by omega) hfirst
  obtain rfl : t'.remaining.toNat = rest := by omega
  have hne : t'.remaining ≠ 0 := by
    intro hzero
    rw [hzero] at hmore
    exact Nat.not_lt_zero _ hmore
  have hgt : ¬ t'.remaining ≤ c.req.pageSize := Nat.not_le.mpr hmore
  obtain ⟨s, hread, hat, hguest, huser, hptr', hremaining'⟩ :=
    readList_eq (t := t') hsize (hlists _ List.mem_cons_self)
  have hintact : Intact c v t.guest t'.guest (c.req.prp2 :: lists) :=
    hkeep.intact hmemories fun _ _ _ _ ↦ rfl
  rw [← hremaining'] at hlisted hentries hkeep ⊢
  obtain ⟨fuel, hrun⟩ := run_entries hcopies hsize hlisted (t := s)
    ⟨hat.listIdx, hat.maxEntries, fun j hj hlt ↦ by
      rw [hat.entries j hj hlt, slot_congr (hintact _ List.mem_cons_self) hlt]⟩ rfl hentries
    (fun list hl ↦ hlists list (List.mem_cons_of_mem _ hl))
    (hguest ▸ fun list hl ↦ hintact list (List.mem_cons_of_mem _ hl))
    (fun hw q hq list hl ↦ hkeep.tail hw q hq list (List.mem_cons_of_mem _ hl))
  refine ⟨s, ?_, fuel, ?_⟩
  · rw [hstart, if_neg hne, if_neg hgt, hread]
  · rw [hrun, transferred_entry _ hptr hmemories, hguest, huser, hptr']

/-- A transfer moves, in order, the bytes of the segments that the PRP rules give. -/
theorem prp_transfer_eq (hready : Ready c v) {segments : List Segment}
    {lists : List (BitVec 64)} (hsegments : PrpSegments v t.guest c.req segments lists)
    (haccess : ∀ segment ∈ segments, Accessible v segment)
    (hlists : ∀ list ∈ lists, Accessible v (list, tail c.req.pageSize.toNat list))
    (hkeep : KeepsLists c v segments lists) :
    (cells v segments).length = c.req.length.toNat ∧
      ∃ fuel, pciemIoctlDmaIndirect c t fuel = some (.ok (),
        transferred (Writes c.req) t.guest t.user c.req.userAddr (cells v segments)) := by
  have hsize := hready.pageSize
  have hpos : 0 < c.req.pageSize.toNat := by
    have := (pageSize_bounds hsize).1
    omega
  have hlen : 0 < c.req.length.toNat :=
    Nat.pos_of_ne_zero fun h ↦ hready.length (BitVec.eq_of_toNat_eq h)
  refine ⟨hsegments.length_cells hpos, ?_⟩
  cases hsegments with
  | one hone =>
    refine ⟨0, ?_⟩
    rw [pciemIoctlDmaIndirect, hready.start_eq, transferStart_one hready.copies hsize hlen hone
      (haccess _ List.mem_cons_self)]
  | two rest hrest hpage hsum =>
    refine ⟨0, ?_⟩
    rw [pciemIoctlDmaIndirect, hready.start_eq, transferStart_two hready.copies hsize hrest hpage
      hsum (haccess _ List.mem_cons_self) (haccess _ (by simp))]
  | list rest hmore hsum hlisted =>
    obtain ⟨s, hstart, fuel, hrun⟩ := transferStart_list hready.copies hsize hmore
      (t := { t with remaining := c.req.length, userPtr := c.req.userAddr }) hsum hlisted
      (haccess _ List.mem_cons_self) (fun s hs ↦ haccess s (List.mem_cons_of_mem _ hs)) hlists hkeep
    refine ⟨fuel, ?_⟩
    rw [pciemIoctlDmaIndirect, hready.start_eq, hstart]
    exact hrun

end Walk

section Example

theorem accessible_direct {addr : BitVec 64} {n : ℕ} (hlo : 4096 ≤ addr.toNat)
    (hhi : addr.toNat + n + 4096 < 2 ^ 64) : Accessible direct (addr, n) := by
  refine ⟨?_, ?_, rfl, fun _ _ ↦ rfl⟩
  · have hdiv := Nat.div_mul_le_self (addr.toNat + n + (4096 - 1)) 4096
    exact Nat.lt_of_le_of_lt hdiv (by omega)
  · intro k hk hzero
    have haddr : (addr + BitVec.ofNat 64 k).toNat = addr.toNat + k := by bv_omega
    have hpage : (addr.toNat + k) / 4096 * 4096 = 0 := by
      rw [← haddr]
      exact (toNat_pageAlignDown direct _).symm.trans (congrArg BitVec.toNat hzero)
    omega

/-- A list of two slots at 0x3FF0 that goes on in a list at 0x5FF0. -/
def twoLists : Memory :=
  store (store (fun _ ↦ 0) 0x3FF0 (bytes 0x7000#64 8 ++ bytes 0x5FF0#64 8)) 0x5FF0
    (bytes 0x8000#64 8 ++ bytes 0xA000#64 8)

theorem listed_twoLists : Listed (slots 4096) (slot direct twoLists) 0x3FF0 0 3
    [0x7000, 0x8000, 0xA000] [0x5FF0] := by
  have h₀ : slot direct twoLists 0x3FF0 0 = 0x7000 := by decide
  have h₁ : slot direct twoLists 0x3FF0 1 = 0x5FF0 := by decide
  have h₂ : slot direct twoLists 0x5FF0 0 = 0x8000 := by decide
  have h₃ : slot direct twoLists 0x5FF0 1 = 0xA000 := by decide
  have hfirst : slots 4096 0x3FF0 = 2 := by decide
  have hsecond : slots 4096 0x5FF0 = 2 := by decide
  have hlast : Listed (slots 4096) (slot direct twoLists) 0x5FF0 1 1
      [slot direct twoLists 0x5FF0 1] [] :=
    .entry (.inr ⟨hsecond.symm, rfl⟩) (.done 0x5FF0 2)
  have hnext := Listed.entry (i := 0) (.inl (by rw [hsecond]; decide)) hlast
  rw [← h₁] at hnext
  have hlink := Listed.link (i := 1) hfirst.symm hnext
  have hall := Listed.entry (i := 0) (.inl (by rw [hfirst]; decide)) hlink
  rw [h₁, h₀, h₂, h₃] at hall
  exact hall

theorem prp_transfer_eq_two_lists : ∃ fuel,
    pciemIoctlDmaIndirect (directRead 0x1FFE 0x3FF0 0x2003) (emptyTransfer twoLists) fuel =
      some (.ok (), transferred False twoLists (fun _ ↦ 0) 0
        (cells direct [(0x1FFE, 2), (0x7000, 4096), (0x8000, 4096), (0xA000, 1)])) := by
  have hsegments : PrpSegments direct twoLists (directRead 0x1FFE 0x3FF0 0x2003).req
      ((0x1FFE, 2) :: entrySegments 4096 [0x7000, 0x8000, 0xA000] 0x2001) [0x3FF0, 0x5FF0] :=
    .list 0x2001 (by decide) (by decide) listed_twoLists
  refine (prp_transfer_eq (c := directRead 0x1FFE 0x3FF0 0x2003) (t := emptyTransfer twoLists)
    ⟨rfl, rfl, rfl, rfl, fun _ _ ↦ rfl, by decide, by decide⟩ hsegments ?_ ?_ ?_).2
  · have hbounds : ∀ segment ∈ [(0x1FFE#64, 2), (0x7000, 4096), (0x8000, 4096), (0xA000, 1)],
        4096 ≤ segment.1.toNat ∧ segment.1.toNat + segment.2 + 4096 < 2 ^ 64 := by decide
    intro segment hsegment
    exact accessible_direct (hbounds segment hsegment).1 (hbounds segment hsegment).2
  · have hbounds : ∀ list ∈ [0x3FF0#64, 0x5FF0],
        4096 ≤ list.toNat ∧ list.toNat + tail 4096 list + 4096 < 2 ^ 64 := by simp [tail]
    intro list hlist
    exact accessible_direct (hbounds list hlist).1 (hbounds list hlist).2
  · intro hw
    exact absurd hw (by decide)

end Example

end Pciem.Dma.Prp
