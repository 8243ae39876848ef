import Pciem.Dma.Indirect

namespace Pciem.Dma.Walk

open Kernel Library.ByteMemory Library.PowerOfTwo Library.Scatter Library.Loop Paged Indirect

/-- The bytes that a read copies when it returns 0. -/
def bytesRead (p : Platform) (guestIova len : BitVec 64) : ℕ :=
  match translateIova p guestIova len with
  | .error _ => 0
  | .ok (pages, numPages) =>
    (tiles p guestIova len.toNat 0 (pages.take numPages.toNat) 0).length

section Bytes

variable {p : Platform} {guestIova len : BitVec 64}

theorem translateIova_of_read {mem dst dst' : Memory}
    (h : pciemDmaReadFromGuest p mem guestIova dst len = (.ok (), dst')) :
    len ≠ 0 ∧ ∃ x, translateIova p guestIova len = .ok x := by
  rw [pciemDmaReadFromGuest] at h
  split at h
  · cases h
  · rename_i hne
    refine ⟨hne, ?_⟩
    split at h
    · cases h
    · rename_i hok
      exact ⟨_, hok⟩

theorem bytesRead_of_below (hlen : 0 < len.toNat) (h32 : len.toNat < 2 ^ 32)
    (hend : Below p guestIova len.toNat) (h : ∃ x, translateIova p guestIova len = .ok x) :
    bytesRead p guestIova len = len.toNat := by
  obtain ⟨x, hok⟩ := h
  have hcount : pageCount p guestIova len.toNat ≤ len.toNat := pageCount_le hlen
  rw [translateIova_eq hend] at hok
  split_ifs at hok with halloc hzero
  rw [bytesRead, translateIova_eq hend, if_pos halloc, if_neg hzero]
  dsimp only
  rw [BitVec.toNat_ofNat, Nat.mod_eq_of_lt (by omega), List.take_of_length_le
    (by rw [length_pagesFrom]), tiles_pages hend]
  simp

/-- Where the page-rounded end wraps, nothing is read. -/
theorem bytesRead_of_not_below (h32 : len.toNat < 2 ^ 32)
    (hend : ¬ Below p guestIova len.toNat) : bytesRead p guestIova len = 0 := by
  rw [bytesRead, translateIova_of_not_below h32 hend]
  split_ifs
  · rfl
  · rfl

end Bytes

variable (c : Call) (v : Platform)

/-- The list loop of the call begins a turn in the state. -/
def Walks (t s : Transfer) : Prop :=
  ∃ t', dmaIndirectStart c t = .inl (v, t') ∧ Visits (listStep c v) t' s

/-- The whole entries that the last read of a list has taken from the guest. -/
def entriesRead (s : Transfer) : ℕ :=
  bytesRead v s.curPrpList (s.listBytes.setWidth 64) / 8

def InBounds (s : Transfer) : Prop := s.listIdx.toNat < entriesRead v s

instance (v : Platform) (s : Transfer) : Decidable (InBounds v s) :=
  inferInstanceAs (Decidable (_ < _))

/-- A list has an entry before the end of its page, and does not reach the last page of the
64-bit space. -/
def Usable (curPrpList : BitVec 64) : Prop :=
  8 ≤ (restOfPage c.req.pageSize curPrpList).toNat ∧
    Below v curPrpList (restOfPage c.req.pageSize curPrpList).toNat

/-- The state since the last list was read. -/
structure ListRead (s : Transfer) : Prop where
  bytes : s.listBytes = restOfPage c.req.pageSize s.curPrpList
  entries : s.maxEntries = s.listBytes / 8
  read : ∃ x, translateIova v s.curPrpList (s.listBytes.setWidth 64) = .ok x

section Bounds

variable {c v} {t s : Transfer}

theorem listRead_of_readList {curPrpList : BitVec 64}
    (h : readList c v t curPrpList = (.ok (), s)) : ListRead c v s := by
  obtain ⟨listBuf, hread, rfl⟩ := readList_eq_ok h
  exact ⟨rfl, rfl, (translateIova_of_read hread).2⟩

theorem ListRead.step (h : ListRead c v t) (hs : listStep c v t = .inl s) : ListRead c v s := by
  obtain ⟨-, ⟨-, hread⟩ | ⟨-, guest, user, dataBuf, rfl⟩⟩ := listStep_eq_inl hs
  · exact listRead_of_readList hread
  · exact ⟨h.bytes, h.entries, h.read⟩

theorem toNat_size (n : BitVec 32) : (n.setWidth 64).toNat = n.toNat :=
  BitVec.toNat_setWidth_of_le (by decide)

theorem ListRead.entriesRead_eq (h : ListRead c v s) (hsize : ValidPageSize c.req.pageSize) :
    entriesRead v s = if Below v s.curPrpList s.listBytes.toNat then s.maxEntries.toNat else 0 := by
  have hlen := toNat_size s.listBytes
  have hpos := (restOfPage_bounds hsize s.curPrpList).1
  have h32 := s.listBytes.isLt
  rw [← h.bytes, ← hlen] at hpos
  rw [← hlen] at h32
  rw [entriesRead, ← hlen]
  split_ifs with hend
  · rw [bytesRead_of_below hpos h32 hend h.read, h.entries, hlen]
    rfl
  · rw [bytesRead_of_not_below h32 hend]

theorem ListRead.usable_iff (h : ListRead c v s) :
    Usable c v s.curPrpList ↔ Below v s.curPrpList s.listBytes.toNat ∧ 0 < s.maxEntries.toNat := by
  have hdiv : s.maxEntries.toNat = s.listBytes.toNat / 8 := by
    rw [h.entries]
    rfl
  rw [Usable, ← h.bytes, hdiv, and_comm]
  exact and_congr_right fun _ ↦ (Nat.div_pos_iff.trans (by omega)).symm

theorem walks_valid (h : Walks c v t s) : ValidPageSize c.req.pageSize ∧ ListRead c v s := by
  obtain ⟨s₀, hstart, hv⟩ := h
  obtain ⟨hsize, t', -, hread⟩ := dmaIndirectStart_eq_inl hstart
  exact ⟨hsize, hv.invariant (listRead_of_readList hread) fun _ _ _ h hs ↦ h.step hs⟩

theorem walks_inBounds (hu : ∀ s, Walks c v t s → s.remaining ≠ 0 → Usable c v s.curPrpList)
    (h : Walks c v t s) : s.remaining = 0 ∨ s.listIdx.toNat < s.maxEntries.toNat := by
  have hnew {t' u : Transfer} {curPrpList : BitVec 64} (hw : Walks c v t u)
      (hread : readList c v t' curPrpList = (.ok (), u)) :
      u.remaining = 0 ∨ u.listIdx.toNat < u.maxEntries.toNat := by
    refine or_iff_not_imp_left.mpr fun hne ↦ ?_
    have hpos := ((listRead_of_readList hread).usable_iff.mp (hu u hw hne)).2
    obtain ⟨listBuf, -, rfl⟩ := readList_eq_ok hread
    exact hpos
  obtain ⟨s₀, hstart, hv⟩ := h
  obtain ⟨-, t', -, hread⟩ := dmaIndirectStart_eq_inl hstart
  refine hv.invariant (I := fun s ↦ s.remaining = 0 ∨ s.listIdx.toNat < s.maxEntries.toNat)
    (hnew ⟨s₀, hstart, .start⟩ hread) fun x u hx hI hs ↦ ?_
  obtain ⟨hne, ⟨-, hread⟩ | ⟨hptr, guest, user, dataBuf, rfl⟩⟩ := listStep_eq_inl hs
  · exact hnew ⟨s₀, hstart, hx.next hs⟩ hread
  · have hlt := hI.resolve_left hne
    rw [FollowsPointer, not_and_or, gt_iff_lt, BitVec.not_lt] at hptr
    simp only [Transfer.advance, entryChunk]
    rcases hptr with hidx | hlast
    · right
      bv_omega
    · left
      split_ifs with hsmall
      · exact BitVec.sub_self _
      · bv_omega

end Bounds

/-- Every index into the list stays below the number of entries read exactly when every list
that the walk reads is usable. -/
theorem prp_walk_in_bounds_iff (c : Call) (t : Transfer) :
    (∀ v s, Walks c v t s → s.remaining ≠ 0 → InBounds v s) ↔
      ∀ v s, Walks c v t s → s.remaining ≠ 0 → Usable c v s.curPrpList := by
  constructor
  · intro h v s hw hne
    obtain ⟨hsize, hlist⟩ := walks_valid hw
    have hin := h v s hw hne
    rw [InBounds, hlist.entriesRead_eq hsize] at hin
    split_ifs at hin with hend
    · exact hlist.usable_iff.mpr ⟨hend, Nat.zero_lt_of_lt hin⟩
    · exact absurd hin (Nat.not_lt_zero _)
  · intro h v s hw hne
    obtain ⟨hsize, hlist⟩ := walks_valid hw
    have hend := (hlist.usable_iff.mp (h v s hw hne)).1
    rw [InBounds, hlist.entriesRead_eq hsize, if_pos hend]
    exact (walks_inBounds (h v) hw).resolve_left hne

/-- A read of `length` bytes with pages of 4096, first at `prp1` and then by the list at
`prp2`, for a device whose addresses are those of the guest's memory. -/
def directRead (prp1 prp2 : BitVec 64) (length : BitVec 32) : Call where
  us := ⟨.registered, fun _ ↦ some direct⟩
  req := ⟨prp1, prp2, 0, length, 4096, 1, 0⟩
  argCopied := true
  allocated := true
  uncopied _ _ := 0

def emptyTransfer (guest : Memory) : Transfer where
  guest
  user _ := 0
  listBuf _ := 0
  dataBuf _ := 0
  remaining := 0
  userPtr := 0
  curPrpList := 0
  listBytes := 0
  maxEntries := 0
  listIdx := 0

/-- The list at 0x2FFC has room for half an entry. -/
theorem half_entry_out_of_bounds : ¬ ∀ (c : Call) (t : Transfer) (v : Platform) (s : Transfer),
    Walks c v t s → s.remaining ≠ 0 → InBounds v s := by
  intro h
  have hbound := h (directRead 0x1000 0x2FFC 0x3000) (emptyTransfer fun _ ↦ 0) direct _
    ⟨_, rfl, .start⟩ (by decide)
  exact absurd hbound (by decide)

section Congruence

variable {p : Platform} {mem dst dst' : Memory} {guestIova : BitVec 64} {k : ℕ}

theorem memcpy_congr {src : Memory} {pos start n : ℕ} (h : dst k = dst' k) :
    memcpy dst pos src start n k = memcpy dst' pos src start n k := by
  rw [memcpy, memcpy, store, store, h]

theorem readLoop_congr {len i done : ℕ} {pages : List (BitVec 64)} :
    (readLoop p mem guestIova len i pages done dst).1 =
        (readLoop p mem guestIova len i pages done dst').1 ∧
      (dst k = dst' k → (readLoop p mem guestIova len i pages done dst).2 k =
        (readLoop p mem guestIova len i pages done dst').2 k) := by
  induction pages generalizing i done dst dst' with
  | nil => exact ⟨rfl, id⟩
  | cons page pages ih =>
    rw [readLoop, readLoop]
    by_cases hmap : p.mapped page = true
    · rw [if_pos hmap, if_pos hmap]
      exact ⟨ih.1, fun h ↦ ih.2 (memcpy_congr h)⟩
    · rw [if_neg hmap, if_neg hmap]
      exact ⟨rfl, id⟩

/-- What a read returns, and what it leaves at an offset, depends on no other offset. -/
theorem read_congr (p : Platform) (mem : Memory) (guestIova : BitVec 64) (dst dst' : Memory)
    (len : BitVec 64) (k : ℕ) : (pciemDmaReadFromGuest p mem guestIova dst len).1 =
      (pciemDmaReadFromGuest p mem guestIova dst' len).1 ∧
    (dst k = dst' k → (pciemDmaReadFromGuest p mem guestIova dst len).2 k =
      (pciemDmaReadFromGuest p mem guestIova dst' len).2 k) := by
  rw [pciemDmaReadFromGuest, pciemDmaReadFromGuest]
  split_ifs
  · exact ⟨rfl, id⟩
  · split
    · exact ⟨rfl, id⟩
    · exact readLoop_congr

end Congruence

/-- The pointer in a list of one entry, when the list can be read. -/
def follow (guest : Memory) (pointer : BitVec 64) : Option (BitVec 64) :=
  let listBytes := restOfPage c.req.pageSize pointer
  match pciemDmaReadFromGuest v guest pointer (store (fun _ ↦ 0) 0 (bytes pointer 8))
    (listBytes.setWidth 64) with
  | (.ok (), listBuf) => if listBytes / 8 = 1 then some (load listBuf 0 8) else none
  | (.error _, _) => none

def follows (guest : Memory) : ℕ → BitVec 64 → Option (BitVec 64)
  | 0, pointer => some pointer
  | n + 1, pointer => (follow c v guest pointer).bind (follows guest n)

/-- From the pointer on, lists of one entry lead to each other without end. -/
def Endless (guest : Memory) (pointer : BitVec 64) : Prop :=
  ∀ n, follows c v guest n pointer ≠ none

/-- The state is at the pointer in a list of one entry. -/
structure Single (s : Transfer) : Prop where
  maxEntries : s.maxEntries = 1
  listIdx : s.listIdx = 0
  remaining : s.remaining > c.req.pageSize

section Termination

variable {c v} {t s s' : Transfer}

theorem prps_eq_iff {pointer : BitVec 64} :
    s.prps 0 = pointer ↔ ∀ k < 8, s.listBuf k = byte pointer k := by
  have h : load s.listBuf 0 8 = pointer.setWidth 64 ↔ _ := load_eq_iff pointer rfl (by decide)
  have hprps : s.prps 0 = load s.listBuf 0 8 := rfl
  rw [BitVec.setWidth_eq] at h
  rw [hprps, h]
  simp

theorem readList_fields {curPrpList : BitVec 64} (h : readList c v s curPrpList = (.ok (), s')) :
    s'.listIdx = 0 ∧ s'.remaining = s.remaining ∧ s'.guest = s.guest := by
  obtain ⟨listBuf, -, rfl⟩ := readList_eq_ok h
  exact ⟨rfl, rfl, rfl⟩

theorem not_followsPointer (hidx : s.listIdx = 0) (hone : s.maxEntries ≠ 1) :
    ¬ FollowsPointer c s := by
  rintro ⟨hlast, -⟩
  apply hone
  rw [← BitVec.sub_add_cancel s.maxEntries 1, ← hlast, hidx]
  rfl

theorem follow_eq (h : readList c v s (s.prps 0) = (.ok (), s')) :
    follow c v s.guest (s.prps 0) = if s'.maxEntries = 1 then some (s'.prps 0) else none := by
  obtain ⟨listBuf, hread, rfl⟩ := readList_eq_ok h
  have hbuf : ∀ k < 8, s.listBuf k = store (fun _ ↦ 0) 0 (bytes (s.prps 0) 8) k := by
    intro k hk
    rw [prps_eq_iff.mp rfl k hk]
    have hstore : store (fun _ ↦ 0) 0 (bytes (s.prps 0) 8) (0 + k) = _ := store_bytes hk
    rw [Nat.zero_add] at hstore
    exact hstore.symm
  rw [follow]
  cases hfollow : pciemDmaReadFromGuest v s.guest (s.prps 0)
    (store (fun _ ↦ 0) 0 (bytes (s.prps 0) 8))
      ((restOfPage c.req.pageSize (s.prps 0)).setWidth 64) with
  | mk ret listBuf' =>
    have hcongr := read_congr v s.guest (s.prps 0) s.listBuf
      (store (fun _ ↦ 0) 0 (bytes (s.prps 0) 8))
      ((restOfPage c.req.pageSize (s.prps 0)).setWidth 64)
    rw [hread, hfollow] at hcongr
    cases (hcongr 0).1
    have hload : (load listBuf' 0 8 : BitVec 64) = load listBuf 0 8 := by
      apply load_congr
      intro k hk
      rw [Nat.zero_add]
      exact ((hcongr k).2 (hbuf k hk)).symm
    dsimp only
    rw [hload]
    rfl

theorem Single.followsPointer (h : Single c s) : FollowsPointer c s := by
  refine ⟨?_, h.remaining⟩
  rw [h.listIdx, h.maxEntries]
  rfl

theorem Single.remaining_ne (h : Single c s) : s.remaining ≠ 0 := by
  have hlt := h.remaining
  intro hzero
  rw [hzero] at hlt
  exact BitVec.not_lt_zero hlt

theorem listStep_of_followsPointer (hne : s.remaining ≠ 0) (h : FollowsPointer c s) :
    listStep c v s = match readList c v s (s.prps s.listIdx) with
      | (.error e, t) => .inr (t.outcome (.error e))
      | (.ok (), t) => .inl t := by
  exact (if_neg hne).trans (if_pos h)

theorem exists_readList_of_follow {pointer : BitVec 64}
    (hf : follow c v s.guest (s.prps 0) = some pointer) :
    ∃ s', readList c v s (s.prps 0) = (.ok (), s') := by
  have hcongr := (read_congr v s.guest (s.prps 0) s.listBuf
    (store (fun _ ↦ 0) 0 (bytes (s.prps 0) 8))
    ((restOfPage c.req.pageSize (s.prps 0)).setWidth 64) 0).1
  rw [follow] at hf
  split at hf
  · rename_i hfollow
    rw [hfollow] at hcongr
    rw [readList]
    exact ⟨_, Prod.ext hcongr rfl⟩
  · cases hf

/-- Where the pointer of a list of one entry leads to another one, the walk goes there. -/
theorem Single.step_of_follow (h : Single c s) {pointer : BitVec 64}
    (hf : follow c v s.guest (s.prps 0) = some pointer) :
    ∃ s', listStep c v s = .inl s' ∧ Single c s' ∧ s'.guest = s.guest ∧ s'.prps 0 = pointer := by
  obtain ⟨s', hread⟩ := exists_readList_of_follow hf
  have hfollow := follow_eq hread
  rw [hf] at hfollow
  rw [listStep_of_followsPointer h.remaining_ne h.followsPointer, h.listIdx, hread]
  obtain ⟨listBuf, -, rfl⟩ := readList_eq_ok hread
  split_ifs at hfollow with hone
  exact ⟨_, rfl, ⟨hone, rfl, h.remaining⟩, rfl, (Option.some.inj hfollow).symm⟩

theorem not_terminates_of_endless (h : Single c s) (hend : Endless c v s.guest (s.prps 0)) :
    ¬ Terminates (listStep c v) s := by
  refine not_terminates_of_forever (I := fun s ↦ Single c s ∧ Endless c v s.guest (s.prps 0))
    ⟨h, hend⟩ fun s hs ↦ ?_
  obtain ⟨hsingle, hend⟩ := hs
  obtain ⟨pointer, hf⟩ := Option.ne_none_iff_exists'.mp (hend 1)
  rw [follows, Option.bind_eq_some_iff] at hf
  obtain ⟨next, hnext, -⟩ := hf
  obtain ⟨s', hstep, hsingle', hguest, hprps⟩ := hsingle.step_of_follow hnext
  refine ⟨s', hstep, hsingle', fun n hn ↦ hend (n + 1) ?_⟩
  rw [follows, hnext, Option.bind_some, ← hprps, ← hguest, hn]

theorem Walks.next (h : Walks c v t s) (hs : listStep c v s = .inl s') : Walks c v t s' := by
  obtain ⟨s₀, hstart, hv⟩ := h
  exact ⟨s₀, hstart, hv.next hs⟩

theorem terminates_of_entry (hw : Walks c v t s) (hne : s.remaining ≠ 0)
    (hptr : ¬ FollowsPointer c s)
    (ih : ∀ s', Walks c v t s' → s'.remaining < s.remaining → Terminates (listStep c v) s') :
    Terminates (listStep c v) s := by
  cases hs : listStep c v s with
  | inr r => exact terminates_of_inr hs
  | inl s' =>
    refine (terminates_iff_of_inl hs).mpr (ih s' (hw.next hs) ?_)
    obtain ⟨-, ⟨hptr', -⟩ | ⟨-, guest, user, dataBuf, rfl⟩⟩ := listStep_eq_inl hs
    · exact absurd hptr' hptr
    · have hsize := pageSize_bounds (walks_valid hw).1
      simp only [Transfer.advance, entryChunk]
      split_ifs <;> bv_omega

theorem terminates_of_follows {n : ℕ} (hw : Walks c v t s) (h : Single c s)
    (hf : follows c v s.guest n (s.prps 0) = none)
    (ih : ∀ s', Walks c v t s' → s'.remaining < s.remaining → Terminates (listStep c v) s') :
    Terminates (listStep c v) s := by
  induction n generalizing s with
  | zero => cases hf
  | succ n ihn =>
    cases hs : listStep c v s with
    | inr r => exact terminates_of_inr hs
    | inl s' =>
      have hw' := hw.next hs
      rw [terminates_iff_of_inl hs]
      obtain ⟨hne, ⟨-, hread⟩ | ⟨hptr, -⟩⟩ := listStep_eq_inl hs
      · rw [h.listIdx] at hread
        have hfollow := follow_eq hread
        obtain ⟨hidx, hremaining, hguest⟩ := readList_fields hread
        rw [← hremaining] at hne ih
        split_ifs at hfollow with hone
        · refine ihn hw' ⟨hone, hidx, hremaining ▸ h.remaining⟩ ?_ ih
          rw [follows, hfollow] at hf
          rw [hguest]
          exact hf
        · exact terminates_of_entry hw' hne (not_followsPointer hidx hone) ih
      · exact absurd h.followsPointer hptr

/-- The walk ends from every state it visits, when none of them begins an endless chain. -/
theorem terminates_of_walks (hend : ∀ s, Walks c v t s → Single c s →
    ¬ Endless c v s.guest (s.prps 0)) (hw : Walks c v t s) : Terminates (listStep c v) s := by
  induction hn : s.remaining.toNat using Nat.strong_induction_on generalizing s with
  | _ n ih =>
    have hless : ∀ s', Walks c v t s' → s'.remaining < s.remaining →
        Terminates (listStep c v) s' := fun s' hw' hlt ↦ ih _ (hn ▸ hlt) hw' rfl
    by_cases hne : s.remaining = 0
    · exact terminates_of_inr (by rw [listStep, if_pos hne])
    by_cases hptr : FollowsPointer c s
    · cases hs : listStep c v s with
      | inr r => exact terminates_of_inr hs
      | inl s' =>
        have hw' := hw.next hs
        rw [terminates_iff_of_inl hs]
        obtain ⟨-, ⟨-, hread⟩ | ⟨hptr', -⟩⟩ := listStep_eq_inl hs
        · obtain ⟨hidx, hremaining, -⟩ := readList_fields hread
          rw [← hremaining] at hne hless
          by_cases hone : s'.maxEntries = 1
          · have hsingle : Single c s' := ⟨hone, hidx, hremaining ▸ hptr.2⟩
            have hnot := hend _ hw' hsingle
            rw [Endless, not_forall] at hnot
            obtain ⟨n, hf⟩ := hnot
            exact terminates_of_follows hw' hsingle (not_not.mp hf) hless
          · exact terminates_of_entry hw' hne (not_followsPointer hidx hone) hless
        · exact absurd hptr hptr'
    · exact terminates_of_entry hw hne hptr hless

end Termination

/-- The call returns exactly when its walk never stands at a list of one entry from which
lists of one entry lead on without end. -/
theorem prp_walk_terminates_iff (c : Call) (t : Transfer) :
    (∃ fuel r, pciemIoctlDmaIndirect c t fuel = some r) ↔
      ∀ v s, Walks c v t s → Single c s → ¬ Endless c v s.guest (s.prps 0) := by
  constructor
  · rintro ⟨fuel, r, hrun⟩ v s ⟨s₀, hstart, hv⟩ hsingle hend
    rw [pciemIoctlDmaIndirect, hstart] at hrun
    have hterm : Terminates (listStep c v) s₀ := ⟨fuel, r, hrun⟩
    exact not_terminates_of_endless hsingle hend (hterm.of_visits hv)
  · intro h
    cases hstart : dmaIndirectStart c t with
    | inr r => exact ⟨0, r, by rw [pciemIoctlDmaIndirect, hstart]⟩
    | inl x =>
      obtain ⟨v, s⟩ := x
      obtain ⟨fuel, r, hrun⟩ := terminates_of_walks (h v) ⟨s, hstart, .start⟩
      exact ⟨fuel, r, by rw [pciemIoctlDmaIndirect, hstart]; exact hrun⟩

/-- A memory with a list in the last slot of a page that names itself as the next list. -/
def selfPointer : Memory := store (fun _ ↦ 0) 0x2FF8 (bytes 0x2FF8#64 8)

theorem endless_selfPointer :
    Endless (directRead 0x1000 0x2FF8 0x3000) direct selfPointer 0x2FF8 := by
  have hfollow : follow (directRead 0x1000 0x2FF8 0x3000) direct selfPointer 0x2FF8 =
      some 0x2FF8 := by decide
  intro n
  induction n with
  | zero => simp [follows]
  | succ n ih =>
    rw [follows, hfollow]
    exact ih

theorem self_pointer_never_returns : ¬ ∀ (c : Call) (t : Transfer),
    ∃ fuel r, pciemIoctlDmaIndirect c t fuel = some r := by
  intro h
  obtain ⟨fuel, r, hrun⟩ := h (directRead 0x1000 0x2FF8 0x3000) (emptyTransfer selfPointer)
  obtain ⟨s, hstart, hsingle, hprps⟩ : ∃ s, dmaIndirectStart (directRead 0x1000 0x2FF8 0x3000)
      (emptyTransfer selfPointer) = .inl (direct, s) ∧
        Single (directRead 0x1000 0x2FF8 0x3000) s ∧ s.guest = selfPointer ∧ s.prps 0 = 0x2FF8 :=
    ⟨_, rfl, ⟨by decide, by decide, by decide⟩, rfl, by decide⟩
  rw [pciemIoctlDmaIndirect, hstart] at hrun
  refine not_terminates_of_endless hsingle ?_ ⟨fuel, r, hrun⟩
  rw [hprps.1, hprps.2]
  exact endless_selfPointer

end Pciem.Dma.Walk
