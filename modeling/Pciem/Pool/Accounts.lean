import Pciem.Library.Ownership
import Pciem.Pool.Allocate

namespace Pciem.Pool.Accounts

open Slot.State Allocate Library.Ownership

/-- The range from `carved_start` to `carved_end` of a BAR that has one. -/
structure Carved where
  start : BitVec 64
  stop : BitVec 64

def Carved.size (c : Carved) : BitVec 64 := c.stop - c.start + 1

/-- The pages that the range takes of the pool. -/
def Carved.pages (c : Carved) (pool : PciemMempool) : Set ℕ :=
  {page | pool.InChunk c.start c.size page}

def used (pool : PciemMempool) : Set ℕ := {page | pool.allocated page = true}

/-- The pool, and the ranges that the BARs have of it. -/
structure Ledger (ω : Type) where
  pool : PciemMempool
  range : ω → Option Carved

namespace Ledger

variable {ω : Type}

def owned (l : Ledger ω) (o : ω) : Set ℕ := (l.range o).elim ∅ fun c ↦ c.pages l.pool

/-- What is taken of the pool is what the BARs have, each page in the range of one BAR. -/
def Conserved (l : Ledger ω) : Prop := Balanced (used l.pool) l.owned

variable [DecidableEq ω]

/-- A BAR that is cleaned up gives its range back. -/
def release (l : Ledger ω) (o : ω) : Ledger ω :=
  match l.range o with
  | none => l
  | some c => ⟨pciemPoolFree l.pool c.start c.size, Function.update l.range o none⟩

def carve (l : Ledger ω) (o : ω) (start size : BitVec 64) : Ledger ω :=
  ⟨l.pool.setChunk start size true, Function.update l.range o (some ⟨start, start + size - 1⟩)⟩

/-- One ledger comes from the other by giving ranges back. -/
def Releases (l l' : Ledger ω) : Prop := ∃ os : List ω, l' = os.foldl release l

/-- The range is that of a chunk that lies in the pool. -/
def IsChunk (pool : PciemMempool) (c : Carved) : Prop :=
  ∃ page size, size ≠ 0 ∧ page + pages pool size ≤ pool.totalSize.toNat / 2 ^ pool.pageShift ∧
    chunkAddress pool page ≠ 0 ∧ c = ⟨chunkAddress pool page, chunkAddress pool page + size - 1⟩

/-- The pool lies within the addresses there are, and every range is a part of it. -/
structure Inv (l : Ledger ω) : Prop where
  bounded : l.pool.base.toNat + l.pool.totalSize.toNat < 2 ^ 64
  conserved : l.Conserved
  chunks : ∀ o, ∀ c ∈ l.range o, IsChunk l.pool c

end Ledger

section Chunk

variable {pool : PciemMempool} {size : BitVec 64} {page : ℕ}

theorem used_setChunk_false (pool : PciemMempool) (addr size : BitVec 64) :
    used (pool.setChunk addr size false) = used pool \ {page | pool.InChunk addr size page} := by
  ext page
  simp only [used, PciemMempool.setChunk, Set.mem_ofPred_eq, Set.mem_sdiff]
  split_ifs with h
  · simp [h]
  · simp [h]

theorem used_setChunk_true (pool : PciemMempool) (addr size : BitVec 64) :
    used (pool.setChunk addr size true) = used pool ∪ {page | pool.InChunk addr size page} := by
  ext page
  simp only [used, PciemMempool.setChunk, Set.mem_ofPred_eq, Set.mem_union]
  split_ifs with h
  · simp [h]
  · simp [h]

theorem size_chunk (start size : BitVec 64) : Carved.size ⟨start, start + size - 1⟩ = size := by
  simp only [Carved.size]
  bv_omega

theorem size_le_pages : size.toNat ≤ pages pool size * 2 ^ pool.pageShift := by
  have hpow := Nat.two_pow_pos pool.pageShift
  have hdiv := Nat.lt_mul_div_succ (size.toNat + 2 ^ pool.pageShift - 1) hpow
  rw [pages, Nat.mul_comm]
  rw [Nat.mul_add] at hdiv
  omega

theorem pages_mul_le (hchunk : page + pages pool size ≤ pool.totalSize.toNat / 2 ^ pool.pageShift) :
    page * 2 ^ pool.pageShift + size.toNat ≤ pool.totalSize.toNat := by
  have hle := Nat.mul_le_of_le_div _ _ _ hchunk
  have hsize : size.toNat ≤ pages pool size * 2 ^ pool.pageShift := size_le_pages
  rw [Nat.add_mul] at hle
  omega

/-- The pages of a chunk. -/
def run (pool : PciemMempool) (size : BitVec 64) (page : ℕ) : Set ℕ :=
  {q | page ≤ q ∧ q < page + pages pool size}

theorem inChunk_chunkAddress
    (hchunk : page + pages pool size ≤ pool.totalSize.toNat / 2 ^ pool.pageShift) (q : ℕ) :
    pool.InChunk (chunkAddress pool page) size q ↔ q ∈ run pool size page := by
  have hle := pages_mul_le hchunk
  have htotal := pool.totalSize.isLt
  have hpow := Nat.two_pow_pos pool.pageShift
  have hpage : (chunkAddress pool page - pool.base).toNat / 2 ^ pool.pageShift = page := by
    rw [chunkAddress, BitVec.add_comm, BitVec.add_sub_cancel, BitVec.toNat_ofNat,
      Nat.mod_eq_of_lt (by omega), Nat.mul_div_cancel _ hpow]
  rw [PciemMempool.InChunk, hpage]
  rfl

theorem poolFree_chunkAddress (hbounded : pool.base.toNat + pool.totalSize.toNat < 2 ^ 64)
    (hchunk : page + pages pool size ≤ pool.totalSize.toNat / 2 ^ pool.pageShift)
    (hsize : size ≠ 0) (haddr : chunkAddress pool page ≠ 0) :
    pciemPoolFree pool (chunkAddress pool page) size =
      pool.setChunk (chunkAddress pool page) size false := by
  have hle := pages_mul_le hchunk
  have hpos : 0 < size.toNat := by
    rw [Nat.pos_iff_ne_zero]
    intro hno
    exact hsize (BitVec.eq_of_toNat_eq (by simpa using hno))
  have hnat : (chunkAddress pool page).toNat = pool.base.toNat + page * 2 ^ pool.pageShift :=
    toNat_chunkAddress (by rw [Claimed]; omega) (by omega)
  rw [pciemPoolFree, if_neg]
  rintro (hzero | hlow | hhigh)
  · exact haddr hzero
  · rw [BitVec.lt_def] at hlow
    omega
  · rw [gt_iff_lt, BitVec.lt_def, BitVec.toNat_add, BitVec.toNat_add, hnat] at hhigh
    omega

theorem mem_run_self (hsize : size ≠ 0) : page ∈ run pool size page :=
  ⟨Nat.le_refl _, Nat.lt_add_of_pos_right (pages_pos hsize)⟩

theorem not_used_of_free (h : FreeChunk pool size page) {q : ℕ} (hq : q ∈ run pool size page) :
    q ∉ used pool := by
  obtain ⟨hle, hlt⟩ := hq
  have hfree := h.2.2 (q - page) (by omega)
  rw [Nat.add_sub_cancel' hle] at hfree
  simp [used, hfree]

end Chunk

namespace Ledger

variable {ω : Type} {l : Ledger ω} {o : ω} {size : BitVec 64} {page : ℕ}

theorem pages_of_chunk {pool : PciemMempool}
    (hchunk : page + pages pool size ≤ pool.totalSize.toNat / 2 ^ pool.pageShift) :
    Carved.pages ⟨chunkAddress pool page, chunkAddress pool page + size - 1⟩ pool =
      run pool size page := by
  ext q
  simp only [Carved.pages, Set.mem_ofPred_eq, size_chunk, inChunk_chunkAddress hchunk]

/-- A chunk at the address 0 is taken, but the caller is told that there was none. -/
theorem Inv.not_conserved_zero (h : Inv l) (hsize : size ≠ 0)
    (hfree : FreeChunk l.pool size page) :
    ¬ Conserved ⟨l.pool.setChunk (chunkAddress l.pool page) size true, l.range⟩ := by
  intro hno
  have hself : page ∈ run l.pool size page := mem_run_self hsize
  have hin := (inChunk_chunkAddress hfree.1 page).mpr hself
  have hused : page ∈ used (l.pool.setChunk (chunkAddress l.pool page) size true) := by
    rw [used_setChunk_true]
    exact .inr hin
  obtain ⟨o, ho⟩ := (hno.covered page).mp hused
  have hold : page ∈ used l.pool := (h.conserved.covered page).mpr ⟨o, ho⟩
  exact not_used_of_free hfree hself hold

variable [DecidableEq ω]

theorem release_of_none (h : l.range o = none) : l.release o = l := by
  rw [release, h]

theorem release_of_some {c : Carved} (h : l.range o = some c) :
    l.release o = ⟨pciemPoolFree l.pool c.start c.size, Function.update l.range o none⟩ := by
  rw [release, h]

theorem Releases.refl (l : Ledger ω) : Releases l l := ⟨[], rfl⟩

theorem Releases.trans {l' l'' : Ledger ω} (h : Releases l l') (h' : Releases l' l'') :
    Releases l l'' := by
  obtain ⟨os, rfl⟩ := h
  obtain ⟨os', rfl⟩ := h'
  exact ⟨os ++ os', by rw [List.foldl_append]⟩

theorem range_release (l : Ledger ω) (o p : ω) :
    (l.release o).range p = if p = o then none else l.range p := by
  cases h : l.range o with
  | none =>
    rw [release_of_none h]
    split_ifs with hpo
    · rw [hpo, h]
    · rfl
  | some c =>
    rw [release_of_some h]
    exact Function.update_apply _ _ _ _

theorem range_releases (l : Ledger ω) (os : List ω) (p : ω) :
    (os.foldl release l).range p = if p ∈ os then none else l.range p := by
  induction os generalizing l with
  | nil => simp
  | cons o os ih =>
    rw [List.foldl_cons, ih, range_release]
    by_cases hpo : p = o
    · simp [hpo]
    · simp [hpo]

theorem Releases.range_eq_none {l' : Ledger ω} (h : Releases l l') (hnone : l.range o = none) :
    l'.range o = none := by
  obtain ⟨os, rfl⟩ := h
  simp [range_releases, hnone]

theorem owned_update (pool : PciemMempool) (c : Option Carved) :
    owned ⟨pool, Function.update l.range o c⟩ =
      Function.update (owned ⟨pool, l.range⟩) o (c.elim ∅ fun c ↦ c.pages pool) := by
  funext p
  by_cases hpo : p = o
  · subst hpo
    simp [owned]
  · simp [owned, hpo]

theorem Inv.release (h : Inv l) (o : ω) : Inv (l.release o) := by
  cases hrange : l.range o with
  | none =>
    rw [release_of_none hrange]
    exact h
  | some c =>
    obtain ⟨page, size, hsize, hle, haddr, rfl⟩ := h.chunks o c hrange
    rw [release_of_some hrange, size_chunk, poolFree_chunkAddress h.bounded hle hsize haddr]
    refine ⟨h.bounded, ?_, fun p c hp ↦ ?_⟩
    · have howned : l.owned o = {page' | l.pool.InChunk (chunkAddress l.pool page) size page'} := by
        rw [owned, hrange, Option.elim_some, Carved.pages, size_chunk]
      rw [Conserved, used_setChunk_false, ← howned, owned_update]
      exact h.conserved.release
    · by_cases hpo : p = o
      · subst hpo
        simp at hp
      · simp only [Function.update_of_ne hpo] at hp
        exact h.chunks p c hp

theorem Inv.releases (h : Inv l) {l' : Ledger ω} (hl : Releases l l') : Inv l' := by
  obtain ⟨os, rfl⟩ := hl
  induction os generalizing l with
  | nil => exact h
  | cons o os ih => exact ih (h.release o)

theorem conserved_carve_iff
    (hchunk : page + pages l.pool size ≤ l.pool.totalSize.toNat / 2 ^ l.pool.pageShift) :
    (l.carve o (chunkAddress l.pool page) size).Conserved ↔
      Balanced (used l.pool ∪ run l.pool size page)
        (Function.update l.owned o (run l.pool size page)) := by
  have hrun : {q | l.pool.InChunk (chunkAddress l.pool page) size q} = run l.pool size page := by
    ext q
    exact inChunk_chunkAddress hchunk q
  rw [Conserved, carve, used_setChunk_true, hrun, owned_update, Option.elim_some,
    ← pages_of_chunk hchunk]
  rfl

theorem Inv.carve (h : Inv l) (hnone : l.range o = none) (hsize : size ≠ 0)
    (hfree : FreeChunk l.pool size page) (haddr : chunkAddress l.pool page ≠ 0) :
    Inv (l.carve o (chunkAddress l.pool page) size) := by
  refine ⟨h.bounded, (conserved_carve_iff hfree.1).mpr ?_, fun p c hp ↦ ?_⟩
  · have howned : l.owned o = ∅ := by simp [owned, hnone]
    exact h.conserved.claim howned fun q ↦ not_used_of_free hfree
  · by_cases hpo : p = o
    · subst hpo
      simp only [Ledger.carve, Function.update_self, Option.mem_some_iff] at hp
      exact ⟨page, size, hsize, hfree.1, haddr, hp.symm⟩
    · simp only [Ledger.carve, Function.update_of_ne hpo] at hp
      exact h.chunks p c hp

theorem Inv.not_conserved_carve (h : Inv l) (hsome : l.range o ≠ none)
    (hfree : FreeChunk l.pool size page) :
    ¬ (l.carve o (chunkAddress l.pool page) size).Conserved := by
  obtain ⟨c, hc⟩ := Option.ne_none_iff_exists'.mp hsome
  obtain ⟨first, old, hold, hle, -, rfl⟩ := h.chunks o c hc
  have hfirst : first ∈ l.owned o := by
    rw [owned, hc, Option.elim_some, pages_of_chunk hle]
    exact mem_run_self hold
  have hused : first ∈ used l.pool := (h.conserved.covered first).mpr ⟨o, hfirst⟩
  rw [conserved_carve_iff hfree.1]
  exact h.conserved.not_overwrite hfirst fun hq ↦ not_used_of_free hfree hq hused

/-- The ledger of one party beside those of the others. -/
def within {ε : Type} [DecidableEq ε] (e : ε) (rest : ε → ω → Option Carved) (l : Ledger ω) :
    Ledger (ε × ω) :=
  ⟨l.pool, fun p ↦ if p.1 = e then l.range p.2 else rest p.1 p.2⟩

variable {ε : Type} [DecidableEq ε] {e : ε} {rest : ε → ω → Option Carved}

theorem within_release (o : ω) :
    (l.release o).within e rest = (l.within e rest).release (e, o) := by
  have hrange : (l.within e rest).range (e, o) = l.range o := if_pos rfl
  cases h : l.range o with
  | none => rw [release_of_none h, release_of_none (hrange.trans h)]
  | some c =>
    rw [release_of_some h, release_of_some (hrange.trans h)]
    simp only [within, Ledger.mk.injEq, true_and]
    funext p
    obtain ⟨e', o'⟩ := p
    by_cases he : e' = e
    · subst he
      by_cases ho : o' = o
      · simp [ho]
      · simp [ho]
    · simp [he]

theorem within_carve (o : ω) (start size : BitVec 64) :
    (l.carve o start size).within e rest = (l.within e rest).carve (e, o) start size := by
  simp only [within, carve, Ledger.mk.injEq, true_and]
  funext p
  obtain ⟨e', o'⟩ := p
  by_cases he : e' = e
  · subst he
    by_cases ho : o' = o
    · simp [ho]
    · simp [ho]
  · simp [he]

theorem Releases.within {l' : Ledger ω} (h : Releases l l') :
    Releases (l.within e rest) (l'.within e rest) := by
  obtain ⟨os, rfl⟩ := h
  refine ⟨os.map (Prod.mk e), ?_⟩
  induction os generalizing l with
  | nil => rfl
  | cons o os ih => rw [List.foldl_cons, ih, within_release, List.map_cons, List.foldl_cons]

end Ledger

end Pciem.Pool.Accounts
