import Pciem.Dma.Indirect

namespace Pciem.Dma.Window

open Kernel Library.ByteMemory Library.Scatter Library.Loop Paged Indirect

/-- The address of a byte of the buffer that the request names. -/
def InWindow (req : PciemDmaIndirect) (a : BitVec 64) : Prop :=
  ∃ x < req.length.toNat, a = req.userAddr + BitVec.ofNat 64 x

/-- Two transfers of a request that are as far in its buffer. They differ in the memory of userspace
only, and there outside of the buffer, where the first one has left it as it was. -/
structure Twins (req : PciemDmaIndirect) (start : UserMemory) (t t' : Transfer) : Prop where
  remaining : t.remaining.toNat ≤ req.length.toNat
  userPtr : t.userPtr =
    req.userAddr + BitVec.ofNat 64 (req.length.toNat - t.remaining.toNat)
  same : t' = { t with user := t'.user }
  agree : ∀ a, InWindow req a → t'.user a = t.user a
  kept : ∀ a, ¬ InWindow req a → t.user a = start a

/-- The two transfers go on, or they end with the same result and the same memory of the guest. -/
def Alike (req : PciemDmaIndirect) (start : UserMemory) :
    Transfer ⊕ Outcome → Transfer ⊕ Outcome → Prop
  | .inl t, .inl t' => Twins req start t t'
  | .inr r, .inr r' =>
    r'.1 = r.1 ∧ r'.2.1 = r.2.1 ∧ ∀ a, ¬ InWindow req a → r.2.2 a = start a
  | _, _ => False

variable {c : Call} {v : Platform} {start : UserMemory} {t t' : Transfer}

section Twins

variable (h : Twins c.req start t t')

include h

theorem Twins.inWindow {chunk k : ℕ} (hchunk : chunk ≤ t.remaining.toNat) (hk : k < chunk) :
    InWindow c.req (t.userPtr + BitVec.ofNat 64 k) := by
  have hremaining := h.remaining
  refine ⟨c.req.length.toNat - t.remaining.toNat + k, by omega, ?_⟩
  rw [h.userPtr, BitVec.add_assoc, ← BitVec.ofNat_add]

theorem Twins.outcome (ret : Except Errno Unit) :
    Alike c.req start (.inr (t.outcome ret)) (.inr (t'.outcome ret)) := by
  refine ⟨rfl, ?_, h.kept⟩
  rw [h.same]
  rfl

theorem Twins.advance {chunk : BitVec 32} (hchunk : chunk.toNat ≤ t.remaining.toNat) :
    Twins c.req start (t.advance chunk) (t'.advance chunk) where
  remaining := by
    have hremaining := h.remaining
    change (t.remaining - chunk).toNat ≤ _
    rw [BitVec.toNat_sub_of_le hchunk]
    omega
  userPtr := by
    have hremaining := h.remaining
    change t.userPtr + chunk.setWidth 64 = _ + BitVec.ofNat 64 (_ - (t.remaining - chunk).toNat)
    have hadd : c.req.length.toNat - (t.remaining.toNat - chunk.toNat) =
        c.req.length.toNat - t.remaining.toNat + chunk.toNat := by omega
    rw [BitVec.toNat_sub_of_le hchunk, h.userPtr, hadd, BitVec.ofNat_add, BitVec.add_assoc]
    congr 2
    exact (BitVec.ofNat_toNat ..).symm
  same := by
    rw [h.same]
    rfl
  agree := h.agree
  kept := h.kept

end Twins

section Steps

theorem copyFromUser_congr {user user' : UserMemory} {ptr : BitVec 64} {n : ℕ}
    (h : ∀ k < n, user' (ptr + BitVec.ofNat 64 k) = user (ptr + BitVec.ofNat 64 k)) (buf : Memory)
    (uncopied : ℕ) :
    copyFromUser buf user' ptr n uncopied = copyFromUser buf user ptr n uncopied := by
  unfold copyFromUser
  congr 1
  refine List.map_congr_left fun k hk ↦ ?_
  rw [h k (List.mem_range.mp hk)]

/-- A segment that lies in what is left of the buffer is moved to or from the buffer only. -/
theorem moveSegment_twins (h : Twins c.req start t t') {chunk : BitVec 32}
    (hchunk : chunk.toNat ≤ t.remaining.toNat) (iova : BitVec 64) :
    (moveSegment c v t' iova chunk).1 = (moveSegment c v t iova chunk).1 ∧
      Twins c.req start (moveSegment c v t iova chunk).2 (moveSegment c v t' iova chunk).2 := by
  have hagree : ∀ k < chunk.toNat, t'.user (t.userPtr + BitVec.ofNat 64 k) =
      t.user (t.userPtr + BitVec.ofNat 64 k) := fun k hk ↦ h.agree _ (h.inWindow hchunk hk)
  obtain ⟨user', huser'⟩ : ∃ user', user' = t'.user := ⟨_, rfl⟩
  have hsame := h.same
  rw [← huser'] at hsame hagree
  subst hsame
  unfold moveSegment
  dsimp only
  split_ifs with hwrite hfault
  · rw [copyFromUser_congr hagree]
    exact ⟨rfl, { h with same := rfl }⟩
  · rw [copyFromUser_congr hagree]
    exact ⟨rfl, { h with same := rfl }⟩
  all_goals
    cases (pciemDmaReadFromGuest v t.guest iova t.dataBuf (chunk.setWidth 64)).1 with
    | error e => exact ⟨rfl, { h with same := rfl }⟩
    | ok _ =>
      refine ⟨rfl, { h with same := rfl, agree := fun a ha ↦ ?_, kept := fun a ha ↦ ?_ }⟩
      · exact scatter_congr (h.agree a ha) _
      · refine Eq.trans (scatter_range_of_ne fun k hk heq ↦ ha ?_) (h.kept a ha)
        exact heq ▸ h.inWindow hchunk (Nat.lt_of_lt_of_le hk (Nat.sub_le ..))

theorem readList_twins (h : Twins c.req start t t') (list : BitVec 64) :
    (readList c v t' list).1 = (readList c v t list).1 ∧
      Twins c.req start (readList c v t list).2 (readList c v t' list).2 := by
  have hsame := h.same
  unfold readList
  rw [hsame]
  exact ⟨rfl, { h with same := rfl }⟩

theorem moveSegment_cursor (iova : BitVec 64) (chunk : BitVec 32) :
    (moveSegment c v t iova chunk).2.remaining = t.remaining := by
  obtain ⟨guest, user, dataBuf, hframe⟩ := moveSegment_frame (c := c) (v := v) (t := t) iova chunk
  rw [hframe]

theorem entryChunk_le (c : Call) (t : Transfer) :
    (entryChunk c t).toNat ≤ t.remaining.toNat := by
  unfold entryChunk
  split_ifs with hlt
  · exact le_refl _
  · exact BitVec.le_def.mp (BitVec.not_lt.mp hlt)

theorem firstChunk_le (c : Call) (t : Transfer) :
    (firstChunk c t).toNat ≤ t.remaining.toNat := by
  unfold firstChunk
  dsimp only
  split_ifs with hlt
  · exact le_refl _
  · exact BitVec.le_def.mp (BitVec.not_lt.mp hlt)

/-- How a call goes on with the result of a step. -/
def onOk (r : Except Errno Unit × Transfer) (next : Transfer → Transfer ⊕ Outcome) :
    Transfer ⊕ Outcome :=
  match r with
  | (.error e, t) => .inr (t.outcome (.error e))
  | (.ok (), t) => next t

theorem alike_onOk (next : Transfer → Transfer ⊕ Outcome) {r r' : Except Errno Unit × Transfer}
    (hret : r'.1 = r.1) (htwins : Twins c.req start r.2 r'.2)
    (hnext : Alike c.req start (next r.2) (next r'.2)) :
    Alike c.req start (onOk r next) (onOk r' next) := by
  obtain ⟨ret, t⟩ := r
  obtain ⟨ret', t'⟩ := r'
  dsimp only at hret htwins hnext
  subst hret
  cases ret' with
  | error e => exact htwins.outcome (.error e)
  | ok _ => exact hnext

theorem listStep_alike (h : Twins c.req start t t') :
    Alike c.req start (listStep c v t) (listStep c v t') := by
  have hsame := h.same
  have hremaining : t'.remaining = t.remaining := by rw [hsame]
  have hfollows : FollowsPointer c t' ↔ FollowsPointer c t := by rw [hsame]; exact Iff.rfl
  have hprp : t'.prps t'.listIdx = t.prps t.listIdx := by rw [hsame]; rfl
  have hchunk : entryChunk c t' = entryChunk c t := by rw [hsame]; rfl
  unfold listStep
  simp only [hremaining, hfollows, hprp, hchunk]
  split_ifs with hdone hpointer
  · exact h.outcome (.ok ())
  · obtain ⟨hret, htwins⟩ := readList_twins (v := v) h (t.prps t.listIdx)
    exact alike_onOk .inl hret htwins htwins
  · have hnext : Twins c.req start { t with listIdx := t.listIdx + 1 }
        { t' with remaining := t.remaining, listIdx := t'.listIdx + 1 } := by
      rw [hsame]
      exact { h with same := rfl }
    have hle := entryChunk_le c t
    obtain ⟨hret, htwins⟩ := moveSegment_twins (v := v) hnext hle (t.prps t.listIdx)
    refine alike_onOk (fun t' ↦ .inl (t'.advance (entryChunk c t))) hret htwins
      (htwins.advance ?_)
    rw [moveSegment_cursor]
    exact hle

/-- The part of `transferStart` behind the first segment. -/
def startRest (c : Call) (v : Platform) (t : Transfer) : Transfer ⊕ Outcome :=
  if t.remaining = 0 then
    .inr (t.outcome (.ok ()))
  else if t.remaining ≤ c.req.pageSize then
    let (ret, t) := moveSegment c v t c.req.prp2 t.remaining
    .inr (t.outcome ret)
  else
    onOk (readList c v t c.req.prp2) .inl

theorem startRest_alike (h : Twins c.req start t t') :
    Alike c.req start (startRest c v t) (startRest c v t') := by
  have hremaining : t'.remaining = t.remaining := by rw [h.same]
  unfold startRest
  rw [hremaining]
  split_ifs with hdone hlast
  · exact h.outcome (.ok ())
  · obtain ⟨hret, htwins⟩ := moveSegment_twins (v := v) h (le_refl _) c.req.prp2
    dsimp only
    rw [hret]
    exact htwins.outcome _
  · obtain ⟨hret, htwins⟩ := readList_twins (v := v) h c.req.prp2
    exact alike_onOk .inl hret htwins htwins

theorem transferStart_alike (h : Twins c.req start t t') :
    Alike c.req start (transferStart c v t) (transferStart c v t') := by
  have hsame := h.same
  have hchunk : firstChunk c t' = firstChunk c t := by rw [hsame]; rfl
  have hle := firstChunk_le c t
  obtain ⟨hret, htwins⟩ := moveSegment_twins (v := v) h hle c.req.prp1
  unfold transferStart
  simp only [hchunk]
  refine alike_onOk (fun t' ↦ startRest c v (t'.advance (firstChunk c t))) hret htwins ?_
  refine startRest_alike (htwins.advance ?_)
  rw [moveSegment_cursor]
  exact hle

end Steps

theorem run_alike {m : ℕ} {r : Outcome} (h : Twins c.req start t t')
    (hrun : run (listStep c v) m t = some r) : ∃ r', run (listStep c v) m t' = some r' ∧
      Alike c.req start (.inr r) (.inr r') := by
  induction m generalizing t t' with
  | zero => cases hrun
  | succ m ih =>
    have halike := listStep_alike (v := v) h
    rw [run] at hrun ⊢
    cases hstep : listStep c v t with
    | inl s =>
      cases hstep' : listStep c v t' with
      | inl s' =>
        rw [hstep, hstep'] at halike
        rw [hstep] at hrun
        exact ih halike hrun
      | inr o' =>
        rw [hstep, hstep'] at halike
        exact halike.elim
    | inr o =>
      cases hstep' : listStep c v t' with
      | inl s' =>
        rw [hstep, hstep'] at halike
        exact halike.elim
      | inr o' =>
        rw [hstep, hstep'] at halike
        rw [hstep] at hrun
        cases hrun
        exact ⟨o', rfl, halike⟩

/-- The part of the call for a request that can be served. -/
def served (c : Call) (v : Platform) (t : Transfer) (fuel : ℕ) : Option Outcome :=
  match (match transferStart c v t with
    | .inr r => .inr r
    | .inl t => .inl (v, t) : (Platform × Transfer) ⊕ Outcome) with
  | .inr r => some r
  | .inl (v, t) => run (listStep c v) fuel t

theorem served_alike {fuel : ℕ} {r : Outcome} (h : Twins c.req start t t')
    (hserved : served c v t fuel = some r) :
    ∃ r', served c v t' fuel = some r' ∧ Alike c.req start (.inr r) (.inr r') := by
  have halike := transferStart_alike (v := v) h
  unfold served at hserved ⊢
  cases hstep : transferStart c v t with
  | inl s =>
    cases hstep' : transferStart c v t' with
    | inl s' =>
      rw [hstep, hstep'] at halike
      rw [hstep] at hserved
      exact run_alike halike hserved
    | inr o' =>
      rw [hstep, hstep'] at halike
      exact halike.elim
  | inr o =>
    cases hstep' : transferStart c v t' with
    | inl s' =>
      rw [hstep, hstep'] at halike
      exact halike.elim
    | inr o' =>
      rw [hstep, hstep'] at halike
      rw [hstep] at hserved
      cases hserved
      exact ⟨o', rfl, halike⟩

/-- Of the memory of userspace a call touches only the buffer that its request names: it changes no
other byte, and what it does to the guest depends on no other. -/
theorem indirect_window (c : Call) {t : Transfer} {fuel : ℕ} {r : Outcome}
    (h : pciemIoctlDmaIndirect c t fuel = some r) :
    (∀ a, ¬ InWindow c.req a → r.2.2 a = t.user a) ∧
    ∀ user', (∀ a, InWindow c.req a → user' a = t.user a) →
      ∃ r', pciemIoctlDmaIndirect c { t with user := user' } fuel = some r' ∧
        r'.1 = r.1 ∧ r'.2.1 = r.2.1 := by
  have hboth (user' : UserMemory) (hagree : ∀ a, InWindow c.req a → user' a = t.user a) :
      ∃ r', pciemIoctlDmaIndirect c { t with user := user' } fuel = some r' ∧
        Alike c.req t.user (.inr r) (.inr r') := by
    have hstart : Twins c.req t.user
        { t with remaining := c.req.length, userPtr := c.req.userAddr }
        { t with user := user', remaining := c.req.length, userPtr := c.req.userAddr } := by
      refine ⟨le_refl _, ?_, rfl, hagree, fun _ _ ↦ rfl⟩
      rw [Nat.sub_self]
      exact (BitVec.add_zero _).symm
    have hrefused (e : Except Errno Unit) (hr : r = t.outcome e) :
        Alike c.req t.user (.inr r) (.inr (Transfer.outcome { t with user := user' } e)) := by
      subst hr
      exact ⟨rfl, rfl, fun _ _ ↦ rfl⟩
    unfold pciemIoctlDmaIndirect dmaIndirectStart at h ⊢
    cases hregistered : pciemCheckRegistered c.us with
    | error e =>
      rw [hregistered, Option.some_inj] at h
      exact ⟨_, rfl, hrefused _ h.symm⟩
    | ok _ =>
      rw [hregistered] at h
      dsimp only at h ⊢
      split_ifs at h ⊢
      · exact ⟨_, rfl, hrefused _ (Option.some_inj.mp h).symm⟩
      · cases hfunc : usGetRc c.us c.req.func with
        | none =>
          rw [hfunc] at h
          exact ⟨_, rfl, hrefused _ (Option.some_inj.mp h).symm⟩
        | some v =>
          rw [hfunc] at h
          exact served_alike hstart h
      · exact ⟨_, rfl, hrefused _ (Option.some_inj.mp h).symm⟩
      · exact ⟨_, rfl, hrefused _ (Option.some_inj.mp h).symm⟩
      · exact ⟨_, rfl, hrefused _ (Option.some_inj.mp h).symm⟩
  refine ⟨?_, fun user' hagree ↦ ?_⟩
  · obtain ⟨r', -, -, -, hkept⟩ := hboth t.user fun _ _ ↦ rfl
    exact hkept
  · obtain ⟨r', hr', hret, hguest, -⟩ := hboth user' hagree
    exact ⟨r', hr', hret, hguest⟩

end Pciem.Dma.Window
