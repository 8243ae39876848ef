import Pciem.Dma.Atomic
import Pciem.Dma.Stale
import Pciem.Slot.Ioctl

namespace Pciem.Slot.Transfers

open Kernel Register Ioctl
open State hiding PciemRootComplex
open Library.ByteMemory (Memory)
open Dma.Paged (Platform)
open Dma.Indirect (UserMemory ValidPageSize pciemDmaFlagWrite)
open Dma.Stale (DmaCall)
open Dma.Atomic (AtomicCall)

variable {δ : Type} {us : PciemUserspaceState δ} {platform : RootComplex δ → Platform}

/-- What the DMA of a slot goes by. -/
def seen (platform : RootComplex δ → Platform) (us : PciemUserspaceState δ) :
    Dma.Indirect.PciemUserspaceState where
  registered := us.registered
  funcs k := (us.slot.funcs k).map platform

theorem checkRegistered_seen :
    Dma.Indirect.pciemCheckRegistered (seen platform us) = pciemCheckRegistered us := by
  rw [Dma.Indirect.pciemCheckRegistered, pciemCheckRegistered, seen]
  dsimp only
  cases us.registered with
  | unregistered | registering | registered => rw [Option.isNone_map]

theorem usGetRc_seen (func : BitVec 8) :
    Dma.Indirect.usGetRc (seen platform us) func = (usGetRc us func.toNat).map platform := by
  rw [Dma.Indirect.usGetRc, usGetRc, seen]
  split_ifs
  · rfl
  · rfl

theorem usePdev_of_isSome {v : RootComplex δ} (h : v.pciemPdev.isSome) (r : Except Errno Unit) :
    usePdev v r = .returned r := by
  obtain ⟨dev, hdev⟩ := Option.isSome_iff_exists.mp h
  rw [usePdev, hdev]
  rfl

/-- The function that the request selects has its device. -/
def HasPdev (us : PciemUserspaceState δ) (func : BitVec 8) : Prop :=
  ∀ v, usGetRc us func.toNat = some v → v.pciemPdev.isSome

/-- What the model of a slot looks at of a DMA. -/
def ofDma (c : DmaCall) : Transfer where
  func := c.op.func
  length := c.op.length
  flags := c.op.flags
  allocated := c.kernelBuf.isSome
  userCopied := decide (c.uncopied c.op.userAddr c.op.length.toNat = 0)

theorem move_returns {op : Transfer} {v : RootComplex δ} {r : Except Errno Unit}
    (hpdev : v.pciemPdev.isSome) (h : op.Uncopied → r = .error .efault) :
    op.move v r = .returned r := by
  rw [Transfer.move]
  split_ifs with hno
  · rw [h hno]
  · exact usePdev_of_isSome hpdev r

theorem dmaTransfer_uncopied {c : DmaCall} (h : (ofDma c).Uncopied) (v : Platform)
    (kernelBuf guest : Memory) (user : UserMemory) :
    (Dma.Stale.dmaTransfer c v kernelBuf guest user).1 = .error .efault := by
  obtain ⟨hwrite, huncopied⟩ := h
  have hpartly : c.uncopied c.op.userAddr c.op.length.toNat ≠ 0 := of_decide_eq_false huncopied
  have hwrite' : c.op.flags &&& pciemDmaFlagWrite ≠ 0 := hwrite
  rw [Dma.Stale.dmaTransfer]
  dsimp only
  rw [if_pos hwrite', if_pos hpartly]

/-- The tests that the model of a slot makes turn a DMA down just as it is turned down. -/
theorem dma_returns {c : DmaCall} (hus : c.us = seen platform us) (hpdev : HasPdev us c.op.func)
    (guest : Memory) (user : UserMemory) :
    pciemIoctlDma us c.argCopied (ofDma c) (Dma.Stale.pciemIoctlDma c guest user).1 =
      .returned (Dma.Stale.pciemIoctlDma c guest user).1 := by
  unfold pciemIoctlDma onRegistered Dma.Stale.pciemIoctlDma
  rw [hus, checkRegistered_seen, usGetRc_seen]
  cases pciemCheckRegistered us with
  | error e => rfl
  | ok _ =>
    dsimp only
    by_cases hcopied : c.argCopied = false
    · rw [if_pos hcopied, if_pos hcopied]
    rw [if_neg hcopied, if_neg hcopied]
    by_cases hlength : c.op.length = 0
    · have hearly : (ofDma c).early = some (.error .einval) := if_pos hlength
      rw [if_pos hlength, hearly]
    rw [if_neg hlength]
    cases hbuf : c.kernelBuf with
    | none =>
      have hearly : (ofDma c).early = some (.error .enomem) := by
        simpa [Transfer.early, ofDma, hbuf] using hlength
      rw [hearly]
    | some kernelBuf =>
      have hearly : (ofDma c).early = none := by
        simpa [Transfer.early, ofDma, hbuf] using hlength
      have hfunc : (ofDma c).func = c.op.func := rfl
      rw [hearly, hfunc]
      cases hv : usGetRc us c.op.func.toNat with
      | none => rfl
      | some v =>
        dsimp only [Option.map_some]
        exact move_returns (hpdev v hv) fun hno ↦ dmaTransfer_uncopied hno _ kernelBuf guest user

/-- What the model of a slot looks at of a DMA along a PRP list: of a write, the copy of the first
segment. -/
def ofIndirect (c : Dma.Indirect.Call) (t : Dma.Indirect.Transfer) : Transfer where
  func := c.req.func
  length := c.req.length
  flags := c.req.flags
  allocated := c.allocated
  userCopied := decide (c.uncopied c.req.userAddr (Dma.Indirect.firstChunk c
    { t with remaining := c.req.length, userPtr := c.req.userAddr }).toNat = 0)

theorem transferStart_uncopied {c : Dma.Indirect.Call} {t : Dma.Indirect.Transfer}
    (h : (ofIndirect c t).Uncopied) (v : Platform) :
    ∃ t' : Dma.Indirect.Transfer, Dma.Indirect.transferStart c v
      { t with remaining := c.req.length, userPtr := c.req.userAddr } =
        .inr (t'.outcome (.error .efault)) := by
  obtain ⟨hwrite, huncopied⟩ := h
  have hpartly := of_decide_eq_false huncopied
  have hwrite' : c.req.flags &&& pciemDmaFlagWrite ≠ 0 := hwrite
  rw [Dma.Indirect.transferStart, Dma.Indirect.moveSegment]
  dsimp only
  rw [if_pos hwrite', if_pos hpartly]
  exact ⟨_, rfl⟩

theorem dmaIndirect_returns {c : Dma.Indirect.Call} (hus : c.us = seen platform us)
    (hpdev : HasPdev us c.req.func) {t : Dma.Indirect.Transfer} {fuel : ℕ}
    {result : Dma.Indirect.Outcome}
    (h : Dma.Indirect.pciemIoctlDmaIndirect c t fuel = some result) :
    pciemIoctlDmaIndirect us c.argCopied (ofIndirect c t) c.req.pageSize result.1 =
      .returned result.1 := by
  unfold Dma.Indirect.pciemIoctlDmaIndirect Dma.Indirect.dmaIndirectStart at h
  unfold pciemIoctlDmaIndirect onRegistered
  rw [hus, checkRegistered_seen, usGetRc_seen] at h
  cases hcheck : pciemCheckRegistered us with
  | error e =>
    rw [hcheck] at h
    cases h
    rfl
  | ok _ =>
    rw [hcheck] at h
    dsimp only at h ⊢
    by_cases hcopied : c.argCopied = true
    · rw [if_neg (not_not.mpr hcopied)] at h
      rw [hcopied, if_neg Bool.false_ne_true.symm]
      by_cases hlength : c.req.length = 0
      · rw [if_pos hlength] at h
        rw [if_pos (show (ofIndirect c t).length = 0 from hlength)]
        cases h
        rfl
      rw [if_neg hlength] at h
      rw [if_neg (show ¬ (ofIndirect c t).length = 0 from hlength)]
      by_cases hpage : ValidPageSize c.req.pageSize
      · rw [if_neg (not_not.mpr hpage)] at h ⊢
        by_cases hallocated : c.allocated = true
        · rw [if_neg (not_not.mpr hallocated)] at h
          rw [if_neg (show ¬ (ofIndirect c t).allocated = false by
            rw [ofIndirect, hallocated]
            exact Bool.false_ne_true.symm)]
          have hfunc : (ofIndirect c t).func = c.req.func := rfl
          rw [hfunc]
          cases hv : usGetRc us c.req.func.toNat with
          | none =>
            rw [hv] at h
            cases h
            rfl
          | some v =>
            rw [hv, Option.map_some] at h
            refine move_returns (hpdev v hv) fun hno ↦ ?_
            obtain ⟨t', ht⟩ := transferStart_uncopied hno (platform v)
            dsimp only at h
            rw [ht] at h
            cases h
            rfl
        · rw [if_pos hallocated] at h
          rw [if_pos (show (ofIndirect c t).allocated = false from Bool.not_eq_true _ ▸ hallocated)]
          cases h
          rfl
      · rw [if_pos hpage] at h ⊢
        cases h
        rfl
    · rw [if_pos hcopied] at h
      rw [if_pos (Bool.not_eq_true _ ▸ hcopied)]
      cases h
      rfl

theorem dmaAtomic_returns {c : AtomicCall} (hus : c.us = seen platform us)
    (hpdev : HasPdev us c.atomic.func) {mem mem' : Memory}
    {r : Except Errno Dma.Atomic.PciemDmaAtomic}
    (h : Dma.Atomic.pciemIoctlDmaAtomic c mem = (r, mem')) :
    pciemIoctlDmaAtomic us c.argCopied c.atomic.func c.atomic.opType (r.map fun _ ↦ ()) =
      .returned (r.map fun _ ↦ ()) := by
  unfold Dma.Atomic.pciemIoctlDmaAtomic at h
  unfold pciemIoctlDmaAtomic onRegistered
  rw [hus, checkRegistered_seen, usGetRc_seen] at h
  cases hcheck : pciemCheckRegistered us with
  | error e =>
    rw [hcheck] at h
    cases h
    rfl
  | ok _ =>
    rw [hcheck] at h
    dsimp only at h ⊢
    by_cases hcopied : c.argCopied = false
    · rw [if_pos hcopied] at h ⊢
      cases h
      rfl
    rw [if_neg hcopied] at h ⊢
    cases hv : usGetRc us c.atomic.func.toNat with
    | none =>
      rw [hv] at h
      cases h
      rfl
    | some v =>
      rw [hv, Option.map_some] at h
      dsimp only at h ⊢
      obtain ⟨hnone, hop⟩ | ⟨op, compare, hsome, heq, hlo, hhi, -⟩ :=
        Dma.Atomic.callAtomic_cases c (platform v) mem
      · rw [hnone] at h
        cases h
        rw [if_neg hop]
        rfl
      · rw [if_pos (heq ▸ ⟨hlo, hhi⟩)]
        exact usePdev_of_isSome (hpdev v hv) _

end Pciem.Slot.Transfers
