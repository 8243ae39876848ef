import Pciem.Dma.Prp
import Pciem.Dma.Stale

namespace Pciem.Dma.Local

open Kernel Library.ByteMemory Library.Scatter Paged Prp Indirect Stale

/-- How the framework serves the process of a card: its functions, and what its allocations and
its copies to and from the process do. `stack` is what a local variable holds before it is set, and
`irqFunc` what the field `func` of the n-th injection does, of which `injectIrq` is the result. -/
structure Env where
  us : PciemUserspaceState
  kernelBuf : Option Memory
  stack : UserMemory
  allocated : Bool
  listBuf : Memory
  dataBuf : Memory
  uncopied : BitVec 64 → ℕ → ℕ
  irqFunc : ℕ → BitVec 8
  injectIrq : ℕ → Except Errno Unit

/-- `PCIEM_IOCTL_DMA` with a local variable as the buffer. -/
def ioctlDma (env : Env) (guest : Memory) (guestIova : BitVec 64) (length flags : BitVec 32)
    (buf : UserMemory) : Outcome :=
  pciemIoctlDma ⟨env.us, ⟨guestIova, 0, length, flags, 0⟩, true, env.kernelBuf, fun _ _ ↦ 0⟩
    guest buf

/-- What the call returns, and the memory of the guest then. -/
def dmaWrite (env : Env) (guest : Memory) (guestIova : BitVec 64) (bs : List (BitVec 8)) :
    Except Errno Unit × Memory :=
  let (ret, guest, _) := ioctlDma env guest guestIova (BitVec.ofNat 32 bs.length)
    pciemDmaFlagWrite fun a ↦ bs.getD a.toNat 0
  (ret, guest)

/-- What the call returns, and the bytes of the variable then. -/
def dmaRead (env : Env) (guest : Memory) (guestIova : BitVec 64) (length : ℕ) :
    Except Errno Unit × Memory :=
  let (ret, _, buf) := ioctlDma env guest guestIova (BitVec.ofNat 32 length) 0x1 env.stack
  (ret, fun k ↦ buf (BitVec.ofNat 64 k))

/-- The framework serves the process: its function 0 is there, and it has memory for its
buffers. -/
structure Serving (env : Env) (p : Platform) : Prop where
  registered : pciemCheckRegistered env.us = .ok ()
  function : usGetRc env.us 0 = some p
  buffer : ∃ kernelBuf, env.kernelBuf = some kernelBuf

section Transfers

variable {c : DmaCall} {p : Platform} {kernelBuf guest : Memory} {user : UserMemory}

theorem toNat_length (length : BitVec 32) : (length.setWidth 64).toNat = length.toNat :=
  BitVec.toNat_setWidth_of_le (by decide)

theorem dmaTransfer_read (hread : c.op.flags &&& pciemDmaFlagWrite = 0)
    (hcopies : ∀ ptr n, c.uncopied ptr n = 0) (hpos : 0 < c.op.length.toNat)
    (h : Accessible p (c.op.guestIova, c.op.length.toNat)) :
    dmaTransfer c p kernelBuf guest user = (.ok (), guest, scatter user
      ((List.range c.op.length.toNat).map fun k ↦ (c.op.userAddr + BitVec.ofNat 64 k,
        guest (locate p (c.op.guestIova + BitVec.ofNat 64 k))))) := by
  have hlen := toNat_length c.op.length
  have h32 := c.op.length.isLt
  obtain ⟨hbelow, htranslated, hserved⟩ := h
  dsimp only at hbelow htranslated hserved
  rw [← hlen] at hpos h32 hbelow htranslated hserved
  unfold dmaTransfer
  simp only [hcopies, if_neg (not_not.mpr hread)]
  rw [read_eq hpos h32 hbelow hserved htranslated, hlen]
  dsimp only
  rw [copyToUser_scatter, if_neg (not_not.mpr rfl)]

theorem dmaTransfer_write (hwrite : c.op.flags &&& pciemDmaFlagWrite ≠ 0)
    (hcopies : ∀ ptr n, c.uncopied ptr n = 0) (hpos : 0 < c.op.length.toNat)
    (h : Accessible p (c.op.guestIova, c.op.length.toNat)) :
    dmaTransfer c p kernelBuf guest user = (.ok (), scatter guest
      ((List.range c.op.length.toNat).map fun k ↦ (locate p (c.op.guestIova + BitVec.ofNat 64 k),
        user (c.op.userAddr + BitVec.ofNat 64 k))), user) := by
  have hlen := toNat_length c.op.length
  have h32 := c.op.length.isLt
  obtain ⟨hbelow, htranslated, hserved⟩ := h
  dsimp only at hbelow htranslated hserved
  rw [← hlen] at hpos h32 hbelow htranslated hserved
  unfold dmaTransfer
  simp only [hcopies, if_pos hwrite, if_neg (not_not.mpr (rfl : (0 : ℕ) = 0))]
  rw [write_eq hpos h32 hbelow hserved htranslated, hlen]
  refine congrArg (fun writes ↦ (Except.ok (), scatter guest writes, user)) ?_
  refine List.map_congr_left fun k hk ↦ ?_
  rw [copyFromUser_apply _ _ _ (List.mem_range.mp hk)]

end Transfers

section Calls

variable {env : Env} {p : Platform} {iova : BitVec 64}

theorem ioctlDma_eq (guest : Memory) (iova : BitVec 64) (h : Serving env p)
    {length : BitVec 32} (hpos : length ≠ 0) (flags : BitVec 32) (buf : UserMemory) :
    ∃ kernelBuf,
      ioctlDma env guest iova length flags buf =
        dmaTransfer ⟨env.us, ⟨iova, 0, length, flags, 0⟩, true, some kernelBuf, fun _ _ ↦ 0⟩ p
          kernelBuf guest buf := by
  obtain ⟨kernelBuf, hbuf⟩ := h.buffer
  refine ⟨kernelBuf, ?_⟩
  unfold ioctlDma pciemIoctlDma
  simp only [h.registered, Bool.true_eq_false, if_false, if_neg hpos, hbuf, h.function]

theorem toNat_ofNat_of_lt {n : ℕ} (h : n < 2 ^ 32) : (BitVec.ofNat 32 n).toNat = n := by
  rw [BitVec.toNat_ofNat, Nat.mod_eq_of_lt h]

theorem ofNat_ne_zero {n : ℕ} (hpos : 0 < n) (h : n < 2 ^ 32) : BitVec.ofNat 32 n ≠ 0 := by
  intro hzero
  have htoNat := toNat_ofNat_of_lt h
  rw [hzero] at htoNat
  exact absurd htoNat.symm (Nat.ne_of_gt hpos)

theorem toNat_zero_add {k : ℕ} (h : k < 2 ^ 32) :
    ((0 : BitVec 64) + BitVec.ofNat 64 k).toNat = k := by
  have hzero : (0 : BitVec 64) + BitVec.ofNat 64 k = BitVec.ofNat 64 k := BitVec.zero_add _
  rw [hzero, BitVec.toNat_ofNat, Nat.mod_eq_of_lt (by omega)]

theorem dmaRead_eq (guest : Memory) (h : Serving env p) {n : ℕ} (hpos : 0 < n) (hn : n < 2 ^ 32)
    (hrange : Accessible p (iova, n)) : ∃ buf, dmaRead env guest iova n = (.ok (), buf) ∧
      ∀ k < n, buf k = guest (locate p (iova + BitVec.ofNat 64 k)) := by
  have hlength := toNat_ofNat_of_lt hn
  rw [← hlength] at hrange
  obtain ⟨kernelBuf, hdma⟩ :=
    ioctlDma_eq guest iova h (ofNat_ne_zero hpos hn) 0x1 env.stack
  rw [dmaTransfer_read (by dsimp only; decide) (fun _ _ ↦ rfl) (by rw [hlength]; exact hpos)
    hrange] at hdma
  dsimp only at hdma
  rw [hlength] at hdma
  unfold dmaRead
  rw [hdma]
  refine ⟨_, rfl, fun k hk ↦ ?_⟩
  have hinj : ∀ i < n, ∀ j < n, (0 : BitVec 64) + BitVec.ofNat 64 i = 0 + BitVec.ofNat 64 j →
      i = j := by
    intro i hi j hj hij
    have htoNat := congrArg BitVec.toNat hij
    rwa [toNat_zero_add (hi.trans hn), toNat_zero_add (hj.trans hn)] at htoNat
  have hzero : BitVec.ofNat 64 k = (0 : BitVec 64) + BitVec.ofNat 64 k := (BitVec.zero_add _).symm
  conv_lhs => rw [hzero]
  exact scatter_range_of_injOn hinj hk

theorem dmaWrite_eq (guest : Memory) (h : Serving env p) {bs : List (BitVec 8)}
    (hpos : 0 < bs.length) (hn : bs.length < 2 ^ 32) (hrange : Accessible p (iova, bs.length)) :
    dmaWrite env guest iova bs = (.ok (), scatter guest ((List.range bs.length).map
      fun k ↦ (locate p (iova + BitVec.ofNat 64 k), bs.getD k 0))) := by
  have hlength := toNat_ofNat_of_lt hn
  obtain ⟨kernelBuf, hdma⟩ := ioctlDma_eq guest iova h
    (ofNat_ne_zero hpos hn) pciemDmaFlagWrite fun a ↦ bs.getD a.toNat 0
  rw [dmaTransfer_write (by dsimp only; decide) (fun _ _ ↦ rfl) (by rw [hlength]; exact hpos)
    (by rw [hlength]; exact hrange)] at hdma
  dsimp only at hdma
  rw [hlength] at hdma
  unfold dmaWrite
  rw [hdma]
  refine congrArg (fun writes ↦ (Except.ok (), scatter guest writes)) ?_
  refine List.map_congr_left fun k hk ↦ ?_
  rw [toNat_zero_add ((List.mem_range.mp hk).trans hn)]

end Calls

theorem locate_direct (addr : BitVec 64) : locate direct addr = addr.toNat := by
  have hdown := toNat_pageAlignDown direct addr
  have hoffset := toNat_offsetInPage direct addr
  change (pageAlignDown direct addr).toNat + (offsetInPage direct addr).toNat = _
  rw [hdown, hoffset, Nat.div_add_mod']

end Pciem.Dma.Local
