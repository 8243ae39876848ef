import Pciem.Library.TaggedRing
import Pciem.Nvme.Doorbell

namespace Pciem.Nvme.Rings

open Kernel Library.ByteMemory Library.Scatter Library.TaggedRing Dma.Paged Dma.Prp Dma.Local Card
  Doorbell

/-- A completion as the driver reads it. -/
def completionOfBytes (buf : Memory) : NvmeCompletion where
  result := load buf 0 4
  sqHead := load buf 8 2
  sqId := load buf 10 2
  commandId := load buf 12 2
  status := load buf 14 2

theorem length_encode (cpl : NvmeCompletion) : cpl.encode.length = 16 := by
  simp [NvmeCompletion.encode]

theorem completionOfBytes_encode {buf : Memory} {cpl : NvmeCompletion}
    (h : Holds buf 0 cpl.encode) : completionOfBytes buf = cpl := by
  unfold NvmeCompletion.encode at h
  simp only [holds_append, List.length_append, length_bytes, Nat.zero_add] at h
  obtain ⟨⟨⟨⟨⟨hresult, -⟩, hhead⟩, hid⟩, hcommand⟩, hstatus⟩ := h
  unfold completionOfBytes
  rw [hresult.load_eq rfl (le_refl _), hhead.load_eq rfl (le_refl _),
    hid.load_eq rfl (le_refl _), hcommand.load_eq rfl (le_refl _),
    hstatus.load_eq rfl (le_refl _)]
  simp only [BitVec.setWidth_eq]

/-- The phase tag of a completion. -/
def phaseTag (cpl : NvmeCompletion) : Bool := cpl.status.getLsbD 0

/-- The size of the completion queue; 0 stands for 65536, as `cq_tail` wraps there. -/
def cqEntries (q : NvmeQueue) : ℕ := if q.cqSize = 0 then 2 ^ 16 else q.cqSize.toNat

variable (p : Platform) (q : NvmeQueue)

def sqIova (i : ℕ) : BitVec 64 := q.sqAddr + BitVec.ofNat 64 (64 * i)

def cqIova (i : ℕ) : BitVec 64 := q.cqAddr + BitVec.ofNat 64 (16 * i)

/-- The places of the bytes of an entry. -/
def sqCell (i k : ℕ) : ℕ := locate p (sqIova q i + BitVec.ofNat 64 k)

def cqCell (i k : ℕ) : ℕ := locate p (cqIova q i + BitVec.ofNat 64 k)

def sqEntry (mem : Memory) (i : ℕ) : NvmeCommand := .ofBytes fun k ↦ mem (sqCell p q i k)

def cqEntry (mem : Memory) (i : ℕ) : NvmeCompletion :=
  completionOfBytes fun k ↦ mem (cqCell p q i k)

/-- The rings of a queue are in memory that the card can reach, and no byte of the ring of the
completions is at the place of another byte of the two. -/
structure Laid : Prop where
  sqSize : q.sqSize ≠ 0
  sq : ∀ i < q.sqSize.toNat, Accessible p (sqIova q i, 64)
  cq : ∀ i < cqEntries q, Accessible p (cqIova q i, 16)
  distinct : ∀ i < cqEntries q, ∀ k < 16, ∀ j < cqEntries q, ∀ l < 16,
    cqCell p q i k = cqCell p q j l → i = j ∧ k = l
  apart : ∀ i < q.sqSize.toNat, ∀ k < 64, ∀ j < cqEntries q, ∀ l < 16,
    sqCell p q i k ≠ cqCell p q j l

variable {p q}

theorem Laid.sqSize_pos (h : Laid p q) : 0 < q.sqSize.toNat :=
  Nat.pos_of_ne_zero fun hzero ↦ h.sqSize (BitVec.eq_of_toNat_eq hzero)

theorem cqEntries_pos : 0 < cqEntries q := by
  unfold cqEntries
  split
  · exact Nat.two_pow_pos 16
  · rename_i h
    exact Nat.pos_of_ne_zero fun hzero ↦ h (BitVec.eq_of_toNat_eq hzero)

theorem load_congr' {buf buf' : Memory} {w m : ℕ} (h : ∀ k < m, buf k = buf' k) {a n : ℕ}
    (hn : a + n ≤ m) : (load buf a n : BitVec w) = load buf' a n :=
  load_congr fun k hk ↦ h (a + k) (by omega)

theorem commandOfBytes_congr {buf buf' : Memory} (h : ∀ k < 64, buf k = buf' k) :
    NvmeCommand.ofBytes buf = .ofBytes buf' := by
  unfold NvmeCommand.ofBytes
  simp only [NvmeCommand.mk.injEq]
  refine ⟨?_, ?_, ?_, ?_, ?_, ?_, ?_, ?_⟩
  all_goals exact load_congr' h (by decide)

theorem completionOfBytes_congr {buf buf' : Memory} (h : ∀ k < 16, buf k = buf' k) :
    completionOfBytes buf = completionOfBytes buf' := by
  unfold completionOfBytes
  simp only [NvmeCompletion.mk.injEq]
  refine ⟨?_, ?_, ?_, ?_, ?_⟩
  all_goals exact load_congr' h (by decide)

theorem setWidth_mul (index : BitVec 16) (n : ℕ) :
    index.setWidth 64 * BitVec.ofNat 64 n = BitVec.ofNat 64 (n * index.toNat) := by
  apply BitVec.eq_of_toNat_eq
  rw [BitVec.toNat_mul, BitVec.toNat_setWidth, BitVec.toNat_ofNat, BitVec.toNat_ofNat,
    ← Nat.mul_mod, Nat.mul_comm]

section Read

variable {env : Env} {dev : NvmeDevice}

theorem nvmeReadSqEntry_eq (h : Serving env p) (hlaid : Laid p q)
    (hhead : q.sqHead.toNat < q.sqSize.toNat) :
    nvmeReadSqEntry env dev q = (.ok (), sqEntry p q dev.guest q.sqHead.toNat) := by
  have haddr : q.sqAddr + q.sqHead.setWidth 64 * 64 = sqIova q q.sqHead.toNat := by
    unfold sqIova
    congr 1
    exact setWidth_mul q.sqHead 64
  obtain ⟨buf, hread, hbuf⟩ := dmaRead_eq dev.guest h (by decide) (by decide)
    (hlaid.sq q.sqHead.toNat hhead)
  unfold nvmeReadSqEntry nvmeDmaRead
  rw [haddr, hread]
  exact congrArg (Prod.mk _) (commandOfBytes_congr hbuf)

end Read

section Write

variable {env : Env} {dev : NvmeDevice}

theorem cqIova_eq (q : NvmeQueue) :
    q.cqAddr + q.cqTail.setWidth 64 * 16 = cqIova q q.cqTail.toNat := by
  unfold cqIova
  congr 1
  exact setWidth_mul q.cqTail 16

/-- The memory after a completion has been written at a slot. -/
def written (p : Platform) (q : NvmeQueue) (mem : Memory) (i : ℕ) (cpl : NvmeCompletion) :
    Memory :=
  scatter mem ((List.range 16).map fun k ↦ (cqCell p q i k, cpl.encode.getD k 0))

theorem nvmeDmaWrite_completion (h : Serving env p) (hlaid : Laid p q)
    (htail : q.cqTail.toNat < cqEntries q) (cpl : NvmeCompletion) :
    nvmeDmaWrite env dev (q.cqAddr + q.cqTail.setWidth 64 * 16) cpl.encode =
      (.ok (), { dev with guest := written p q dev.guest q.cqTail.toNat cpl }) := by
  have hlength := length_encode cpl
  have hrange : Accessible p (cqIova q q.cqTail.toNat, cpl.encode.length) := by
    rw [hlength]
    exact hlaid.cq q.cqTail.toNat htail
  have hwrite := dmaWrite_eq dev.guest h (by rw [hlength]; decide)
    (by rw [hlength]; decide) hrange
  unfold nvmeDmaWrite
  rw [cqIova_eq, hwrite, hlength]
  rfl

theorem written_outside {mem : Memory} {i cell : ℕ} {cpl : NvmeCompletion}
    (h : ∀ k < 16, cqCell p q i k ≠ cell) : written p q mem i cpl cell = mem cell :=
  scatter_range_of_ne h

theorem cqEntry_written_self (hlaid : Laid p q) {i : ℕ} (hi : i < cqEntries q) (mem : Memory)
    (cpl : NvmeCompletion) : cqEntry p q (written p q mem i cpl) i = cpl := by
  refine completionOfBytes_encode fun k hk ↦ ?_
  have hk16 : k < 16 := by rwa [length_encode] at hk
  rw [Nat.zero_add]
  refine (scatter_range_of_injOn ?_ hk16).trans (List.getD_eq_getElem _ _ hk)
  intro a ha b hb hab
  exact (hlaid.distinct i hi a ha i hi b hb hab).2

theorem cqEntry_written_other (hlaid : Laid p q) {i j : ℕ} (hi : i < cqEntries q)
    (hj : j < cqEntries q) (hne : j ≠ i) (mem : Memory) (cpl : NvmeCompletion) :
    cqEntry p q (written p q mem i cpl) j = cqEntry p q mem j := by
  refine completionOfBytes_congr fun k hk ↦ written_outside fun l hl heq ↦ ?_
  exact hne (hlaid.distinct i hi l hl j hj k hk heq).1.symm

theorem sqEntry_congr {mem mem' : Memory} {i : ℕ}
    (h : ∀ k < 64, mem (sqCell p q i k) = mem' (sqCell p q i k)) :
    sqEntry p q mem i = sqEntry p q mem' i :=
  commandOfBytes_congr h

theorem cqEntry_congr {mem mem' : Memory} {i : ℕ}
    (h : ∀ k < 16, mem (cqCell p q i k) = mem' (cqCell p q i k)) :
    cqEntry p q mem i = cqEntry p q mem' i :=
  completionOfBytes_congr h

end Write

end Pciem.Nvme.Rings
