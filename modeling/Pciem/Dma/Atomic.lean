import Pciem.Dma.Indirect

namespace Pciem.Dma.Atomic

open Kernel Library.ByteMemory Paged
open Indirect (PciemUserspaceState usGetRc pciemCheckRegistered)

def pciemAtomicFetchAdd : BitVec 8 := 1

def pciemAtomicFetchSub : BitVec 8 := 2

def pciemAtomicSwap : BitVec 8 := 3

def pciemAtomicCas : BitVec 8 := 4

def pciemAtomicFetchAnd : BitVec 8 := 5

def pciemAtomicFetchOr : BitVec 8 := 6

def pciemAtomicFetchXor : BitVec 8 := 7

/-- `IS_ALIGNED(addr, 8)` -/
def Aligned (addr : BitVec 64) : Prop := addr &&& 7 = 0

instance instDecidableAligned (addr : BitVec 64) : Decidable (Aligned addr) :=
  inferInstanceAs (Decidable (_ = _))

section Operations

variable (mem : Memory) (place : ℕ)

/-- The operations that always store, with the value that the memory had. -/
def atomic64 (f : BitVec 64 → BitVec 64) : BitVec 64 × Memory :=
  (load mem place 8, store mem place (bytes (f (load mem place 8)) 8))

def atomic64FetchAdd (operand : BitVec 64) : BitVec 64 × Memory := atomic64 mem place (· + operand)

def atomic64FetchSub (operand : BitVec 64) : BitVec 64 × Memory := atomic64 mem place (· - operand)

def atomic64Xchg (operand : BitVec 64) : BitVec 64 × Memory := atomic64 mem place fun _ ↦ operand

def atomic64FetchAnd (operand : BitVec 64) : BitVec 64 × Memory :=
  atomic64 mem place (· &&& operand)

def atomic64FetchOr (operand : BitVec 64) : BitVec 64 × Memory :=
  atomic64 mem place (· ||| operand)

def atomic64FetchXor (operand : BitVec 64) : BitVec 64 × Memory :=
  atomic64 mem place (· ^^^ operand)

def atomic64Cmpxchg (compare operand : BitVec 64) : BitVec 64 × Memory :=
  if load mem place 8 = compare then (load mem place 8, store mem place (bytes operand 8))
  else (load mem place 8, mem)

/-- The switch of `do_atomic_op`. -/
def atomicSwitch (opType : BitVec 8) (operand compare : BitVec 64) : BitVec 64 × Memory :=
  if opType = pciemAtomicFetchAdd then atomic64FetchAdd mem place operand
  else if opType = pciemAtomicFetchSub then atomic64FetchSub mem place operand
  else if opType = pciemAtomicSwap then atomic64Xchg mem place operand
  else if opType = pciemAtomicCas then atomic64Cmpxchg mem place compare operand
  else if opType = pciemAtomicFetchAnd then atomic64FetchAnd mem place operand
  else if opType = pciemAtomicFetchOr then atomic64FetchOr mem place operand
  else if opType = pciemAtomicFetchXor then atomic64FetchXor mem place operand
  else (0, mem)

end Operations

section DoAtomicOp

variable (p : Platform) (mapAddr : BitVec 64 → BitVec 64) (mem : Memory) (guestIova : BitVec 64)

/-- The physical address that `do_atomic_op` maps. -/
def physAddr : BitVec 64 :=
  translateIovaOnce p (pageAlignDown p guestIova) + offsetInPage p guestIova

/-- `mapAddr` has the address that `pciem_map_phys` maps a physical address to, where it can. -/
def doAtomicOp (opType : BitVec 8) (operand compare : BitVec 64) : BitVec 64 × Memory :=
  if ¬ Aligned guestIova then
    (0, mem)
  else if translateIovaOnce p (pageAlignDown p guestIova) = 0 then
    (0, mem)
  else if p.mapped (physAddr p guestIova) = false then
    (0, mem)
  else if ¬ Aligned (mapAddr (physAddr p guestIova)) then
    (0, mem)
  else
    atomicSwitch mem (physAddr p guestIova).toNat opType operand compare

def pciemDmaAtomicFetchAdd (val : BitVec 64) : BitVec 64 × Memory :=
  doAtomicOp p mapAddr mem guestIova pciemAtomicFetchAdd val 0

def pciemDmaAtomicFetchSub (val : BitVec 64) : BitVec 64 × Memory :=
  doAtomicOp p mapAddr mem guestIova pciemAtomicFetchSub val 0

def pciemDmaAtomicSwap (val : BitVec 64) : BitVec 64 × Memory :=
  doAtomicOp p mapAddr mem guestIova pciemAtomicSwap val 0

def pciemDmaAtomicCas (expected newVal : BitVec 64) : BitVec 64 × Memory :=
  doAtomicOp p mapAddr mem guestIova pciemAtomicCas newVal expected

def pciemDmaAtomicFetchAnd (val : BitVec 64) : BitVec 64 × Memory :=
  doAtomicOp p mapAddr mem guestIova pciemAtomicFetchAnd val 0

def pciemDmaAtomicFetchOr (val : BitVec 64) : BitVec 64 × Memory :=
  doAtomicOp p mapAddr mem guestIova pciemAtomicFetchOr val 0

def pciemDmaAtomicFetchXor (val : BitVec 64) : BitVec 64 × Memory :=
  doAtomicOp p mapAddr mem guestIova pciemAtomicFetchXor val 0

end DoAtomicOp

structure PciemDmaAtomic where
  guestIova : BitVec 64
  operand : BitVec 64
  compare : BitVec 64
  opType : BitVec 32
  pasid : BitVec 32
  result : BitVec 64
  func : BitVec 8

/-- One call, with what its copies from and to userspace do, and where memory is mapped. -/
structure AtomicCall where
  us : PciemUserspaceState
  atomic : PciemDmaAtomic
  argCopied : Bool
  copiedBack : Bool
  mapAddr : BitVec 64 → BitVec 64

/-- The switch of the ioctl: what the operation returns, and the memory then. -/
def callAtomic (c : AtomicCall) (v : Platform) (mem : Memory) : Option (BitVec 64 × Memory) :=
  let a := c.atomic
  let opType (op : BitVec 8) : BitVec 32 := op.setWidth 32
  if a.opType = opType pciemAtomicFetchAdd then
    some (pciemDmaAtomicFetchAdd v c.mapAddr mem a.guestIova a.operand)
  else if a.opType = opType pciemAtomicFetchSub then
    some (pciemDmaAtomicFetchSub v c.mapAddr mem a.guestIova a.operand)
  else if a.opType = opType pciemAtomicSwap then
    some (pciemDmaAtomicSwap v c.mapAddr mem a.guestIova a.operand)
  else if a.opType = opType pciemAtomicCas then
    some (pciemDmaAtomicCas v c.mapAddr mem a.guestIova a.compare a.operand)
  else if a.opType = opType pciemAtomicFetchAnd then
    some (pciemDmaAtomicFetchAnd v c.mapAddr mem a.guestIova a.operand)
  else if a.opType = opType pciemAtomicFetchOr then
    some (pciemDmaAtomicFetchOr v c.mapAddr mem a.guestIova a.operand)
  else if a.opType = opType pciemAtomicFetchXor then
    some (pciemDmaAtomicFetchXor v c.mapAddr mem a.guestIova a.operand)
  else
    none

/-- What the ioctl returns, with what it has copied back, and the memory of the guest then. -/
def pciemIoctlDmaAtomic (c : AtomicCall) (mem : Memory) : Except Errno PciemDmaAtomic × Memory :=
  match pciemCheckRegistered c.us with
  | .error e => (.error e, mem)
  | .ok () =>
    if c.argCopied = false then
      (.error .efault, mem)
    else
      match usGetRc c.us c.atomic.func with
      | none => (.error .enodev, mem)
      | some v =>
        match callAtomic c v mem with
        | none => (.error .einval, mem)
        | some (result, mem) =>
          (if c.copiedBack then .ok { c.atomic with result } else .error .efault, mem)

section Specification

/-- What an operation makes of the old value. -/
def newValue (opType : ℕ) (old operand compare : BitVec 64) : BitVec 64 :=
  match opType with
  | 1 => old + operand
  | 2 => old - operand
  | 3 => operand
  | 4 => if old = compare then operand else old
  | 5 => old &&& operand
  | 6 => old ||| operand
  | _ => old ^^^ operand

/-- The eight bytes have been replaced, and no other byte. -/
structure Replaced (mem : Memory) (place : ℕ) (value : BitVec 64) (mem' : Memory) : Prop where
  inside : load mem' place 8 = value
  outside : ∀ q, q < place ∨ place + 8 ≤ q → mem' q = mem q

/-- The address can be used: it is aligned, its page is translated, and the place is mapped at an
aligned address. -/
structure Usable (p : Platform) (mapAddr : BitVec 64 → BitVec 64) (guestIova : BitVec 64) :
    Prop where
  aligned : Aligned guestIova
  translated : translateIovaOnce p (pageAlignDown p guestIova) ≠ 0
  mapped : p.mapped (physAddr p guestIova) = true
  mapAligned : Aligned (mapAddr (physAddr p guestIova))

/-- The ioctl tells the truth: a call that returns 0 has done the operation, and one whose address
cannot be used fails and leaves the memory alone. -/
structure Truthful (c : AtomicCall) (v : Platform) (mem : Memory) : Prop where
  done : ∀ atomic mem', pciemIoctlDmaAtomic c mem = (.ok atomic, mem') →
    atomic.result = load mem (physAddr v c.atomic.guestIova).toNat 8 ∧
    Replaced mem (physAddr v c.atomic.guestIova).toNat
      (newValue c.atomic.opType.toNat (load mem (physAddr v c.atomic.guestIova).toNat 8)
        c.atomic.operand c.atomic.compare) mem'
  failed : ¬ Usable v c.mapAddr c.atomic.guestIova →
    ∃ e, pciemIoctlDmaAtomic c mem = (.error e, mem)

/-- The call fails for another reason than its address. -/
def Refused (c : AtomicCall) : Prop :=
  pciemCheckRegistered c.us ≠ .ok () ∨ c.argCopied = false ∨
    ¬ (1 ≤ c.atomic.opType.toNat ∧ c.atomic.opType.toNat ≤ 7) ∨ c.copiedBack = false

end Specification

section Switches

variable {mem : Memory} {place : ℕ} {v : Platform} {mapAddr : BitVec 64 → BitVec 64}
  {guestIova : BitVec 64}

theorem replaced_store (mem : Memory) (place : ℕ) (value : BitVec 64) :
    Replaced mem place value (store mem place (bytes value 8)) where
  inside := by
    rw [(holds_store mem place (bytes value 8)).load_eq rfl le_rfl, BitVec.setWidth_eq]
  outside q hq := store_outside (by rwa [length_bytes])

theorem opType_cases {opType : BitVec 8} (hlo : 1 ≤ opType.toNat) (hhi : opType.toNat ≤ 7) :
    opType = pciemAtomicFetchAdd ∨ opType = pciemAtomicFetchSub ∨ opType = pciemAtomicSwap ∨
      opType = pciemAtomicCas ∨ opType = pciemAtomicFetchAnd ∨ opType = pciemAtomicFetchOr ∨
      opType = pciemAtomicFetchXor := by
  have hop : opType.toNat = 1 ∨ opType.toNat = 2 ∨ opType.toNat = 3 ∨ opType.toNat = 4 ∨
      opType.toNat = 5 ∨ opType.toNat = 6 ∨ opType.toNat = 7 := by omega
  exact hop.imp BitVec.eq_of_toNat_eq (.imp BitVec.eq_of_toNat_eq (.imp BitVec.eq_of_toNat_eq
    (.imp BitVec.eq_of_toNat_eq (.imp BitVec.eq_of_toNat_eq (.imp BitVec.eq_of_toNat_eq
      BitVec.eq_of_toNat_eq)))))

theorem atomicSwitch_spec {opType : BitVec 8} (hlo : 1 ≤ opType.toNat) (hhi : opType.toNat ≤ 7)
    (mem : Memory) (place : ℕ) (operand compare : BitVec 64) :
    (atomicSwitch mem place opType operand compare).1 = load mem place 8 ∧
    Replaced mem place (newValue opType.toNat (load mem place 8) operand compare)
      (atomicSwitch mem place opType operand compare).2 := by
  rw [atomicSwitch]
  split_ifs with h1 h2 h3 h4 h5 h6 h7
  · subst h1
    exact ⟨rfl, replaced_store ..⟩
  · subst h2
    exact ⟨rfl, replaced_store ..⟩
  · subst h3
    exact ⟨rfl, replaced_store ..⟩
  · subst h4
    rw [atomic64Cmpxchg]
    by_cases heq : load mem place 8 = compare
    · rw [if_pos heq]
      refine ⟨rfl, ?_⟩
      rw [show newValue pciemAtomicCas.toNat (load mem place 8) operand compare = operand from
        if_pos heq]
      exact replaced_store ..
    · rw [if_neg heq]
      refine ⟨rfl, ?_⟩
      rw [show newValue pciemAtomicCas.toNat (load mem place 8) operand compare = load mem place 8
        from if_neg heq]
      exact ⟨rfl, fun _ _ ↦ rfl⟩
  · subst h5
    exact ⟨rfl, replaced_store ..⟩
  · subst h6
    exact ⟨rfl, replaced_store ..⟩
  · subst h7
    exact ⟨rfl, replaced_store ..⟩
  · refine absurd (opType_cases hlo hhi) ?_
    simp only [h1, h2, h3, h4, h5, h6, h7, or_self, not_false_iff]

theorem doAtomicOp_of_usable (h : Usable v mapAddr guestIova) (opType : BitVec 8)
    (operand compare : BitVec 64) : doAtomicOp v mapAddr mem guestIova opType operand compare =
      atomicSwitch mem (physAddr v guestIova).toNat opType operand compare := by
  rw [doAtomicOp, if_neg (not_not_intro h.aligned), if_neg h.translated,
    if_neg (Bool.not_eq_false _ ▸ h.mapped), if_neg (not_not_intro h.mapAligned)]

theorem doAtomicOp_of_not_usable (h : ¬ Usable v mapAddr guestIova) (opType : BitVec 8)
    (operand compare : BitVec 64) :
    doAtomicOp v mapAddr mem guestIova opType operand compare = (0, mem) := by
  rw [doAtomicOp]
  split_ifs with h1 h2 h3 h4
  · rfl
  · rfl
  · exact absurd ⟨h1, h2, Bool.eq_true_of_not_eq_false h3, h4⟩ h
  · rfl
  · rfl

/-- The switch of the ioctl finds the operation, or fails. -/
theorem callAtomic_cases (c : AtomicCall) (v : Platform) (mem : Memory) :
    (callAtomic c v mem = none ∧ ¬ (1 ≤ c.atomic.opType.toNat ∧ c.atomic.opType.toNat ≤ 7)) ∨
    ∃ op compare, callAtomic c v mem =
        some (doAtomicOp v c.mapAddr mem c.atomic.guestIova op c.atomic.operand compare) ∧
      c.atomic.opType.toNat = op.toNat ∧ 1 ≤ op.toNat ∧ op.toNat ≤ 7 ∧
      ∀ old, newValue op.toNat old c.atomic.operand compare =
        newValue op.toNat old c.atomic.operand c.atomic.compare := by
  rw [callAtomic]
  split_ifs with h1 h2 h3 h4 h5 h6 h7
  · exact .inr ⟨_, _, rfl, by rw [h1]; rfl, by decide, by decide, fun _ ↦ rfl⟩
  · exact .inr ⟨_, _, rfl, by rw [h2]; rfl, by decide, by decide, fun _ ↦ rfl⟩
  · exact .inr ⟨_, _, rfl, by rw [h3]; rfl, by decide, by decide, fun _ ↦ rfl⟩
  · exact .inr ⟨_, _, rfl, by rw [h4]; rfl, by decide, by decide, fun _ ↦ rfl⟩
  · exact .inr ⟨_, _, rfl, by rw [h5]; rfl, by decide, by decide, fun _ ↦ rfl⟩
  · exact .inr ⟨_, _, rfl, by rw [h6]; rfl, by decide, by decide, fun _ ↦ rfl⟩
  · exact .inr ⟨_, _, rfl, by rw [h7]; rfl, by decide, by decide, fun _ ↦ rfl⟩
  · refine .inl ⟨rfl, ?_⟩
    rintro ⟨hlo, hhi⟩
    have hop : c.atomic.opType.toNat = 1 ∨ c.atomic.opType.toNat = 2 ∨ c.atomic.opType.toNat = 3 ∨
        c.atomic.opType.toNat = 4 ∨ c.atomic.opType.toNat = 5 ∨ c.atomic.opType.toNat = 6 ∨
        c.atomic.opType.toNat = 7 := by omega
    rcases hop with h | h | h | h | h | h | h
    · exact h1 (BitVec.eq_of_toNat_eq h)
    · exact h2 (BitVec.eq_of_toNat_eq h)
    · exact h3 (BitVec.eq_of_toNat_eq h)
    · exact h4 (BitVec.eq_of_toNat_eq h)
    · exact h5 (BitVec.eq_of_toNat_eq h)
    · exact h6 (BitVec.eq_of_toNat_eq h)
    · exact h7 (BitVec.eq_of_toNat_eq h)

end Switches

section Ioctl

variable {c : AtomicCall} {v : Platform}

theorem ioctl_of_refused (hv : usGetRc c.us c.atomic.func = some v) (h : Refused c)
    (mem : Memory) : ∃ e mem', pciemIoctlDmaAtomic c mem = (.error e, mem') ∧
      (¬ Usable v c.mapAddr c.atomic.guestIova → mem' = mem) := by
  rw [pciemIoctlDmaAtomic]
  cases hreg : pciemCheckRegistered c.us with
  | error e => exact ⟨e, mem, rfl, fun _ ↦ rfl⟩
  | ok _ =>
    simp only [hv]
    by_cases hcopied : c.argCopied = false
    · rw [if_pos hcopied]
      exact ⟨.efault, mem, rfl, fun _ ↦ rfl⟩
    rw [if_neg hcopied]
    rcases callAtomic_cases c v mem with ⟨hnone, -⟩ | ⟨op, compare, hsome, hop, hlo, hhi, -⟩
    · rw [hnone]
      exact ⟨.einval, mem, rfl, fun _ ↦ rfl⟩
    · have hback : c.copiedBack = false :=
        ((h.resolve_left (not_not_intro hreg)).resolve_left hcopied).resolve_left
          (not_not_intro ⟨hop ▸ hlo, hop ▸ hhi⟩)
      rw [hsome]
      refine ⟨.efault, (doAtomicOp v c.mapAddr mem c.atomic.guestIova op c.atomic.operand
        compare).2, by rw [hback]; rfl, fun hno ↦ ?_⟩
      exact congrArg Prod.snd (doAtomicOp_of_not_usable hno op c.atomic.operand compare)

/-- A call that is not refused returns 0, with what the operation returned. -/
theorem ioctl_of_not_refused (hv : usGetRc c.us c.atomic.func = some v) (h : ¬ Refused c)
    (mem : Memory) : ∃ op compare, c.atomic.opType.toNat = op.toNat ∧ 1 ≤ op.toNat ∧ op.toNat ≤ 7 ∧
      (∀ old, newValue op.toNat old c.atomic.operand compare =
        newValue op.toNat old c.atomic.operand c.atomic.compare) ∧
      pciemIoctlDmaAtomic c mem =
        (.ok { c.atomic with result := (doAtomicOp v c.mapAddr mem c.atomic.guestIova op
          c.atomic.operand compare).1 },
          (doAtomicOp v c.mapAddr mem c.atomic.guestIova op c.atomic.operand compare).2) := by
  simp only [Refused, not_or, not_not] at h
  obtain ⟨hreg, hcopied, hop, hback⟩ := h
  rcases callAtomic_cases c v mem with ⟨-, hno⟩ | ⟨op, compare, hsome, heq, hlo, hhi, hnew⟩
  · exact absurd hop hno
  · refine ⟨op, compare, heq, hlo, hhi, hnew, ?_⟩
    rw [pciemIoctlDmaAtomic, hreg]
    simp only [if_neg hcopied, hv, hsome, Bool.eq_true_of_not_eq_false hback, if_true]

theorem truthful_of_refused (hv : usGetRc c.us c.atomic.func = some v) (h : Refused c)
    (mem : Memory) : Truthful c v mem := by
  obtain ⟨e, mem', heq, hkept⟩ := ioctl_of_refused hv h mem
  refine ⟨fun atomic mem'' hok ↦ ?_, fun hno ↦ ⟨e, ?_⟩⟩
  · rw [heq] at hok
    cases hok
  · rw [heq, hkept hno]

theorem truthful_of_usable (hv : usGetRc c.us c.atomic.func = some v) (h : ¬ Refused c)
    (husable : Usable v c.mapAddr c.atomic.guestIova) (mem : Memory) : Truthful c v mem := by
  obtain ⟨op, compare, hop, hlo, hhi, hnew, heq⟩ := ioctl_of_not_refused hv h mem
  refine ⟨fun atomic mem' hok ↦ ?_, fun hno ↦ absurd husable hno⟩
  rw [heq, doAtomicOp_of_usable husable] at hok
  cases hok
  have hspec := atomicSwitch_spec hlo hhi mem (physAddr v c.atomic.guestIova).toNat
    c.atomic.operand compare
  rw [hop, ← hnew]
  exact hspec

end Ioctl

/-- DMA_ATOMIC tells the truth just where it is refused for another reason, or the address can be
used. -/
theorem truthful_iff (c : AtomicCall) (mem : Memory) :
    (∀ v, usGetRc c.us c.atomic.func = some v → Truthful c v mem) ↔
      ∀ v, usGetRc c.us c.atomic.func = some v →
        Refused c ∨ Usable v c.mapAddr c.atomic.guestIova := by
  refine forall_congr' fun v ↦ forall_congr' fun hv ↦ ⟨fun htrue ↦ ?_, fun h ↦ ?_⟩
  · by_contra hno
    obtain ⟨hrefused, hunusable⟩ := not_or.mp hno
    obtain ⟨op, compare, -, -, -, -, heq⟩ := ioctl_of_not_refused hv hrefused mem
    obtain ⟨e, herror⟩ := htrue.failed hunusable
    rw [heq] at herror
    cases herror
  · by_cases hrefused : Refused c
    · exact truthful_of_refused hv hrefused mem
    · exact truthful_of_usable hv hrefused (h.resolve_left hrefused) mem

def fetchAddUnaligned : AtomicCall where
  us := ⟨.registered, fun _ ↦ some direct⟩
  atomic := ⟨0x1001, 1, 0, 1, 0, 0, 0⟩
  argCopied := true
  copiedBack := true
  mapAddr := id

/-- The address is not aligned, and the call returns 0, with 0 for the old value. -/
theorem unaligned_succeeds : ¬ ∀ c mem v, usGetRc c.us c.atomic.func = some v →
    Truthful c v mem := by
  intro h
  have htrue := h fetchAddUnaligned (fun _ ↦ 0) direct rfl
  have hunaligned : ¬ Aligned (0x1001 : BitVec 64) := by decide
  obtain ⟨e, he⟩ := htrue.failed fun husable ↦ hunaligned husable.aligned
  have hok : (pciemIoctlDmaAtomic fetchAddUnaligned fun _ ↦ 0).1 =
      .ok fetchAddUnaligned.atomic := rfl
  rw [he] at hok
  cases hok

end Pciem.Dma.Atomic
