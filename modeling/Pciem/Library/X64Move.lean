import Pciem.Library.X64

namespace Library.X64

open ByteMemory

instance lawfulBEqByte : LawfulBEq (BitVec 8) := inferInstance

section Bytes

variable {v w n : ℕ}

theorem compose_low_bytes (value : BitVec v) (hw : w ≤ 8 * n) :
    compose ((bytes value n).map (BitVec.setWidth w)) = value.setWidth w := by
  apply BitVec.eq_of_getLsbD_eq
  intro k hk
  have hlt : k % 8 < 8 := Nat.mod_lt _ (by omega)
  have hsum : 8 * (k / 8) + k % 8 = k := Nat.div_add_mod k 8
  have hdiv : k / 8 < n := by omega
  rw [getLsbD_compose hk, BitVec.getLsbD_setWidth]
  simp [bytes, byte, hdiv, hlt, hsum, hk]

/-- An extension of the sign leaves the bytes that are there. -/
theorem bytes_signExtend (value : BitVec (8 * n)) (hw : 8 * n ≤ w) :
    bytes (value.signExtend w) n = bytes value n :=
  List.map_congr_left fun k hk ↦ by
    have := List.mem_range.mp hk
    exact byte_signExtend value (by omega) hw

theorem byte_ushiftRight (value : BitVec v) (k : ℕ) :
    byte (value >>> 8) k = byte value (k + 1) := by
  apply BitVec.eq_of_getLsbD_eq
  intro j hj
  simp only [byte, BitVec.getLsbD_extractLsb', BitVec.getLsbD_ushiftRight,
    show 8 + (8 * k + j) = 8 * (k + 1) + j by omega]

end Bytes

/-- What an instruction works on. -/
structure Machine where
  gpr : ℕ → BitVec 64
  rip : BitVec 64
  fsBase : BitVec 64
  gsBase : BitVec 64

/-- The moves between a register and memory, and those of an immediate to memory. -/
inductive MoveOp
  | registerByte
  | register
  | immediateByte
  | immediate
  | loadByte
  | load
  | zeroExtendByte
  | zeroExtendWord
  | signExtendByte
  | signExtendWord
deriving DecidableEq

namespace MoveOp

def opcode : MoveOp → List (BitVec 8)
  | registerByte => [0x88]
  | register => [0x89]
  | immediateByte => [0xC6]
  | immediate => [0xC7]
  | loadByte => [0x8A]
  | load => [0x8B]
  | zeroExtendByte => [0x0F, 0xB6]
  | zeroExtendWord => [0x0F, 0xB7]
  | signExtendByte => [0x0F, 0xBE]
  | signExtendWord => [0x0F, 0xBF]

def isStore : MoveOp → Bool
  | registerByte | register | immediateByte | immediate => true
  | loadByte | load | zeroExtendByte | zeroExtendWord | signExtendByte | signExtendWord => false

/-- The number of bytes in memory, where the operand has `operand`. -/
def width (operand : Width) : MoveOp → Width
  | registerByte | immediateByte | loadByte | zeroExtendByte | signExtendByte => .byte
  | zeroExtendWord | signExtendWord => .word
  | register | immediate | load => operand

def asLoad (operand : Width) : MoveOp → Option Load
  | registerByte | register | immediateByte | immediate => none
  | loadByte => some (.mov .byte)
  | load => some (.mov operand)
  | zeroExtendByte => some (.movzx .byte operand)
  | zeroExtendWord => some (.movzx .word operand)
  | signExtendByte => some (.movsx .byte operand)
  | signExtendWord => some (.movsx .word operand)

end MoveOp

/-- A move, with what can be encoded of one. There need not be a displacement, and of the fields of
an index there need not be any. -/
structure Move where
  prefixes : List (BitVec 8)
  rex : Option (BitVec 4)
  op : MoveOp
  mod : BitVec 2
  reg : BitVec 3
  rm : BitVec 3
  scale : BitVec 2
  index : BitVec 3
  base : BitVec 3
  displacement : BitVec 32
  immediate : BitVec 32

namespace Move

variable (i : Move)

def rexB : ℕ := 0

def rexX : ℕ := 1

def rexR : ℕ := 2

def rexW : ℕ := 3

def rexBit (k : ℕ) : Bool := (i.rex.getD 0).getLsbD k

/-- The size of the operand. -/
def operand : Width :=
  if i.rexBit rexW then .qword else if 0x66 ∈ i.prefixes then .word else .dword

def width : Width := i.op.width i.operand

/-- The number of a register has its highest bit in the REX byte. -/
def number (field : BitVec 3) (k : ℕ) : ℕ := field.toNat + if i.rexBit k then 8 else 0

def HasIndex : Prop := i.rm.toNat = 4

instance decidableHasIndex : Decidable i.HasIndex := Nat.decEq _ _

def displacementSize : ℕ :=
  if i.mod.toNat = 1 then
    1
  else if i.mod.toNat = 2 ∨ (i.mod.toNat = 0 ∧ (i.rm.toNat = 5 ∨
      (i.HasIndex ∧ i.base.toNat = 5))) then
    4
  else
    0

/-- An immediate has four bytes at most. -/
def immediateSize : ℕ :=
  match i.op with
  | .immediateByte => 1
  | .immediate => if i.operand = .word then 2 else 4
  | _ => 0

def encode : List (BitVec 8) :=
  i.prefixes ++ ((i.rex.map ((0x4 : BitVec 4) ++ ·)).toList ++ (i.op.opcode ++
    (i.mod ++ i.reg ++ i.rm) :: ((if i.HasIndex then [i.scale ++ i.index ++ i.base] else []) ++
      (bytes i.displacement i.displacementSize ++ bytes i.immediate i.immediateSize))))

/-- The prefixes that a move can have. It cannot be locked. -/
def movePrefixes : List (BitVec 8) :=
  [0x26, 0x2E, 0x36, 0x3E, 0x64, 0x65, 0x66, 0x67, 0xF2, 0xF3]

structure Encodable (i : Move) : Prop where
  subset : i.prefixes ⊆ movePrefixes
  memory : i.mod.toNat ≠ 3
  group : i.op = .immediateByte ∨ i.op = .immediate → i.reg = 0
  length : i.encode.length ≤ 15

/-- The base that a register holds, and what an index adds to it. -/
def indexed (m : Machine) : BitVec 64 :=
  (if i.mod.toNat = 0 ∧ i.base.toNat = 5 then 0 else m.gpr (i.number i.base rexB)) +
    if i.number i.index rexX = 4 then 0
    else m.gpr (i.number i.index rexX) * BitVec.ofNat 64 (2 ^ i.scale.toNat)

def origin (m : Machine) : BitVec 64 :=
  if i.HasIndex then
    i.indexed m
  else if i.mod.toNat = 0 ∧ i.rm.toNat = 5 then
    m.rip + BitVec.ofNat 64 i.encode.length
  else
    m.gpr (i.number i.rm rexB)

/-- What is displaced. Half of it is left where the size of the address is overridden. -/
def effective (m : Machine) : BitVec 64 :=
  let sum := i.origin m + (i.displacement.setWidth (8 * i.displacementSize)).signExtend 64
  if 0x67 ∈ i.prefixes then (sum.setWidth 32).setWidth 64 else sum

end Move

/-- Only two segments have a base, whatever else is overridden. -/
def Machine.segment (m : Machine) (b : BitVec 8) : Option (BitVec 64) :=
  if b = 0x64 then some m.fsBase else if b = 0x65 then some m.gsBase else none

namespace Move

variable (i : Move)

/-- The last override counts. -/
def segmentBase (m : Machine) : BitVec 64 := ((i.prefixes.filterMap m.segment).getLast?).getD 0

def address (m : Machine) : BitVec 64 := i.effective m + i.segmentBase m

/-- Without a REX byte, the last four of the registers of a byte are the second bytes of the first
four. -/
def HighByte : Prop := i.op = .registerByte ∧ i.rex = none ∧ 4 ≤ i.reg.toNat

instance decidableHighByte : Decidable i.HighByte := inferInstanceAs (Decidable (_ ∧ _))

/-- What is stored, as wide as can be. The sign of an immediate is extended. -/
def source (m : Machine) : BitVec 64 :=
  match i.op with
  | .immediateByte | .immediate => (i.immediate.setWidth (8 * i.immediateSize)).signExtend 64
  | _ => if i.HighByte then m.gpr (i.reg.toNat - 4) >>> 8 else m.gpr (i.number i.reg rexR)

/-- A load stores nothing. -/
def stored (m : Machine) : Option (List (BitVec 8)) :=
  if i.op.isStore then some (bytes (i.source m) i.width.size) else none

def execute (m : Machine) (mem : Memory) : Memory :=
  ((i.stored m).map (store mem (i.address m).toNat)).getD mem

section Width

variable {i : Move}

theorem width_eq_byte (h : i.op = .registerByte ∨ i.op = .immediateByte) : i.width = .byte := by
  rcases h with h | h
  · rw [width, h, MoveOp.width]
  · rw [width, h, MoveOp.width]

theorem operand_ne_byte (i : Move) : i.operand ≠ .byte := by
  unfold operand
  split_ifs
  · decide
  · decide
  · decide

/-- An immediate is as wide as the operand, unless this has eight bytes. -/
theorem immediateSize_eq
    (h : i.op = .immediateByte ∨ (i.op = .immediate ∧ i.operand ≠ .qword)) :
    i.immediateSize = i.width.size ∧ i.immediateSize ≤ 4 := by
  rcases h with h | ⟨h, hne⟩
  · rw [immediateSize, width, h]
    exact ⟨rfl, Nat.le_add_left 1 3⟩
  · rw [immediateSize, width, h, MoveOp.width]
    cases hwidth : i.operand with
    | byte => exact absurd hwidth (operand_ne_byte i)
    | word | dword => decide
    | qword => exact absurd hwidth hne

end Width

end Move

end Library.X64
