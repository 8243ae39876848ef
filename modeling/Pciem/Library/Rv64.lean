import Mathlib.Logic.Function.Basic
import Mathlib.Tactic.SplitIfs
import Pciem.Library.ByteMemory
import Pciem.Library.Emulation

namespace Library.Rv64

open ByteMemory

inductive LoadOp
  | lb | lh | lw | ld | lbu | lhu | lwu
deriving DecidableEq

inductive StoreOp
  | sb | sh | sw | sd
deriving DecidableEq

/-- The loads and stores of RV64I. -/
inductive Instruction
  | load (op : LoadOp) (rd rs1 : BitVec 5) (imm : BitVec 12)
  | store (op : StoreOp) (rs1 rs2 : BitVec 5) (imm : BitVec 12)

def LoadOp.funct3 : LoadOp → BitVec 3
  | .lb => 0
  | .lh => 1
  | .lw => 2
  | .ld => 3
  | .lbu => 4
  | .lhu => 5
  | .lwu => 6

/-- The number of bytes. -/
def LoadOp.width : LoadOp → ℕ
  | .lb | .lbu => 1
  | .lh | .lhu => 2
  | .lw | .lwu => 4
  | .ld => 8

def LoadOp.signed : LoadOp → Bool
  | .lb | .lh | .lw | .ld => true
  | .lbu | .lhu | .lwu => false

def StoreOp.funct3 : StoreOp → BitVec 3
  | .sb => 0
  | .sh => 1
  | .sw => 2
  | .sd => 3

def StoreOp.width : StoreOp → ℕ
  | .sb => 1
  | .sh => 2
  | .sw => 4
  | .sd => 8

namespace Instruction

def encode : Instruction → BitVec 32
  | load op rd rs1 imm => imm ++ rs1 ++ op.funct3 ++ rd ++ (0x03 : BitVec 7)
  | store op rs1 rs2 imm =>
    imm.extractLsb' 5 7 ++ rs2 ++ rs1 ++ op.funct3 ++ imm.extractLsb' 0 5 ++ (0x23 : BitVec 7)

def width : Instruction → ℕ
  | load op _ _ _ => op.width
  | store op _ _ _ => op.width

end Instruction

/-- `x` has the registers from `x1` on. -/
structure State where
  x : BitVec 5 → BitVec 64
  mem : Memory
  pc : BitVec 64

/-- Register 0 has the value 0. -/
def State.get (s : State) (r : BitVec 5) : BitVec 64 := if r = 0 then 0 else s.x r

def State.set (s : State) (r : BitVec 5) (value : BitVec 64) : State :=
  if r = 0 then s else { s with x := Function.update s.x r value }

def extend {w : ℕ} (signed : Bool) (value : BitVec w) : BitVec 64 :=
  if signed then value.signExtend 64 else value.setWidth 64

namespace Instruction

def address (s : State) : Instruction → BitVec 64
  | load _ _ rs1 imm => s.get rs1 + imm.signExtend 64
  | store _ rs1 _ imm => s.get rs1 + imm.signExtend 64

def execute (i : Instruction) (s : State) : State :=
  let s' := { s with pc := s.pc + 4 }
  match i with
  | load op rd _ _ =>
    s'.set rd (extend op.signed
      (ByteMemory.load s.mem (i.address s).toNat op.width : BitVec (8 * op.width)))
  | store op _ rs2 _ =>
    { s' with mem := ByteMemory.store s.mem (i.address s).toNat (bytes (s.get rs2) op.width) }

end Instruction

/-- The loads and stores of RV64C. An offset is in words or in doublewords, and a register of three
bits is one of `x8` to `x15`. -/
inductive Compressed
  | lw (rd rs1 : BitVec 3) (offset : BitVec 5)
  | ld (rd rs1 : BitVec 3) (offset : BitVec 5)
  | sw (rs1 rs2 : BitVec 3) (offset : BitVec 5)
  | sd (rs1 rs2 : BitVec 3) (offset : BitVec 5)
  | lwsp (rd : BitVec 5) (hrd : rd ≠ 0) (offset : BitVec 6)
  | ldsp (rd : BitVec 5) (hrd : rd ≠ 0) (offset : BitVec 6)
  | swsp (rs2 : BitVec 5) (offset : BitVec 6)
  | sdsp (rs2 : BitVec 5) (offset : BitVec 6)

namespace Compressed

def encode : Compressed → BitVec 16
  | lw rd rs1 offset =>
    (0b010 : BitVec 3) ++ offset.extractLsb' 1 3 ++ rs1 ++ offset.extractLsb' 0 1 ++
      offset.extractLsb' 4 1 ++ rd ++ (0b00 : BitVec 2)
  | ld rd rs1 offset =>
    (0b011 : BitVec 3) ++ offset.extractLsb' 0 3 ++ rs1 ++ offset.extractLsb' 3 2 ++ rd ++
      (0b00 : BitVec 2)
  | sw rs1 rs2 offset =>
    (0b110 : BitVec 3) ++ offset.extractLsb' 1 3 ++ rs1 ++ offset.extractLsb' 0 1 ++
      offset.extractLsb' 4 1 ++ rs2 ++ (0b00 : BitVec 2)
  | sd rs1 rs2 offset =>
    (0b111 : BitVec 3) ++ offset.extractLsb' 0 3 ++ rs1 ++ offset.extractLsb' 3 2 ++ rs2 ++
      (0b00 : BitVec 2)
  | lwsp rd _ offset =>
    (0b010 : BitVec 3) ++ offset.extractLsb' 3 1 ++ rd ++ offset.extractLsb' 0 3 ++
      offset.extractLsb' 4 2 ++ (0b10 : BitVec 2)
  | ldsp rd _ offset =>
    (0b011 : BitVec 3) ++ offset.extractLsb' 2 1 ++ rd ++ offset.extractLsb' 0 2 ++
      offset.extractLsb' 3 3 ++ (0b10 : BitVec 2)
  | swsp rs2 offset =>
    (0b110 : BitVec 3) ++ offset.extractLsb' 0 4 ++ offset.extractLsb' 4 2 ++ rs2 ++
      (0b10 : BitVec 2)
  | sdsp rs2 offset =>
    (0b111 : BitVec 3) ++ offset.extractLsb' 0 3 ++ offset.extractLsb' 3 3 ++ rs2 ++
      (0b10 : BitVec 2)

/-- The register of three bits. -/
def register (r : BitVec 3) : BitVec 5 := (0b01 : BitVec 2) ++ r

/-- The offset of a word or of a doubleword, in bytes. -/
def words (offset : BitVec 6) : BitVec 12 := (0 : BitVec 4) ++ offset ++ (0 : BitVec 2)

def doublewords (offset : BitVec 6) : BitVec 12 := (0 : BitVec 3) ++ offset ++ (0 : BitVec 3)

/-- The instruction of RV64I that a compressed one stands for. -/
def expand : Compressed → Instruction
  | lw rd rs1 offset => .load .lw (register rd) (register rs1) (words (offset.setWidth 6))
  | ld rd rs1 offset => .load .ld (register rd) (register rs1) (doublewords (offset.setWidth 6))
  | sw rs1 rs2 offset => .store .sw (register rs1) (register rs2) (words (offset.setWidth 6))
  | sd rs1 rs2 offset => .store .sd (register rs1) (register rs2) (doublewords (offset.setWidth 6))
  | lwsp rd _ offset => .load .lw rd 2 (words offset)
  | ldsp rd _ offset => .load .ld rd 2 (doublewords offset)
  | swsp rs2 offset => .store .sw 2 rs2 (words offset)
  | sdsp rs2 offset => .store .sd 2 rs2 (doublewords offset)

end Compressed

section Hart

/-- The registers and the program counter. -/
@[ext]
structure Hart where
  x : BitVec 5 → BitVec 64
  pc : BitVec 64

def State.hart (s : State) : Hart := ⟨s.x, s.pc⟩

def Hart.over (h : Hart) (mem : Memory) : State := ⟨h.x, mem, h.pc⟩

def Instruction.addressOf (i : Instruction) (h : Hart) : BitVec 64 :=
  i.address (h.over fun _ ↦ 0)

/-- The instructions on a hart that is handed what is in memory. -/
def isa : Emulation.Isa Hart Instruction where
  address i h := (i.addressOf h).toNat
  width := Instruction.width
  stored i h :=
    match i with
    | .load _ _ _ _ => none
    | .store op _ rs2 _ => some (bytes ((h.over fun _ ↦ 0).get rs2) op.width)
  retire i h bs :=
    (i.execute (h.over (ByteMemory.store (fun _ ↦ 0) (i.addressOf h).toNat bs))).hart

theorem set_over (h : Hart) (mem mem' : Memory) (r : BitVec 5) (value : BitVec 64) :
    (h.over mem).set r value = ((h.over mem').set r value).hart.over mem := by
  unfold State.set
  split_ifs
  · rfl
  · rfl

theorem load_peek {w : ℕ} (mem : Memory) (p n : ℕ) :
    load (ByteMemory.store (fun _ ↦ 0) p (Emulation.peek mem p n)) p n =
      (load mem p n : BitVec w) := by
  refine load_congr fun k hk ↦ ?_
  rw [store_inside (by simpa [Emulation.peek] using hk)]
  simp [Emulation.peek]

/-- An instruction is carried out as it is on a hart that is handed what is at its address. -/
theorem execute_eq (i : Instruction) (s : State) : i.execute s =
    (isa.retire i s.hart (isa.moved i s.hart s.mem (i.address s).toNat)).over
      (isa.write true i s.hart s.mem (i.address s).toNat) := by
  cases i with
  | load op rd rs1 imm =>
    have hload := load_peek (w := 8 * op.width) s.mem
      ((Instruction.load op rd rs1 imm).address s).toNat op.width
    simp only [isa, Emulation.Isa.moved, Emulation.Isa.write, Option.getD_none]
    change State.set { s with pc := s.pc + 4 } rd _ = _
    rw [← hload]
    exact set_over ⟨s.x, s.pc + 4⟩ s.mem _ rd _
  | store op rs1 rs2 imm => rfl

end Hart

section Coded

/-- An instruction as it stands in memory, in 4 bytes or in 2. -/
inductive Coded
  | full (i : Instruction)
  | short (c : Compressed)

namespace Coded

/-- The instruction of RV64I that is carried out. -/
def base : Coded → Instruction
  | full i => i
  | short c => c.expand

def length : Coded → BitVec 64
  | full _ => 4
  | short _ => 2

def addressOf (i : Coded) (h : Hart) : BitVec 64 := i.base.addressOf h

def width (i : Coded) : ℕ := i.base.width

def execute (i : Coded) (s : State) : State :=
  { i.base.execute s with pc := s.pc + i.length }

/-- The instructions on a hart that is handed what is in memory. -/
def isa : Emulation.Isa Hart Coded where
  address i h := (i.addressOf h).toNat
  width := width
  stored i h := Rv64.isa.stored i.base h
  retire i h bs := { Rv64.isa.retire i.base h bs with pc := h.pc + i.length }

theorem execute_eq (i : Coded) (s : State) : i.execute s =
    (isa.retire i s.hart (isa.moved i s.hart s.mem (i.base.address s).toNat)).over
      (isa.write true i s.hart s.mem (i.base.address s).toNat) := by
  rw [execute, Rv64.execute_eq]
  rfl

end Coded

end Coded

end Library.Rv64
