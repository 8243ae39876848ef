import Mathlib.Logic.Function.Basic
import Pciem.Library.ByteMemory

namespace Library.A64

open ByteMemory

/-- The loads and stores of the general-purpose registers. A name that ends in `W` is that of the
form for a register of 32 bits, where there are two. -/
inductive Op
  | strb | ldrb | ldrsb | ldrsbW
  | strh | ldrh | ldrsh | ldrshW
  | strW | ldrW | ldrsw
  | str | ldr
deriving DecidableEq

namespace Op

def all : List Op :=
  [strb, ldrb, ldrsb, ldrsbW, strh, ldrh, ldrsh, ldrshW, strW, ldrW, ldrsw, str, ldr]

def size : Op → BitVec 2
  | strb | ldrb | ldrsb | ldrsbW => 0
  | strh | ldrh | ldrsh | ldrshW => 1
  | strW | ldrW | ldrsw => 2
  | str | ldr => 3

def opc : Op → BitVec 2
  | strb | strh | strW | str => 0
  | ldrb | ldrh | ldrW | ldr => 1
  | ldrsb | ldrsh | ldrsw => 2
  | ldrsbW | ldrshW => 3

/-- The number of bytes. -/
def width : Op → ℕ
  | strb | ldrb | ldrsb | ldrsbW => 1
  | strh | ldrh | ldrsh | ldrshW => 2
  | strW | ldrW | ldrsw => 4
  | str | ldr => 8

def isStore : Op → Bool
  | strb | strh | strW | str => true
  | _ => false

def signed : Op → Bool
  | ldrsb | ldrsbW | ldrsh | ldrshW | ldrsw => true
  | _ => false

/-- The register has 64 bits. -/
def wide : Op → Bool
  | ldrsb | ldrsh | ldrsw | str | ldr => true
  | _ => false

/-- What a load leaves in its register. -/
def extend {w : ℕ} (op : Op) (value : BitVec w) : BitVec 64 :=
  match op.wide, op.signed with
  | true, true => value.signExtend 64
  | true, false => value.setWidth 64
  | false, true => (value.signExtend 32).setWidth 64
  | false, false => (value.setWidth 32).setWidth 64

end Op

/-- Where the address comes from, apart from the base register. -/
inductive Mode
  | unsigned (imm : BitVec 12)
  | unscaled (imm : BitVec 9)
  | post (imm : BitVec 9)
  | pre (imm : BitVec 9)

/-- What is added to the base register for good. -/
def Mode.writeBack : Mode → Option (BitVec 64)
  | unsigned _ | unscaled _ => none
  | post imm | pre imm => some (imm.signExtend 64)

structure Instruction where
  op : Op
  mode : Mode
  rn : BitVec 5
  rt : BitVec 5

/-- `x` has the registers up to `x30`. -/
structure State where
  x : BitVec 5 → BitVec 64
  sp : BitVec 64
  mem : Memory
  pc : BitVec 64

namespace State

variable (s : State) (r : BitVec 5) (value : BitVec 64)

/-- Register 31 has the value 0. -/
def get : BitVec 64 := if r = 31 then 0 else s.x r

def set : State := if r = 31 then s else { s with x := Function.update s.x r value }

/-- Register 31 is the stack pointer where an address is made of it. -/
def base : BitVec 64 := if r = 31 then s.sp else s.x r

def setBase : State :=
  if r = 31 then { s with sp := value } else { s with x := Function.update s.x r value }

end State

namespace Instruction

def encode (i : Instruction) : BitVec 32 :=
  match i.mode with
  | .unsigned imm => i.op.size ++ (0b111001 : BitVec 6) ++ i.op.opc ++ imm ++ i.rn ++ i.rt
  | .unscaled imm => i.op.size ++ (0b111000 : BitVec 6) ++ i.op.opc ++ (0b0 : BitVec 1) ++ imm ++
      (0b00 : BitVec 2) ++ i.rn ++ i.rt
  | .post imm => i.op.size ++ (0b111000 : BitVec 6) ++ i.op.opc ++ (0b0 : BitVec 1) ++ imm ++
      (0b01 : BitVec 2) ++ i.rn ++ i.rt
  | .pre imm => i.op.size ++ (0b111000 : BitVec 6) ++ i.op.opc ++ (0b0 : BitVec 1) ++ imm ++
      (0b11 : BitVec 2) ++ i.rn ++ i.rt

def offset (i : Instruction) : BitVec 64 :=
  match i.mode with
  | .unsigned imm => imm.setWidth 64 <<< i.op.size.toNat
  | .unscaled imm | .pre imm => imm.signExtend 64
  | .post _ => 0

def address (i : Instruction) (s : State) : BitVec 64 := s.base i.rn + i.offset

/-- The load or the store alone. -/
def transfer (i : Instruction) (addr : ℕ) (s : State) : State :=
  if i.op.isStore then
    { s with mem := store s.mem addr (bytes (s.get i.rt) i.op.width) }
  else
    s.set i.rt (i.op.extend (load s.mem addr i.op.width : BitVec (8 * i.op.width)))

def execute (i : Instruction) (s : State) : State :=
  let s' := i.transfer (i.address s).toNat s
  let s' := i.mode.writeBack.elim s' fun imm ↦ s'.setBase i.rn (s.base i.rn + imm)
  { s' with pc := s.pc + 4 }

/-- The syndrome of an abort describes the instruction. -/
structure Syndrome (esr : BitVec 64) (i : Instruction) : Prop where
  isv : esr.extractLsb' 24 1 = 1
  sas : esr.extractLsb' 22 2 = i.op.size
  sse : esr.extractLsb' 21 1 = BitVec.ofBool i.op.signed
  srt : esr.extractLsb' 16 5 = i.rt
  sf : esr.extractLsb' 15 1 = BitVec.ofBool i.op.wide
  wnr : esr.extractLsb' 6 1 = BitVec.ofBool i.op.isStore

end Instruction

end Library.A64
