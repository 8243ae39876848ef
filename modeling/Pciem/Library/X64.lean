import Mathlib.Tactic.SplitIfs
import Pciem.Library.BitField

namespace Library.X64

open ByteMemory BitField

/-- The number of bytes of an operand. -/
inductive Width
  | byte
  | word
  | dword
  | qword
deriving DecidableEq

def Width.size : Width → ℕ
  | byte => 1
  | word => 2
  | dword => 4
  | qword => 8

/-- A register of 64 bits after a write to as much of it as the operand has: what is left of it
stays, except that the upper half is cleared by a write to the lower one. -/
def writeRegister (old : BitVec 64) (value : BitVec 64) : Width → BitVec 64
  | .byte => old.extractLsb' 8 56 ++ value.extractLsb' 0 8
  | .word => old.extractLsb' 16 48 ++ value.extractLsb' 0 16
  | .dword => (0 : BitVec 32) ++ value.extractLsb' 0 32
  | .qword => value

/-- The loads to a register, and to one that is wider than what is loaded. -/
inductive Load
  | mov (width : Width)
  | movzx (memory register : Width)
  | movsx (memory register : Width)
deriving DecidableEq

namespace Load

def memory : Load → Width
  | mov width => width
  | movzx memory _ | movsx memory _ => memory

/-- Bytes and words are extended, to words or wider operands. -/
def Encodable : Load → Prop
  | mov _ => True
  | movzx memory register | movsx memory register =>
    (memory = .byte ∨ memory = .word) ∧ register ≠ .byte

def register : Load → Width
  | mov width => width
  | movzx _ register | movsx _ register => register

/-- What is loaded, as wide as can be. -/
def extend : (i : Load) → BitVec (8 * i.memory.size) → BitVec 64
  | mov _, value | movzx _ _, value => value.setWidth 64
  | movsx _ _, value => value.signExtend 64

def execute (i : Load) (mem : Memory) (addr : ℕ) (old : BitVec 64) : BitVec 64 :=
  writeRegister old (i.extend (load mem addr i.memory.size)) i.register

end Load

section Bytes

variable {v : ℕ}

theorem eq_of_byte_eq {x y : BitVec 64} (h : ∀ k < 8, byte x k = byte y k) : x = y := by
  apply BitVec.eq_of_getLsbD_eq
  intro i hi
  have hk := congrArg (fun b : BitVec 8 ↦ b.getLsbD (i % 8)) (h (i / 8) (by omega))
  simpa [byte, BitVec.getLsbD_extractLsb', Nat.mod_lt, Nat.div_add_mod] using hk

theorem byte_setWidth_of_ge (x : BitVec v) {k : ℕ} (h : v ≤ 8 * k) :
    byte (x.setWidth 64) k = 0 := by
  apply BitVec.eq_of_getLsbD_eq
  intro i hi
  simp only [byte, BitVec.getLsbD_extractLsb', BitVec.getLsbD_setWidth,
    BitVec.getLsbD_of_ge x (8 * k + i) (by omega)]
  simp

theorem byte_signExtend {w : ℕ} (x : BitVec v) {k : ℕ} (h : 8 * k + 8 ≤ v) (hv : v ≤ w) :
    byte (x.signExtend w) k = byte x k := by
  apply BitVec.eq_of_getLsbD_eq
  intro i hi
  simp only [byte, BitVec.getLsbD_extractLsb', BitVec.getLsbD_signExtend, hi,
    show 8 * k + i < w by omega, show 8 * k + i < v by omega]
  simp

theorem byte_signExtend_of_ge (x : BitVec v) {k : ℕ} (h : v ≤ 8 * k) (hk : k < 8) :
    byte (x.signExtend 64) k = if x.msb then 0xFF else 0 := by
  apply BitVec.eq_of_getLsbD_eq
  intro i hi
  simp only [byte, BitVec.getLsbD_extractLsb', BitVec.getLsbD_signExtend, hi,
    show 8 * k + i < 64 by omega, show ¬ 8 * k + i < v by omega]
  cases x.msb with
  | true =>
    have hbits : ∀ i < 8, (0xFF : BitVec 8).getLsbD i = true := by decide
    simp only [if_true, hbits i hi]
    simp
  | false => simp

theorem upper_eq_zero_iff (x : BitVec 64) :
    x.extractLsb' 32 32 = 0 ↔ ∀ k < 8, 4 ≤ k → byte x k = 0 := by
  constructor
  · intro h k hk hle
    have hfield : byte x k = (x.extractLsb' 32 32).extractLsb' (8 * k - 32) 8 := by
      rw [extractLsb'_extractLsb' x 32 (by omega), show 32 + (8 * k - 32) = 8 * k by omega, byte]
    rw [hfield, h]
    simp
  · intro h
    apply BitVec.eq_of_getLsbD_eq
    intro i hi
    have hk := congrArg (fun b : BitVec 8 ↦ b.getLsbD (i % 8)) (h (4 + i / 8) (by omega) (by omega))
    have hbit : 8 * (4 + i / 8) + i % 8 = 32 + i := by omega
    simpa [byte, BitVec.getLsbD_extractLsb', Nat.mod_lt, hbit, hi] using hk

theorem byte_writeRegister (old value : BitVec 64) (width : Width) {k : ℕ} (hk : k < 8) :
    byte (writeRegister old value width) k =
      if k < width.size then byte value k else if width = .dword then 0 else byte old k := by
  have hlow (n : ℕ) (high : BitVec (64 - n)) (h : 8 * k + 8 ≤ n) :
      (high ++ value.extractLsb' 0 n).extractLsb' (8 * k) 8 = byte value k := by
    rw [extractLsb'_append_low _ _ h, extractLsb'_extractLsb' _ _ h, Nat.zero_add, byte]
  have hhigh (m n : ℕ) (low : BitVec n) (h : n ≤ 8 * k) (hm : 8 * k - n + 8 ≤ m) :
      (old.extractLsb' n m ++ low).extractLsb' (8 * k) 8 = byte old k := by
    rw [extractLsb'_append_high _ _ h, extractLsb'_extractLsb' _ _ hm, Nat.add_sub_cancel' h, byte]
  cases width with
  | byte =>
    simp only [Width.size, writeRegister, reduceCtorEq, if_false]
    split_ifs with h
    · exact hlow 8 _ (by omega)
    · exact hhigh 56 8 _ (by omega) (by omega)
  | word =>
    simp only [Width.size, writeRegister, reduceCtorEq, if_false]
    split_ifs with h
    · exact hlow 16 _ (by omega)
    · exact hhigh 48 16 _ (by omega) (by omega)
  | dword =>
    simp only [Width.size, writeRegister, if_true]
    split_ifs with h
    · exact hlow 32 0 (by omega)
    · rw [byte, extractLsb'_append_high _ _ (by omega)]
      simp
  | qword => simp [Width.size, writeRegister, hk]

end Bytes

end Library.X64
