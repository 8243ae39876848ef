import Mathlib.Data.Nat.Notation

namespace Library.MaskedRegister

/-- A register of which only some bits can be written, and some always read as 1. -/
structure Register (w : ℕ) where
  writable : BitVec w
  fixed : BitVec w

variable {w : ℕ} (r : Register w) {b x : BitVec w}

/-- The value that is read when `b` is stored. -/
def Register.read (b : BitVec w) : BitVec w := b ||| r.fixed

/-- What is stored when `x` is written. -/
def Register.write (x : BitVec w) : BitVec w := x &&& r.writable

theorem Register.write_allOnes : r.write (BitVec.allOnes w) = r.writable :=
  BitVec.allOnes_and

/-- Writing back the value that is read is writing what is stored. -/
theorem Register.read_write_read (b : BitVec w) :
    r.read (r.write (r.read b)) = r.read (r.write b) := by
  apply BitVec.eq_of_getLsbD_eq
  intro i _
  simp only [read, write, BitVec.getLsbD_or, BitVec.getLsbD_and]
  cases b.getLsbD i <;> cases r.fixed.getLsbD i <;> simp

end Library.MaskedRegister
