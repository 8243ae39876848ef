import Mathlib.Algebra.Order.Ring.Nat

/-! The translation of virtual addresses that the privileged architecture of RISC-V has. -/

namespace Library.Sv

inductive Scheme
  | sv39
  | sv48
  | sv57
deriving DecidableEq

/-- The field of the register `satp` that selects a scheme. -/
def Scheme.mode : Scheme → BitVec 4
  | .sv39 => 8
  | .sv48 => 9
  | .sv57 => 10

/-- The level of the entries of the root table. -/
def Scheme.top : Scheme → ℕ
  | .sv39 => 2
  | .sv48 => 3
  | .sv57 => 4

def mode (satp : BitVec 64) : BitVec 4 := satp.extractLsb' 60 4

def root (satp : BitVec 64) : BitVec 44 := satp.extractLsb' 0 44

def vpn (va : BitVec 64) (i : ℕ) : BitVec 9 := va.extractLsb' (12 + 9 * i) 9

def ppn (pte : BitVec 64) : BitVec 44 := pte.extractLsb' 10 44

/-- Entries that may be written and not read are reserved. -/
def Reserved (pte : BitVec 64) : Prop := pte.getLsbD 1 = false ∧ pte.getLsbD 2 = true

def Invalid (pte : BitVec 64) : Prop := pte.getLsbD 0 = false ∨ Reserved pte

def Leaf (pte : BitVec 64) : Prop :=
  ¬ Invalid pte ∧ (pte.getLsbD 1 = true ∨ pte.getLsbD 3 = true)

instance instDecidableReserved (pte : BitVec 64) : Decidable (Reserved pte) :=
  inferInstanceAs (Decidable (_ ∧ _))

instance instDecidableInvalid (pte : BitVec 64) : Decidable (Invalid pte) :=
  inferInstanceAs (Decidable (_ ∨ _))

instance instDecidableLeaf (pte : BitVec 64) : Decidable (Leaf pte) :=
  inferInstanceAs (Decidable (_ ∧ _))

/-- An entry has eight bytes. -/
def entryAddr (table : BitVec 44) (va : BitVec 64) (i : ℕ) : BitVec 56 :=
  table ++ vpn va i ++ 0#3

/-- How much an entry of a level maps. -/
def span (i : ℕ) : ℕ := 2 ^ (12 + 9 * i)

/-- The entries that a walk for an address reads, with their levels: it goes on where an entry is
valid and no leaf. The upper bits of the address are checked before it, and the bits of an entry
that extensions have are not looked at. -/
def visits (mem : BitVec 56 → BitVec 64) (va : BitVec 64) : ℕ → BitVec 44 → List (ℕ × BitVec 56)
  | 0, table => [(0, entryAddr table va 0)]
  | i + 1, table =>
    let entry := entryAddr table va (i + 1)
    if Invalid (mem entry) ∨ Leaf (mem entry) then [(i + 1, entry)]
    else (i + 1, entry) :: visits mem va i (ppn (mem entry))

section Visits

variable {mem : BitVec 56 → BitVec 64} {va : BitVec 64} {i : ℕ} {table : BitVec 44}

theorem visits_stop (h : Invalid (mem (entryAddr table va (i + 1))) ∨
    Leaf (mem (entryAddr table va (i + 1)))) :
    visits mem va (i + 1) table = [(i + 1, entryAddr table va (i + 1))] :=
  if_pos h

theorem visits_descend (h : ¬ Invalid (mem (entryAddr table va (i + 1))))
    (h' : ¬ Leaf (mem (entryAddr table va (i + 1)))) :
    visits mem va (i + 1) table = (i + 1, entryAddr table va (i + 1)) ::
      visits mem va i (ppn (mem (entryAddr table va (i + 1)))) :=
  if_neg (not_or.mpr ⟨h, h'⟩)

theorem visits_ne_nil : visits mem va i table ≠ [] := by
  cases i with
  | zero => exact List.cons_ne_nil _ _
  | succ i =>
    rw [visits]
    split
    · exact List.cons_ne_nil _ _
    · exact List.cons_ne_nil _ _

end Visits

end Library.Sv
