import Mathlib.Algebra.Order.Ring.Nat

namespace Library.Intervals

/-- The points from `lo` on, up to and without `hi`. -/
structure Extent (α : Type*) where
  lo : α
  hi : α

variable {α ι : Type*} [LinearOrder α]

namespace Extent

def Has (I : Extent α) (x : α) : Prop := I.lo ≤ x ∧ x < I.hi

/-- The interval has all that lies from `x` to `y`. -/
def Holds (I : Extent α) (x y : α) : Prop := I.lo ≤ x ∧ y ≤ I.hi

variable {I J : Extent α} {x y : α}

theorem Holds.has (h : I.Holds x y) (hlt : x < y) : I.Has x := ⟨h.1, lt_of_lt_of_le hlt h.2⟩

theorem Has.holds_iff (h : I.Has x) : I.Holds x y ↔ y ≤ I.hi := and_iff_right h.1

end Extent

/-- Intervals that have a point in common end at the same one. -/
def Coterminal (I J : Extent α) : Prop := ∀ x, I.Has x → J.Has x → I.hi = J.hi

variable {I J : Extent α} {x y : α}

theorem Coterminal.symm (h : Coterminal I J) : Coterminal J I := fun x hJ hI ↦ (h x hI hJ).symm

theorem coterminal_self (I : Extent α) : Coterminal I I := fun _ _ _ ↦ rfl

/-- What one of two such intervals holds is held by the other, if that has its first point. -/
theorem Coterminal.holds (h : Coterminal I J) (hI : I.Holds x y) (hlt : x < y) (hJ : J.Has x) :
    J.Holds x y := by
  have hhi := h x (hI.has hlt) hJ
  exact ⟨hJ.1, hhi ▸ hI.2⟩

/-- Of two intervals that meet, the one that ends first has a last point, from which the other
holds one more. -/
theorem exists_beyond {I J : Extent ℕ} {x : ℕ} (hI : I.Has x) (hJ : J.Has x) (hlt : I.hi < J.hi) :
    ∃ y, I.Has y ∧ J.Holds y (y + 2) ∧ y + 1 = I.hi := by
  obtain ⟨hlo, hhi⟩ := hI
  refine ⟨I.hi - 1, ⟨?_, ?_⟩, ⟨?_, ?_⟩, ?_⟩
  · omega
  · omega
  · have hlow := hJ.1
    omega
  · omega
  · omega

end Library.Intervals
