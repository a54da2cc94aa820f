import Mathlib.Algebra.Order.Group.MinMax

/-!
# Steps that stop at a bound

A value is lowered by a step and stops at a floor, or it is raised by a step and stops at a cap.  What
is beyond the bound already stays where it is.

* `lowerTo_le`, `floor_le_lowerTo`, `lowerTo_mono` — down, not below the floor, and in order.
* `raiseTo_eq` — raising is lowering with the signs changed; with it the same of `raiseTo`.
-/

namespace Spectral.Lib

variable {α : Type*} [AddCommGroup α] [LinearOrder α] [IsOrderedAddMonoid α] {bound step x y : α}

/-- Lowered by a step, not below a floor. -/
def lowerTo (floor step x : α) : α := if floor < x then max floor (x - step) else x

/-- Raised by a step, not above a cap. -/
def raiseTo (cap step x : α) : α := if x < cap then min cap (x + step) else x

theorem lowerTo_le (hstep : 0 ≤ step) : lowerTo bound step x ≤ x := by
  unfold lowerTo
  split
  · rename_i h
    exact max_le h.le (sub_le_self x hstep)
  · exact le_rfl

omit [IsOrderedAddMonoid α] in
/-- What is lowered is not lowered below the floor. -/
theorem floor_le_lowerTo (h : lowerTo bound step x < x) : bound ≤ lowerTo bound step x := by
  unfold lowerTo at h ⊢
  split at h
  · rename_i hfloor
    rw [if_pos hfloor]
    exact le_max_left bound (x - step)
  · exact absurd h (lt_irrefl x)

/-- The order of two values is kept. -/
theorem lowerTo_mono (h : x ≤ y) : lowerTo bound step x ≤ lowerTo bound step y := by
  unfold lowerTo
  split
  · rename_i hx
    rw [if_pos (hx.trans_le h)]
    exact max_le_max le_rfl (sub_le_sub_right h step)
  · rename_i hx
    split
    · exact (not_lt.1 hx).trans (le_max_left bound (y - step))
    · exact h

theorem raiseTo_eq : raiseTo bound step x = -lowerTo (-bound) step (-x) := by
  unfold raiseTo lowerTo
  by_cases h : x < bound
  · rw [if_pos h, if_pos (neg_lt_neg h), ← neg_add', max_neg_neg, neg_neg]
  · rw [if_neg h, if_neg fun h' => h (neg_lt_neg_iff.1 h'), neg_neg]

theorem le_raiseTo (hstep : 0 ≤ step) : x ≤ raiseTo bound step x := by
  rw [raiseTo_eq]
  exact le_neg.2 (lowerTo_le hstep)

/-- What is raised is not raised above the cap. -/
theorem raiseTo_le_cap (h : x < raiseTo bound step x) : raiseTo bound step x ≤ bound := by
  rw [raiseTo_eq] at h ⊢
  exact neg_le.2 (floor_le_lowerTo (lt_neg.1 h))

theorem raiseTo_mono (h : x ≤ y) : raiseTo bound step x ≤ raiseTo bound step y := by
  rw [raiseTo_eq, raiseTo_eq]
  exact neg_le_neg (lowerTo_mono (neg_le_neg h))

end Spectral.Lib
