import Mathlib.Algebra.Order.Floor.Semiring
import Mathlib.Data.List.Induction
import Mathlib.Data.List.Nodup
import Mathlib.Data.List.Perm.Subperm
import Mathlib.Data.List.Range
import Mathlib.Tactic.Linarith

/-!
# How far a reordering moves

A reordering of the places below `n` is the list of these places in their new order.

* `filterMap_range` — the places in their own order give the list itself.
* `idxOf_lt_idxOf_of_pairwise` — in a sorted list, what does not come after comes before.
* `idxOf_le_add`, `le_idxOf_add` — where places more than `d` apart keep their order, no place moves by
  more than `d`.
* `abs_sub_mul_le` — the same where the distance counts a step for each place.
-/

namespace Spectral.Lib

/-- A list is read off at its places. -/
theorem filterMap_range {α : Type*} (l : List α) :
    (List.range l.length).filterMap (fun i => l[i]?) = l := by
  induction l using List.reverseRecOn with
  | nil => rfl
  | append_singleton l a ih =>
    have hold : (List.range l.length).filterMap (fun i => (l ++ [a])[i]?) =
        (List.range l.length).filterMap fun i => l[i]? :=
      List.filterMap_congr fun i hi => List.getElem?_append_left (List.mem_range.1 hi)
    rw [List.length_append, List.length_singleton, List.range_succ, List.filterMap_append, hold, ih]
    simp

theorem idxOf_range {i n : ℕ} (h : i < n) : (List.range n).idxOf i = i := by
  have hplace := List.nodup_range.idxOf_getElem i (by rwa [List.length_range])
  rwa [List.getElem_range] at hplace

section

variable {α : Type*} [DecidableEq α] {r : α → α → Prop} {l : List α} {a b : α}

/-- In a sorted list an element is before those that the order does not put before it. -/
theorem idxOf_lt_idxOf_of_pairwise (h : l.Pairwise r) (ha : a ∈ l) (hb : b ∈ l) (hne : a ≠ b)
    (hnot : ¬ r b a) : l.idxOf a < l.idxOf b := by
  by_contra hle
  have hdiff : l.idxOf b ≠ l.idxOf a := fun heq => hne ((List.idxOf_inj hb).1 heq).symm
  have hlt : l.idxOf b < l.idxOf a := lt_of_le_of_ne (not_lt.1 hle) hdiff
  have hrel := List.pairwise_iff_getElem.1 h _ _ (List.idxOf_lt_length_of_mem hb)
    (List.idxOf_lt_length_of_mem ha) hlt
  rw [List.getElem_idxOf, List.getElem_idxOf] at hrel
  exact hnot hrel

end

section

variable {n d : ℕ} {order : List ℕ}

/-- No place moves further back: what is before it is not further back than that. -/
theorem idxOf_le_add (hperm : order.Perm (List.range n))
    (hkeeps : ∀ i j, j < n → i + d < j → order.idxOf i < order.idxOf j) {i : ℕ} (hi : i < n) :
    order.idxOf i ≤ i + d := by
  have hmem : ∀ j, j ∈ order ↔ j < n := fun j => hperm.mem_iff.trans List.mem_range
  have hnodup : order.Nodup := hperm.nodup_iff.2 List.nodup_range
  have hbefore : ∀ j ∈ order.take (order.idxOf i), j ∈ (List.range (i + d + 1)).erase i := by
    intro j hj
    have hjn := (hmem j).1 (List.mem_of_mem_take hj)
    have hlt := (List.mem_take_iff_idxOf_lt (List.mem_of_mem_take hj)).1 hj
    have hne : j ≠ i := by
      rintro rfl
      exact lt_irrefl _ hlt
    refine (List.mem_erase_of_ne hne).2 (List.mem_range.2 ?_)
    by_contra hfar
    exact lt_asymm hlt (hkeeps i j hjn (by omega))
  have hlen := (List.subperm_of_subset (hnodup.sublist (List.take_sublist _ _)) hbefore).length_le
  rw [List.length_erase_of_mem (List.mem_range.2 (by omega)), List.length_range, List.length_take,
    min_eq_left (List.idxOf_lt_length_of_mem ((hmem i).2 hi)).le] at hlen
  omega

/-- No place moves further ahead: what is so far before it stays before it. -/
theorem le_idxOf_add (hperm : order.Perm (List.range n))
    (hkeeps : ∀ i j, j < n → i + d < j → order.idxOf i < order.idxOf j) {i : ℕ} (hi : i < n) :
    i ≤ order.idxOf i + d := by
  have hmem : ∀ j, j ∈ order ↔ j < n := fun j => hperm.mem_iff.trans List.mem_range
  have hbefore : ∀ j ∈ List.range (i - d), j ∈ order.take (order.idxOf i) := by
    intro j hj
    have hfar := List.mem_range.1 hj
    refine (List.mem_take_iff_idxOf_lt ((hmem j).2 (by omega))).2 ?_
    exact hkeeps j i hi (by omega)
  have hlen := (List.subperm_of_subset List.nodup_range hbefore).length_le
  rw [List.length_range, List.length_take] at hlen
  omega

/-- Where places whose distance counts more than `spread` keep their order, none moves further. -/
theorem abs_sub_mul_le {K : Type*} [Field K] [LinearOrder K] [IsStrictOrderedRing K]
    [FloorSemiring K] {spread step : K} (hspread : 0 ≤ spread) (hstep : 0 < step)
    (hperm : order.Perm (List.range n))
    (hkeeps : ∀ i j, i < j → j < n → spread < ((j : K) - i) * step → order.idxOf i < order.idxOf j)
    {i : ℕ} (hi : i < n) : |(order.idxOf i : K) - i| * step ≤ spread := by
  have hquot : 0 ≤ spread / step := div_nonneg hspread hstep.le
  have hfar : ∀ i j, j < n → i + ⌊spread / step⌋₊ < j → order.idxOf i < order.idxOf j := by
    intro i j hj hlt
    have hfloor : spread / step < ((j - i : ℕ) : K) := (Nat.floor_lt hquot).1 (by omega)
    rw [Nat.cast_sub (by omega), div_lt_iff₀ hstep] at hfloor
    exact hkeeps i j (by omega) hj hfloor
  have hback : (order.idxOf i : K) ≤ i + ⌊spread / step⌋₊ := by
    exact_mod_cast idxOf_le_add hperm hfar hi
  have hahead : (i : K) ≤ order.idxOf i + ⌊spread / step⌋₊ := by
    exact_mod_cast le_idxOf_add hperm hfar hi
  have hmoved : |(order.idxOf i : K) - i| ≤ ⌊spread / step⌋₊ :=
    abs_le.2 ⟨by linarith, by linarith⟩
  calc |(order.idxOf i : K) - i| * step
      ≤ ⌊spread / step⌋₊ * step := mul_le_mul_of_nonneg_right hmoved hstep.le
    _ ≤ spread / step * step := mul_le_mul_of_nonneg_right (Nat.floor_le hquot) hstep.le
    _ = spread := div_mul_cancel₀ spread hstep.ne'

end

end Spectral.Lib
