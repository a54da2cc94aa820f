import Spectral.Lib.ScoreBound

/-!
# The Wilson bound

The ledger scores a memory by its uses out of its deliveries.  `wilson_lower_bound` is the lower end
of a score interval, so that a rate on little evidence counts less than the same rate on much.

* `wilsonLowerBoundZ` — the bound, and the clamp it ends with; `wilsonLowerBoundZ_eq` — the clamp
  changes nothing.
* `wilson_ordersEvidence` — the bound is between zero and the rate, it increases with the uses, and
  it does not decrease with the evidence.

Arithmetic is that of the real numbers.
-/

namespace Spectral

open Spectral.Lib Real

noncomputable section

/-- What `wilson_lower_bound_z` clamps: `(centre - margin) / denom`. -/
def wilsonQuotient (used deliveries : ℕ) (z : ℝ) : ℝ :=
  let n : ℝ := deliveries
  let p := used / n
  let z2 := z * z
  let denom := 1 + z2 / n
  let centre := p + z2 / ((2 : ℕ) * n)
  let margin := z * √(p * (1 - p) / n + z2 / ((4 : ℕ) * n * n))
  (centre - margin) / denom

/-- `wilson_lower_bound_z`. -/
def wilsonLowerBoundZ (used deliveries : ℕ) (z : ℝ) : ℝ :=
  if deliveries = 0 ∨ deliveries < used then 0
  else max 0 (min (wilsonQuotient used deliveries z) 1)

/-- `wilson_lower_bound`. -/
def wilsonLowerBound (used deliveries : ℕ) : ℝ := wilsonLowerBoundZ used deliveries (196 / 100)

variable {used used' n k : ℕ} {z : ℝ}

/-! ## The score interval -/

theorem rate_nonneg : (0 : ℝ) ≤ used / n := div_nonneg used.cast_nonneg n.cast_nonneg

theorem rate_le_one (hused : used ≤ n) : (used / n : ℝ) ≤ 1 :=
  div_le_one_of_le₀ (Nat.cast_le.2 hused) n.cast_nonneg

theorem width_pos (hz : 0 < z) (hn : 1 ≤ n) : 0 < z * z / n :=
  div_pos (mul_pos hz hz) (Nat.cast_pos.2 hn)

/-- The margin is the root of the discriminant. -/
theorem wilsonQuotient_eq (hz : 0 < z) (hn : 1 ≤ n) :
    wilsonQuotient used n z = scoreBound (used / n) (z * z / n) := by
  have hpos : (n : ℝ) ≠ 0 := Nat.cast_ne_zero.2 (by omega)
  have hmargin : z * √(used / n * (1 - used / n) / n + z * z / (4 * n * n)) =
      √(scoreDisc (used / n) (z * z / n)) := by
    have hsquare : scoreDisc (used / n) (z * z / n) =
        z ^ 2 * (used / n * (1 - used / n) / n + z * z / (4 * n * n)) := by
      unfold scoreDisc
      field_simp
    rw [hsquare, sqrt_mul (sq_nonneg z), sqrt_sq hz.le]
  unfold wilsonQuotient scoreBound
  dsimp only
  rw [Nat.cast_ofNat, Nat.cast_ofNat, hmargin, div_div, mul_comm (n : ℝ) 2]

/-- **The clamp changes nothing.** -/
theorem wilsonLowerBoundZ_eq (hz : 0 < z) (hn : 1 ≤ n) (hused : used ≤ n) :
    wilsonLowerBoundZ used n z = scoreBound (used / n) (z * z / n) := by
  have hwidth := width_pos hz hn
  have hnonneg : 0 ≤ scoreBound (used / n) (z * z / n) := scoreBound_nonneg hwidth rate_nonneg
  have hle : scoreBound (used / n) (z * z / n) ≤ 1 :=
    (scoreBound_le hwidth rate_nonneg (rate_le_one hused)).trans (rate_le_one hused)
  unfold wilsonLowerBoundZ
  rw [if_neg (by omega), wilsonQuotient_eq hz hn, min_eq_left hle, max_eq_right hnonneg]

/-! ## Evidence -/

theorem wilsonLowerBoundZ_bounds (hz : 0 < z) (hn : 1 ≤ n) (hused : used ≤ n) :
    0 ≤ wilsonLowerBoundZ used n z ∧ wilsonLowerBoundZ used n z ≤ used / n := by
  rw [wilsonLowerBoundZ_eq hz hn hused]
  exact ⟨scoreBound_nonneg (width_pos hz hn) rate_nonneg,
    scoreBound_le (width_pos hz hn) rate_nonneg (rate_le_one hused)⟩

/-- More uses out of as many deliveries. -/
theorem wilsonLowerBoundZ_lt (hz : 0 < z) (h : used < used') (hused : used' ≤ n) :
    wilsonLowerBoundZ used n z < wilsonLowerBoundZ used' n z := by
  have hn : 1 ≤ n := by omega
  rw [wilsonLowerBoundZ_eq hz hn (h.le.trans hused), wilsonLowerBoundZ_eq hz hn hused]
  have hrate : (used / n : ℝ) < used' / n :=
    div_lt_div_of_pos_right (Nat.cast_lt.2 h) (Nat.cast_pos.2 hn)
  exact scoreBound_strictMono (width_pos hz hn) rate_nonneg hrate (rate_le_one hused)

/-- As many uses for each delivery, out of more deliveries. -/
theorem wilsonLowerBoundZ_le_mul (hz : 0 < z) (hn : 1 ≤ n) (hused : used ≤ n) (hk : 1 ≤ k) :
    wilsonLowerBoundZ used n z ≤ wilsonLowerBoundZ (k * used) (k * n) z := by
  have hkn : 1 ≤ k * n := Nat.mul_pos hk hn
  have hrate : ((k * used : ℕ) / (k * n : ℕ) : ℝ) = used / n := by
    rw [Nat.cast_mul, Nat.cast_mul, mul_div_mul_left _ _ (Nat.cast_ne_zero.2 (by omega))]
  have hwidth : z * z / (k * n : ℕ) ≤ z * z / n := by
    refine div_le_div_of_nonneg_left (mul_pos hz hz).le (Nat.cast_pos.2 hn) (Nat.cast_le.2 ?_)
    exact Nat.le_mul_of_pos_left n hk
  rw [wilsonLowerBoundZ_eq hz hn hused, wilsonLowerBoundZ_eq hz hkn (Nat.mul_le_mul_left k hused),
    hrate]
  exact scoreBound_anti (width_pos hz hkn) hwidth rate_nonneg (rate_le_one hused)

/-- **The bound orders evidence.** -/
theorem wilson_ordersEvidence {z : ℝ} (hz : 0 < z) :
    (∀ used n, 1 ≤ n → used ≤ n → wilsonLowerBoundZ used n z = wilsonQuotient used n z ∧
      0 ≤ wilsonLowerBoundZ used n z ∧ wilsonLowerBoundZ used n z ≤ used / n) ∧
    (∀ used used' n, used < used' → used' ≤ n →
      wilsonLowerBoundZ used n z < wilsonLowerBoundZ used' n z) ∧
    ∀ used n k, 1 ≤ n → used ≤ n → 1 ≤ k →
      wilsonLowerBoundZ used n z ≤ wilsonLowerBoundZ (k * used) (k * n) z := by
  refine ⟨fun used n hn hused => ⟨?_, wilsonLowerBoundZ_bounds hz hn hused⟩,
    fun used used' n h hused => wilsonLowerBoundZ_lt hz h hused,
    fun used n k hn hused hk => wilsonLowerBoundZ_le_mul hz hn hused hk⟩
  rw [wilsonLowerBoundZ_eq hz hn hused, wilsonQuotient_eq hz hn]

/-- What is always used scores by its deliveries alone. -/
theorem wilsonLowerBoundZ_self (hz : 0 < z) (hn : 1 ≤ n) :
    wilsonLowerBoundZ n n z = n / (n + z * z) := by
  have hpos : (0 : ℝ) < n := Nat.cast_pos.2 hn
  have hwidth : 0 < z * z / n := width_pos hz hn
  rw [wilsonLowerBoundZ_eq hz hn le_rfl, div_self hpos.ne', scoreBound, scoreDisc, sub_self, mul_zero,
    mul_zero, zero_add, show (z * z / n) ^ 2 / 4 = (z * z / n / 2) ^ 2 by ring,
    sqrt_sq (by positivity), add_sub_cancel_right]
  field_simp

/-- One use out of one delivery scores 0.207 at `z = 1.96`, and less than two out of two. -/
theorem wilson_one_of_one :
    wilsonLowerBound 1 1 = 625 / 3026 ∧ wilsonLowerBound 1 1 ≤ wilsonLowerBound 2 2 ∧
      wilsonLowerBound 1 2 < wilsonLowerBound 2 2 := by
  have hz : (0 : ℝ) < 196 / 100 := by norm_num
  obtain ⟨-, hless, hmore⟩ := wilson_ordersEvidence hz
  refine ⟨?_, hmore 1 1 2 le_rfl le_rfl (by decide), hless 1 2 2 (by decide) le_rfl⟩
  rw [wilsonLowerBound, wilsonLowerBoundZ_self hz le_rfl]
  norm_num

end

end Spectral
