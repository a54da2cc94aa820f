import Mathlib.Analysis.Real.Sqrt
import Mathlib.Tactic.Linarith
import Mathlib.Tactic.Positivity

/-!
# The lower end of a score interval

For a rate `p` the score interval of width `c` is where `(p - x) ^ 2` is at most `c * (x * (1 - x))`.
Its lower end is the smaller root of a quadratic.

* `sq_sub_scoreBound` — it is a root; `scoreBound_nonneg`, `scoreBound_le` — between zero and the rate.
* `lt_scoreBound`, `le_scoreBound` — what is left of the middle and outside is below it.
* `scoreBound_strictMono` — it increases with the rate; `scoreBound_anti` — and decreases with the
  width.
-/

namespace Spectral.Lib

open Real

noncomputable section

/-- The discriminant, less a factor of four. -/
def scoreDisc (p c : ℝ) : ℝ := c * (p * (1 - p)) + c ^ 2 / 4

/-- The lower end of the score interval. -/
def scoreBound (p c : ℝ) : ℝ := (p + c / 2 - √(scoreDisc p c)) / (1 + c)

variable {p p' c c' x : ℝ}

theorem scoreDisc_nonneg (hc : 0 < c) (hp : 0 ≤ p) (hp' : p ≤ 1) : 0 ≤ scoreDisc p c := by
  have hvar : 0 ≤ p * (1 - p) := mul_nonneg hp (sub_nonneg.2 hp')
  unfold scoreDisc
  positivity

/-- A completed square. -/
theorem sq_sub_scoreDisc (p c x : ℝ) :
    (p + c / 2 - x * (1 + c)) ^ 2 - scoreDisc p c =
      (1 + c) * ((p - x) ^ 2 - c * (x * (1 - x))) := by
  unfold scoreDisc
  ring

theorem scoreBound_mul (hc : 0 < c) : scoreBound p c * (1 + c) = p + c / 2 - √(scoreDisc p c) := by
  have hpos : 1 + c ≠ 0 := by positivity
  unfold scoreBound
  rw [div_mul_cancel₀ _ hpos]

/-- It is left of the middle. -/
theorem scoreBound_mul_le (hc : 0 < c) : scoreBound p c * (1 + c) ≤ p + c / 2 := by
  rw [scoreBound_mul hc]
  linarith [sqrt_nonneg (scoreDisc p c)]

/-- **It is a root.** -/
theorem sq_sub_scoreBound (hc : 0 < c) (hp : 0 ≤ p) (hp' : p ≤ 1) :
    (p - scoreBound p c) ^ 2 = c * (scoreBound p c * (1 - scoreBound p c)) := by
  have hsquare := sq_sub_scoreDisc p c (scoreBound p c)
  have hroot : p + c / 2 - scoreBound p c * (1 + c) = √(scoreDisc p c) := by
    rw [scoreBound_mul hc]
    ring
  rw [hroot, sq_sqrt (scoreDisc_nonneg hc hp hp'), sub_self] at hsquare
  have hpos : 1 + c ≠ 0 := by positivity
  exact sub_eq_zero.1 ((mul_eq_zero.1 hsquare.symm).resolve_left hpos)

/-- **What is left of the middle and not inside** is not above the lower end. -/
theorem le_scoreBound (hc : 0 < c) (hmiddle : x * (1 + c) ≤ p + c / 2)
    (houtside : c * (x * (1 - x)) ≤ (p - x) ^ 2) : x ≤ scoreBound p c := by
  have hpos : 0 < 1 + c := by positivity
  have hdisc : scoreDisc p c ≤ (p + c / 2 - x * (1 + c)) ^ 2 := by
    have hgap := mul_nonneg hpos.le (sub_nonneg.2 houtside)
    rw [← sq_sub_scoreDisc] at hgap
    exact sub_nonneg.1 hgap
  have hsqrt := (sqrt_le_left (sub_nonneg.2 hmiddle)).2 hdisc
  unfold scoreBound
  rw [le_div_iff₀ hpos]
  linarith

/-- What is outside is below it. -/
theorem lt_scoreBound (hc : 0 < c) (hp : 0 ≤ p) (hp' : p ≤ 1) (hmiddle : x * (1 + c) ≤ p + c / 2)
    (houtside : c * (x * (1 - x)) < (p - x) ^ 2) : x < scoreBound p c := by
  refine (le_scoreBound hc hmiddle houtside.le).lt_of_ne ?_
  rintro rfl
  exact houtside.ne (sq_sub_scoreBound hc hp hp').symm

theorem scoreBound_nonneg (hc : 0 < c) (hp : 0 ≤ p) : 0 ≤ scoreBound p c := by
  refine le_scoreBound hc ?_ ?_
  · rw [zero_mul]
    positivity
  · rw [zero_mul, mul_zero]
    exact sq_nonneg _

theorem scoreBound_le (hc : 0 < c) (hp : 0 ≤ p) (hp' : p ≤ 1) : scoreBound p c ≤ p := by
  have hpos : 0 < 1 + c := by positivity
  have hvar : 0 ≤ p * (1 - p) := mul_nonneg hp (sub_nonneg.2 hp')
  have hsqrt : c / 2 - p * c ≤ √(scoreDisc p c) := by
    refine le_sqrt_of_sq_le ?_
    have hsquare : scoreDisc p c - (c / 2 - p * c) ^ 2 = c * (1 + c) * (p * (1 - p)) := by
      unfold scoreDisc
      ring
    have hprod : 0 ≤ c * (1 + c) * (p * (1 - p)) := by positivity
    linarith
  unfold scoreBound
  rw [div_le_iff₀ hpos]
  linarith

/-- **It increases with the rate.** -/
theorem scoreBound_strictMono (hc : 0 < c) (hp : 0 ≤ p) (h : p < p') (hp' : p' ≤ 1) :
    scoreBound p c < scoreBound p' c := by
  have hroot := sq_sub_scoreBound hc hp (h.le.trans hp')
  have hle := scoreBound_le hc hp (h.le.trans hp')
  refine lt_scoreBound hc (hp.trans h.le) hp' ?_ ?_
  · exact (scoreBound_mul_le hc).trans (by linarith)
  · rw [← hroot]
    exact pow_lt_pow_left₀ (by linarith) (sub_nonneg.2 hle) two_ne_zero

/-- **It decreases with the width.** -/
theorem scoreBound_anti (hc' : 0 < c') (h : c' ≤ c) (hp : 0 ≤ p) (hp' : p ≤ 1) :
    scoreBound p c ≤ scoreBound p c' := by
  have hc := hc'.trans_le h
  have hle := scoreBound_le hc hp hp'
  have hvar : 0 ≤ scoreBound p c * (1 - scoreBound p c) :=
    mul_nonneg (scoreBound_nonneg hc hp) (sub_nonneg.2 (hle.trans hp'))
  refine le_scoreBound hc' ?_ ?_
  · -- the middle is on the line from the rate to one half
    have hmiddle : scoreBound p c * (1 + c) ≤ p + c / 2 := scoreBound_mul_le hc
    rcases le_total (scoreBound p c) (1 / 2) with hhalf | hhalf
    · linarith [mul_le_mul_of_nonneg_right hhalf hc'.le]
    · linarith [mul_le_mul_of_nonneg_right h (sub_nonneg.2 hhalf)]
  · rw [sq_sub_scoreBound hc hp hp']
    exact mul_le_mul_of_nonneg_right h hvar

end

end Spectral.Lib
