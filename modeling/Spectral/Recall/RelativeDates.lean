import Spectral.Lib.Calendar

/-!
# Dates relative to a date

The walk to a weekday, and the shift by months.

* `previousWeekday`, `nextWeekday` — `exists_previousWeekday`, `exists_nextWeekday`: the walk stops
  within a week.
* `shiftMonths` — `exists_shiftMonths`: the month is that many later, and the day that of the date, or
  the last of the month; `MonthsFrom.unique`: this is one date.
-/

namespace Spectral.Temporal

open Spectral.Lib

/-- A date, if it is in the range of `NaiveDate`. -/
def checked (d : NaiveDate) : Option NaiveDate :=
  if -262143 ≤ d.year ∧ d.year ≤ 262142 then some d else none

/-- `d + Duration::days(n)`, which panics out of range. -/
def addDays (d : NaiveDate) (n : ℤ) : Option NaiveDate := checked (d.addDays n)

/-- `NaiveDate::from_ymd_opt`. -/
def fromYmdOpt (year : ℤ) (month day : ℕ) : Option NaiveDate :=
  (NaiveDate.ofYmd? year month day).bind checked

/-- `Certainty`. -/
inductive Certainty
  | exact
  | ambiguous
  deriving DecidableEq

/-- `weekday_from`. -/
def weekdayFrom : String → Option Weekday
  | "monday" | "mon" => some .mon
  | "tuesday" | "tue" | "tues" => some .tue
  | "wednesday" | "wed" => some .wed
  | "thursday" | "thu" | "thurs" => some .thu
  | "friday" | "fri" => some .fri
  | "saturday" | "sat" => some .sat
  | "sunday" | "sun" => some .sun
  | _ => none

/-- The loop `while d.weekday() != wd { d += step }`, with fuel. -/
def walkTo (step : ℤ) (wd : Weekday) : ℕ → NaiveDate → Option NaiveDate
  | 0, _ => none
  | fuel + 1, d => if d.weekday = wd then some d else (addDays d step).bind (walkTo step wd fuel)

/-- `previous_weekday`. -/
def previousWeekday (anchor : NaiveDate) (wd : Weekday) : Option NaiveDate :=
  (addDays anchor (-1)).bind (walkTo (-1) wd 7)

/-- `next_weekday`. -/
def nextWeekday (anchor : NaiveDate) (wd : Weekday) : Option NaiveDate :=
  (addDays anchor 1).bind (walkTo 1 wd 7)

/-- The loop that tries a day of a month and the days before; at day 0 the subtraction panics. -/
def clampDay (year : ℤ) (month : ℕ) : ℕ → Option NaiveDate
  | 0 => none
  | day + 1 =>
    match fromYmdOpt year month (day + 1) with
    | some d => some d
    | none => clampDay year month day

/-- `shift_months`. -/
def shiftMonths (anchor : NaiveDate) (months : ℤ) : Option NaiveDate :=
  let total := anchor.year * 12 + (anchor.month - 1 : ℕ) + months
  clampDay (total / 12) ((total % 12).toNat + 1) anchor.day

/-! ## The range of dates -/

variable {anchor d : NaiveDate} {n step : ℤ} {wd : Weekday}

theorem addDays_eq_some (h : d.year.natAbs + n.natAbs ≤ 262142) :
    addDays d n = some (d.addDays n) := by
  have hyear := d.year_addDays n
  exact if_pos (by omega)

/-- **The walk** takes as many steps as there are days to the weekday. -/
theorem exists_walkTo {fuel k : ℕ} (hstep : step.natAbs = 1) (hk : k < fuel)
    (hyear : d.year.natAbs + fuel ≤ 262142) (hwd : (d.addDays (step * k)).weekday = wd) :
    ∃ j : ℕ, j ≤ k ∧ walkTo step wd fuel d = some (d.addDays (step * j)) ∧
      (d.addDays (step * j)).weekday = wd := by
  induction fuel generalizing d k with
  | zero => exact absurd hk (Nat.not_lt_zero k)
  | succ fuel ih =>
    have hzero : d.addDays (step * (0 : ℕ)) = d := by
      rw [Nat.cast_zero, mul_zero]
      rfl
    unfold walkTo
    split
    · rename_i hday
      exact ⟨0, Nat.zero_le k, by rw [hzero], by rw [hzero, hday]⟩
    · rename_i hday
      cases k with
      | zero =>
        rw [hzero] at hwd
        exact absurd hwd hday
      | succ k =>
        have hnext : ∀ j : ℕ, (d.addDays step).addDays (step * j) = d.addDays (step * (j + 1 : ℕ)) := by
          intro j
          rw [NaiveDate.addDays_addDays]
          congr 1
          push_cast
          rw [mul_add, mul_one, add_comm]
        have hmoved := d.year_addDays step
        obtain ⟨j, hj, hwalk, hfound⟩ := ih (d := d.addDays step) (Nat.lt_of_succ_lt_succ hk) (by omega)
          ((hnext k).symm ▸ hwd)
        refine ⟨j + 1, Nat.succ_le_succ hj, ?_, (hnext j) ▸ hfound⟩
        rw [addDays_eq_some (by omega), Option.bind_some, hwalk, hnext]

/-- **The weekday before a date** is the last one before it. -/
theorem exists_previousWeekday (hyear : anchor.year.natAbs ≤ 200000) (wd : Weekday) :
    ∃ d, previousWeekday anchor wd = some d ∧ d.weekday = wd ∧
      anchor.dayNumber - 7 ≤ d.dayNumber ∧ d.dayNumber < anchor.dayNumber := by
  have hmoved := anchor.year_addDays (-1)
  obtain ⟨k, hk, hwd⟩ := (anchor.addDays (-1)).exists_addDays_weekday wd (Or.inr rfl)
  obtain ⟨j, hj, hwalk, hfound⟩ := exists_walkTo (d := anchor.addDays (-1)) rfl hk (by omega) hwd
  refine ⟨_, ?_, hfound, ?_, ?_⟩
  · rw [previousWeekday, addDays_eq_some (by omega), Option.bind_some, hwalk]
  · rw [NaiveDate.dayNumber_addDays, NaiveDate.dayNumber_addDays]
    omega
  · rw [NaiveDate.dayNumber_addDays, NaiveDate.dayNumber_addDays]
    omega

/-- **The weekday after a date** is the first one after it. -/
theorem exists_nextWeekday (hyear : anchor.year.natAbs ≤ 200000) (wd : Weekday) :
    ∃ d, nextWeekday anchor wd = some d ∧ d.weekday = wd ∧
      anchor.dayNumber < d.dayNumber ∧ d.dayNumber ≤ anchor.dayNumber + 7 := by
  have hmoved := anchor.year_addDays 1
  obtain ⟨k, hk, hwd⟩ := (anchor.addDays 1).exists_addDays_weekday wd (Or.inl rfl)
  obtain ⟨j, hj, hwalk, hfound⟩ := exists_walkTo (d := anchor.addDays 1) rfl hk (by omega) hwd
  refine ⟨_, ?_, hfound, ?_, ?_⟩
  · rw [nextWeekday, addDays_eq_some (by omega), Option.bind_some, hwalk]
  · rw [NaiveDate.dayNumber_addDays, NaiveDate.dayNumber_addDays]
    omega
  · rw [NaiveDate.dayNumber_addDays, NaiveDate.dayNumber_addDays]
    omega

/-! ## Months -/

/-- The date lies so many months from the other, on its day of the month or on the last one. -/
structure MonthsFrom (anchor : NaiveDate) (n : ℤ) (d : NaiveDate) : Prop where
  month : d.monthNumber = anchor.monthNumber + n
  day : d.day = min anchor.day (daysInMonth d.year d.month)

/-- **There is one such date.** -/
theorem MonthsFrom.unique {d' : NaiveDate} (h : MonthsFrom anchor n d) (h' : MonthsFrom anchor n d') :
    d = d' := by
  obtain ⟨hyear, hmonth⟩ := NaiveDate.eq_of_monthNumber (h.month.trans h'.month.symm)
  refine NaiveDate.ext hyear hmonth ?_
  rw [h.day, h'.day, hyear, hmonth]

theorem monthsFrom_zero (anchor : NaiveDate) : MonthsFrom anchor 0 anchor :=
  ⟨(add_zero _).symm, (min_eq_left anchor.day_mem.2).symm⟩

theorem exists_clampDay (year : ℤ) (month : ℕ) {day : ℕ} (hyear : year.natAbs ≤ 262142)
    (hmonth : 1 ≤ month ∧ month ≤ 12) (hday : 1 ≤ day) :
    ∃ d, clampDay year month day = some d ∧ d.year = year ∧ d.month = month ∧
      d.day = min day (daysInMonth year month) := by
  have hrange : -262143 ≤ year ∧ year ≤ 262142 := by omega
  have hlast := one_le_daysInMonth year month
  induction day with
  | zero => exact absurd hday (by decide)
  | succ day ih =>
    unfold clampDay
    by_cases hle : day + 1 ≤ daysInMonth year month
    · have hdate : fromYmdOpt year month (day + 1) =
          some ⟨year, month, day + 1, hmonth, hday, hle⟩ := by
        rw [fromYmdOpt, NaiveDate.ofYmd?, dif_pos ⟨hmonth, hday, hle⟩]
        exact if_pos hrange
      rw [hdate]
      exact ⟨_, rfl, rfl, rfl, (min_eq_left hle).symm⟩
    · have hdate : fromYmdOpt year month (day + 1) = none := by
        rw [fromYmdOpt, NaiveDate.ofYmd?, dif_neg fun h => hle h.2.2]
        rfl
      obtain ⟨d, hd, hy, hm, hmin⟩ := ih (by omega)
      rw [hdate]
      exact ⟨d, hd, hy, hm, by omega⟩

/-- **The shift by months** never fails where the years are in range. -/
theorem exists_shiftMonths (hyear : anchor.year.natAbs ≤ 200000) (hn : n.natAbs ≤ 12000) :
    ∃ d, shiftMonths anchor n = some d ∧ MonthsFrom anchor n d := by
  have hmonth := anchor.month_mem
  obtain ⟨d, hd, hy, hm, hday⟩ := exists_clampDay
    ((anchor.year * 12 + (anchor.month - 1 : ℕ) + n) / 12)
    (((anchor.year * 12 + (anchor.month - 1 : ℕ) + n) % 12).toNat + 1) (by omega) (by omega)
    anchor.day_mem.1
  refine ⟨d, hd, ?_, ?_⟩
  · rw [NaiveDate.monthNumber, NaiveDate.monthNumber, hy, hm]
    omega
  · rw [hday, hy, hm]

end Spectral.Temporal
