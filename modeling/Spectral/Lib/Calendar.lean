import Mathlib.Algebra.Order.Ring.Int
import Mathlib.Logic.Function.Iterate
import Mathlib.Order.Monotone.Basic

/-!
# The Gregorian calendar

Dates of the proleptic Gregorian calendar, with a year 0 and years before it.

* `NaiveDate` — a year, a month and a day that the month has; `ofYmd?`.
* `NaiveDate.next`, `NaiveDate.prev` — the days after and before; `next_prev`.
* `NaiveDate.dayNumber` — the days are counted from 1 January of year 1; `dayNumber_next`: one more a
  day; `dayNumber_injective`.
* `NaiveDate.addDays` — some days later or earlier; `dayNumber_addDays`.
* `NaiveDate.weekday` — the first day of the count is a Monday; `exists_addDays_weekday`: each day of the
  week is among seven days in a row.
* `NaiveDate.monthNumber` — the months are counted likewise; `eq_of_monthNumber`.
-/

namespace Spectral.Lib

/-- A year of 366 days. -/
def isLeap (year : ℤ) : Bool := decide (year % 4 = 0 ∧ (year % 100 ≠ 0 ∨ year % 400 = 0))

/-- The days of a month; 31 for what is none of the twelve. -/
def daysInMonth (year : ℤ) : ℕ → ℕ
  | 2 => if isLeap year then 29 else 28
  | 4 | 6 | 9 | 11 => 30
  | _ => 31

theorem le_daysInMonth (year : ℤ) (month : ℕ) : 28 ≤ daysInMonth year month := by
  unfold daysInMonth
  split
  · split <;> omega
  all_goals omega

theorem one_le_daysInMonth (year : ℤ) (month : ℕ) : 1 ≤ daysInMonth year month :=
  Nat.le_trans (by decide) (le_daysInMonth year month)

/-- A date. -/
@[ext] structure NaiveDate where
  year : ℤ
  month : ℕ
  day : ℕ
  month_mem : 1 ≤ month ∧ month ≤ 12
  day_mem : 1 ≤ day ∧ day ≤ daysInMonth year month
  deriving DecidableEq, Repr

/-- The date of a year, a month and a day, if there is one. -/
def NaiveDate.ofYmd? (year : ℤ) (month day : ℕ) : Option NaiveDate :=
  if h : (1 ≤ month ∧ month ≤ 12) ∧ 1 ≤ day ∧ day ≤ daysInMonth year month then
    some ⟨year, month, day, h.1, h.2⟩
  else none

/-- The day of the week. -/
inductive Weekday
  | mon | tue | wed | thu | fri | sat | sun
  deriving DecidableEq, Repr

namespace NaiveDate

variable {d d' : NaiveDate} {n : ℕ}

/-- The day after. -/
def next (d : NaiveDate) : NaiveDate :=
  if h : d.day < daysInMonth d.year d.month then
    ⟨d.year, d.month, d.day + 1, d.month_mem, by omega, h⟩
  else if hm : d.month < 12 then
    ⟨d.year, d.month + 1, 1, by omega, Nat.le_refl 1, one_le_daysInMonth _ _⟩
  else ⟨d.year + 1, 1, 1, by decide, Nat.le_refl 1, one_le_daysInMonth _ _⟩

/-- The day before. -/
def prev (d : NaiveDate) : NaiveDate :=
  if h : 1 < d.day then
    ⟨d.year, d.month, d.day - 1, d.month_mem, by omega, by have := d.day_mem; omega⟩
  else if hm : 1 < d.month then
    ⟨d.year, d.month - 1, daysInMonth d.year (d.month - 1), by have := d.month_mem; omega,
      one_le_daysInMonth _ _, Nat.le_refl _⟩
  else ⟨d.year - 1, 12, 31, by decide, by decide, Nat.le_refl 31⟩

/-! ## Counting the days -/

/-- The days before a year. -/
def yearStart (year : ℤ) : ℤ :=
  365 * (year - 1) + (year - 1) / 4 - (year - 1) / 100 + (year - 1) / 400

/-- The days of a year before a month. -/
def monthStart (year : ℤ) : ℕ → ℕ
  | 0 | 1 => 0
  | month + 2 => monthStart year (month + 1) + daysInMonth year (month + 1)

/-- `num_days_from_ce`: day 1 is 1 January of year 1. -/
def dayNumber (d : NaiveDate) : ℤ := yearStart d.year + monthStart d.year d.month + d.day

theorem yearStart_succ (year : ℤ) :
    yearStart (year + 1) = yearStart year + if isLeap year then 366 else 365 := by
  unfold yearStart isLeap
  split
  · rename_i h
    have := of_decide_eq_true h
    omega
  · rename_i h
    have : ¬ (year % 4 = 0 ∧ (year % 100 ≠ 0 ∨ year % 400 = 0)) := fun hp => h (decide_eq_true hp)
    omega

/-- The months make up the year. -/
theorem monthStart_twelve (year : ℤ) :
    (monthStart year 12 + 31 : ℕ) = if isLeap year then 366 else 365 := by
  simp only [monthStart, daysInMonth]
  split <;> rfl

theorem monthStart_succ (year : ℤ) {month : ℕ} (h : 1 ≤ month) :
    monthStart year (month + 1) = monthStart year month + daysInMonth year month := by
  obtain ⟨month, rfl⟩ : ∃ m, month = m + 1 := ⟨month - 1, by omega⟩
  rfl

/-- **A day later**, the count is one more. -/
theorem dayNumber_next (d : NaiveDate) : d.next.dayNumber = d.dayNumber + 1 := by
  obtain ⟨year, month, day, hmonth, hday⟩ := d
  unfold next dayNumber
  dsimp only
  split
  · push_cast
    omega
  · split
    · dsimp only
      rw [monthStart_succ year hmonth.1]
      push_cast
      omega
    · dsimp only
      obtain rfl : month = 12 := by omega
      have hyear := monthStart_twelve year
      have hlength : daysInMonth year 12 = 31 := rfl
      have hjanuary : monthStart (year + 1) 1 = 0 := rfl
      rw [yearStart_succ, hjanuary]
      split at hyear
      · rename_i hleap
        rw [if_pos hleap]
        omega
      · rename_i hcommon
        rw [if_neg hcommon]
        omega

theorem next_prev (d : NaiveDate) : d.prev.next = d := by
  obtain ⟨year, month, day, hmonth, hday⟩ := d
  unfold prev
  dsimp only
  split
  · unfold next
    dsimp only
    rw [dif_pos (by omega)]
    ext
    · rfl
    · rfl
    · exact Nat.sub_add_cancel hday.1
  · split
    · unfold next
      dsimp only
      rw [dif_neg (lt_irrefl _), dif_pos (by omega)]
      ext
      · rfl
      · exact Nat.sub_add_cancel hmonth.1
      · dsimp only
        omega
    · have hnot : ¬ 31 < daysInMonth (year - 1) 12 := lt_irrefl 31
      unfold next
      dsimp only
      rw [dif_neg hnot, dif_neg (by decide)]
      ext <;> dsimp only <;> omega

theorem dayNumber_prev (d : NaiveDate) : d.prev.dayNumber = d.dayNumber - 1 := by
  have h := dayNumber_next d.prev
  rw [next_prev] at h
  omega

theorem yearStart_le {year year' : ℤ} (h : year ≤ year') : yearStart year ≤ yearStart year' := by
  refine monotone_int_of_le_succ (fun year => ?_) h
  rw [yearStart_succ]
  split <;> omega

theorem yearStart_lt (d : NaiveDate) : yearStart d.year < d.dayNumber := by
  have := d.day_mem.1
  unfold dayNumber
  omega

theorem monthStart_mono (year : ℤ) : Monotone (monthStart year) := by
  refine monotone_nat_of_le_succ fun month => ?_
  cases month with
  | zero => exact Nat.le_refl 0
  | succ month =>
    rw [monthStart_succ year (Nat.succ_pos month)]
    exact Nat.le_add_right _ _

theorem dayNumber_le (d : NaiveDate) : d.dayNumber ≤ yearStart (d.year + 1) := by
  have hmono := monthStart_mono d.year (Nat.succ_le_succ d.month_mem.2)
  have hsucc := monthStart_succ d.year d.month_mem.1
  have htwelve : monthStart d.year (12 + 1) = monthStart d.year 12 + 31 := rfl
  have hyear := monthStart_twelve d.year
  have hday := d.day_mem.2
  simp only [Nat.succ_eq_add_one] at hmono
  rw [yearStart_succ]
  unfold dayNumber
  split
  · rename_i hleap
    rw [if_pos hleap] at hyear
    omega
  · rename_i hcommon
    rw [if_neg hcommon] at hyear
    omega

/-- **The count tells the dates apart.** -/
theorem dayNumber_injective : Function.Injective dayNumber := by
  -- of two dates with one count, neither the year nor the month is less
  have hyear : ∀ d d' : NaiveDate, d.dayNumber = d'.dayNumber → ¬ d.year < d'.year := by
    intro d d' h hlt
    have hle := dayNumber_le d
    have hgt := yearStart_lt d'
    have hmono := yearStart_le (Int.add_one_le_of_lt hlt)
    omega
  have hmonth : ∀ d d' : NaiveDate, d.dayNumber = d'.dayNumber → d.year = d'.year →
      ¬ d.month < d'.month := by
    intro d d' h hy hlt
    have hmono := monthStart_mono d.year (Nat.succ_le_of_lt hlt)
    rw [Nat.succ_eq_add_one, monthStart_succ d.year d.month_mem.1] at hmono
    have hlast := d.day_mem.2
    have hfirst := d'.day_mem.1
    unfold dayNumber at h
    rw [← hy] at h
    omega
  intro d d' h
  have hy : d.year = d'.year :=
    le_antisymm (not_lt.1 (hyear d' d h.symm)) (not_lt.1 (hyear d d' h))
  have hm : d.month = d'.month :=
    le_antisymm (not_lt.1 (hmonth d' d h.symm hy.symm)) (not_lt.1 (hmonth d d' h hy))
  have hday : d.day = d'.day := by
    unfold dayNumber at h
    rw [hy, hm] at h
    omega
  exact NaiveDate.ext hy hm hday

/-! ## Days later and earlier -/

/-- Some days later, or earlier. -/
def addDays (d : NaiveDate) : ℤ → NaiveDate
  | .ofNat n => next^[n] d
  | .negSucc n => prev^[n + 1] d

theorem dayNumber_iterate_next (d : NaiveDate) (n : ℕ) : (next^[n] d).dayNumber = d.dayNumber + n := by
  induction n with
  | zero => simp
  | succ n ih =>
    rw [Function.iterate_succ_apply', dayNumber_next, ih]
    omega

theorem dayNumber_iterate_prev (d : NaiveDate) (n : ℕ) : (prev^[n] d).dayNumber = d.dayNumber - n := by
  induction n with
  | zero => simp
  | succ n ih =>
    rw [Function.iterate_succ_apply', dayNumber_prev, ih]
    omega

/-- **Some days later**, the count is that many more. -/
theorem dayNumber_addDays (d : NaiveDate) (n : ℤ) : (d.addDays n).dayNumber = d.dayNumber + n := by
  cases n with
  | ofNat n => exact dayNumber_iterate_next d n
  | negSucc n =>
    refine (dayNumber_iterate_prev d (n + 1)).trans ?_
    rw [Int.negSucc_eq]
    omega

theorem addDays_addDays (d : NaiveDate) (m n : ℤ) : (d.addDays m).addDays n = d.addDays (m + n) := by
  apply dayNumber_injective
  rw [dayNumber_addDays, dayNumber_addDays, dayNumber_addDays, add_assoc]

theorem year_next (d : NaiveDate) : d.year ≤ d.next.year ∧ d.next.year ≤ d.year + 1 := by
  unfold next
  split
  · exact ⟨le_rfl, Int.le_add_one le_rfl⟩
  · split
    · exact ⟨le_rfl, Int.le_add_one le_rfl⟩
    · exact ⟨Int.le_add_one le_rfl, le_rfl⟩

theorem year_prev (d : NaiveDate) : d.year - 1 ≤ d.prev.year ∧ d.prev.year ≤ d.year := by
  have h := year_next d.prev
  rw [next_prev] at h
  omega

/-- The year moves no further than the days. -/
theorem year_addDays (d : NaiveDate) (n : ℤ) :
    d.year - n.natAbs ≤ (d.addDays n).year ∧ (d.addDays n).year ≤ d.year + n.natAbs := by
  have hlater : ∀ k : ℕ, d.year ≤ (next^[k] d).year ∧ (next^[k] d).year ≤ d.year + k := by
    intro k
    induction k with
    | zero => simp
    | succ k ih =>
      rw [Function.iterate_succ_apply']
      have := year_next (next^[k] d)
      omega
  have hearlier : ∀ k : ℕ, d.year - k ≤ (prev^[k] d).year ∧ (prev^[k] d).year ≤ d.year := by
    intro k
    induction k with
    | zero => simp
    | succ k ih =>
      rw [Function.iterate_succ_apply']
      have := year_prev (prev^[k] d)
      omega
  cases n with
  | ofNat k =>
    have := hlater k
    simp only [addDays, Int.ofNat_eq_natCast, Int.natAbs_natCast]
    omega
  | negSucc k =>
    have := hearlier (k + 1)
    simp only [addDays, Int.natAbs_negSucc, Nat.succ_eq_add_one]
    omega

/-! ## Weeks and months -/

/-- The day of the week. -/
def weekday (d : NaiveDate) : Weekday :=
  match (d.dayNumber % 7).toNat with
  | 1 => .mon
  | 2 => .tue
  | 3 => .wed
  | 4 => .thu
  | 5 => .fri
  | 6 => .sat
  | _ => .sun

/-- Each day of the week is a remainder of the count. -/
theorem exists_weekday_eq (wd : Weekday) :
    ∃ r : ℤ, 0 ≤ r ∧ r < 7 ∧ ∀ d : NaiveDate, d.dayNumber % 7 = r → d.weekday = wd := by
  have hread : ∀ (r : ℕ) (d : NaiveDate), d.dayNumber % 7 = r →
      d.weekday = match r with
        | 1 => .mon
        | 2 => .tue
        | 3 => .wed
        | 4 => .thu
        | 5 => .fri
        | 6 => .sat
        | _ => .sun := by
    intro r d h
    rw [weekday, h, Int.toNat_natCast]
  cases wd with
  | mon => exact ⟨(1 : ℕ), by decide, by decide, hread 1⟩
  | tue => exact ⟨(2 : ℕ), by decide, by decide, hread 2⟩
  | wed => exact ⟨(3 : ℕ), by decide, by decide, hread 3⟩
  | thu => exact ⟨(4 : ℕ), by decide, by decide, hread 4⟩
  | fri => exact ⟨(5 : ℕ), by decide, by decide, hread 5⟩
  | sat => exact ⟨(6 : ℕ), by decide, by decide, hread 6⟩
  | sun => exact ⟨(0 : ℕ), by decide, by decide, hread 0⟩

/-- **Of seven days in a row** one has the weekday, later days and earlier ones. -/
theorem exists_addDays_weekday (d : NaiveDate) (wd : Weekday) {step : ℤ}
    (hstep : step = 1 ∨ step = -1) : ∃ k : ℕ, k < 7 ∧ (d.addDays (step * k)).weekday = wd := by
  obtain ⟨r, hr, hlt, hread⟩ := exists_weekday_eq wd
  rcases hstep with rfl | rfl
  · refine ⟨((r - d.dayNumber) % 7).toNat, by omega, hread _ ?_⟩
    rw [dayNumber_addDays]
    omega
  · refine ⟨((d.dayNumber - r) % 7).toNat, by omega, hread _ ?_⟩
    rw [dayNumber_addDays]
    omega

/-- The number of the month: one more each month, and 12 a year. -/
def monthNumber (d : NaiveDate) : ℤ := 12 * d.year + d.month - 1

theorem eq_of_monthNumber (h : d.monthNumber = d'.monthNumber) :
    d.year = d'.year ∧ d.month = d'.month := by
  have hm := d.month_mem
  have hm' := d'.month_mem
  unfold monthNumber at h
  omega

end NaiveDate

end Spectral.Lib
