import Mathlib.Algebra.Order.Field.Rat
import Mathlib.Data.Char
import Mathlib.Data.List.Lex
import Mathlib.Data.Prod.Lex
import Mathlib.Data.String.Basic
import Mathlib.Order.Bounds.Basic
import Mathlib.Tactic.Linarith
import Mathlib.Tactic.NormNum

/-!
# Time stamps as text

A stamp is an instant written in one of two formats: `YYYY-MM-DD HH:MM:SS`, which is in UTC, and
RFC 3339, `YYYY-MM-DDTHH:MM:SS`, followed by a fraction of a second and a zone.

* `Stamp.text`, `Stamp.instant` — what is written, and what it means.
* `text_le_iff` — stamps sort as text by `Stamp.written`: the day, then the format, then the time of
  the day, then what follows.
* `Misplaced` — the order as text and that in time disagree; `misplaced_iff` — for stamps in UTC
  this is so on one day only, of two formats, or in one second.
* `Stamp.second`, `Stamp.toSecond` — a stamp without its fraction: `text_toSecond_lt_iff`,
  `instant_lt_iff`.
* `instant_le_of_written_le` — what is written in UTC, on one day and in one format, is in order.
-/

namespace Spectral.Lib

/-! ## Decimals of a fixed length -/

/-- Lists with heads of one length are compared by the heads, then by the tails. -/
theorem append_lt_append_iff {α : Type*} [LinearOrder α] {p q s s' : List α}
    (h : p.length = q.length) : p ++ s < q ++ s' ↔ p < q ∨ p = q ∧ s < s' := by
  induction p generalizing q with
  | nil =>
    obtain rfl := List.length_eq_zero_iff.1 h.symm
    simp
  | cons a p ih =>
    cases q with
    | nil => cases h
    | cons b q =>
      rw [List.cons_append, List.cons_append, List.cons_lt_cons_iff, List.cons_lt_cons_iff,
        ih (Nat.succ.inj h), List.cons.injEq]
      tauto

/-- A digit as a character. -/
def digit (d : ℕ) : Char := Char.ofNat (48 + d)

theorem digit_lt {a b : ℕ} (hb : b < 10) (h : a < b) : digit a < digit b := by
  have hall : ∀ b : Fin 10, ∀ a : Fin 10, a < b → digit a < digit b := by decide
  exact hall ⟨b, hb⟩ ⟨a, by omega⟩ h

/-- A number in `k` decimals. -/
def decimals : ℕ → ℕ → List Char
  | 0, _ => []
  | k + 1, n => decimals k (n / 10) ++ [digit (n % 10)]

@[simp] theorem length_decimals (k n : ℕ) : (decimals k n).length = k := by
  induction k generalizing n with
  | zero => rfl
  | succ k ih => rw [decimals, List.length_append, ih, List.length_singleton]

theorem decimals_lt {k n m : ℕ} (hm : m < 10 ^ k) (h : n < m) : decimals k n < decimals k m := by
  induction k generalizing n m with
  | zero =>
    rw [pow_zero] at hm
    omega
  | succ k ih =>
    rw [pow_succ] at hm
    rw [decimals, decimals, append_lt_append_iff (by simp)]
    rcases Nat.lt_or_ge (n / 10) (m / 10) with hlt | hge
    · exact Or.inl (ih (by omega) hlt)
    · have heq : n / 10 = m / 10 := by omega
      refine Or.inr ⟨by rw [heq], ?_⟩
      rw [List.cons_lt_cons_iff]
      exact Or.inl (digit_lt (by omega) (by omega))

theorem decimals_lt_iff {k n m : ℕ} (hn : n < 10 ^ k) (hm : m < 10 ^ k) :
    decimals k n < decimals k m ↔ n < m := by
  refine ⟨fun h => ?_, decimals_lt hm⟩
  by_contra hge
  rcases Nat.eq_or_lt_of_le (not_lt.1 hge) with rfl | hlt
  · exact lt_irrefl _ h
  · exact lt_asymm h (decimals_lt hn hlt)

theorem decimals_inj {k n m : ℕ} (hn : n < 10 ^ k) (hm : m < 10 ^ k) :
    decimals k n = decimals k m ↔ n = m := by
  refine ⟨fun h => ?_, fun h => h ▸ rfl⟩
  rcases Nat.lt_trichotomy n m with hlt | heq | hlt
  · exact absurd h (decimals_lt hm hlt).ne
  · exact heq
  · exact absurd h (decimals_lt hn hlt).ne'

/-! ## Days and times of day -/

/-- Has the year a 29th of February? -/
def leapYear (year : ℕ) : Prop := year % 4 = 0 ∧ (year % 100 ≠ 0 ∨ year % 400 = 0)

instance (year : ℕ) : Decidable (leapYear year) :=
  inferInstanceAs (Decidable (_ ∧ (_ ∨ _)))

/-- The days of a year before one of its months. -/
def daysBeforeMonth (year month : ℕ) : ℕ :=
  [0, 0, 31, 59, 90, 120, 151, 181, 212, 243, 273, 304, 334, 365].getD month 0 +
    if 2 < month ∧ leapYear year then 1 else 0

/-- The days before a year. -/
def daysBeforeYear (year : ℕ) : ℕ :=
  365 * year + (year + 3) / 4 - (year + 99) / 100 + (year + 399) / 400

/-- A day of the calendar. -/
structure Date where
  year : ℕ
  month : ℕ
  day : ℕ
  year_lt : year < 10000
  month_pos : 0 < month
  month_le : month ≤ 12
  day_pos : 0 < day
  /-- The day is one of the month. -/
  day_le : daysBeforeMonth year month + day ≤ daysBeforeMonth year (month + 1)
  deriving DecidableEq

namespace Date

/-- The days up to this one. -/
def number (d : Date) : ℕ := daysBeforeYear d.year + daysBeforeMonth d.year d.month + d.day

/-- `YYYY-MM-DD`. -/
def text (d : Date) : List Char :=
  decimals 4 d.year ++ '-' :: (decimals 2 d.month ++ '-' :: decimals 2 d.day)

@[simp] theorem length_text (d : Date) : d.text.length = 10 := by
  simp [text]

theorem daysBeforeMonth_succ (year : ℕ) {month : ℕ} (h : month < 13) :
    daysBeforeMonth year month ≤ daysBeforeMonth year (month + 1) ∧
      daysBeforeMonth year (month + 1) ≤ daysBeforeMonth year month + 31 := by
  by_cases hleap : leapYear year
  all_goals
    simp only [daysBeforeMonth, hleap, and_true, and_false, ↓reduceIte]
    revert month
    decide

theorem daysBeforeMonth_mono {year month month' : ℕ} (h : month ≤ month') (hle : month' ≤ 13) :
    daysBeforeMonth year month ≤ daysBeforeMonth year month' := by
  induction h with
  | refl => exact le_rfl
  | step _ ih => exact (ih (by omega)).trans (daysBeforeMonth_succ year (by omega)).1

/-- A year ends where the next one begins. -/
theorem daysBeforeYear_succ (year : ℕ) :
    daysBeforeYear (year + 1) = daysBeforeYear year + daysBeforeMonth year 13 := by
  have h4 : (year + 1 + 3) / 4 = (year + 3) / 4 + if year % 4 = 0 then 1 else 0 := by
    split <;> omega
  have h100 : (year + 1 + 99) / 100 = (year + 99) / 100 + if year % 100 = 0 then 1 else 0 := by
    split <;> omega
  have h400 : (year + 1 + 399) / 400 = (year + 399) / 400 + if year % 400 = 0 then 1 else 0 := by
    split <;> omega
  have hof100 : year % 100 = 0 → year % 4 = 0 := by omega
  have hof400 : year % 400 = 0 → year % 100 = 0 := by omega
  have hbound : (year + 99) / 100 ≤ 365 * year + (year + 3) / 4 := by omega
  have hmonths : daysBeforeMonth year 13 = 365 + if leapYear year then 1 else 0 := by
    simp [daysBeforeMonth]
  rw [hmonths, daysBeforeYear, daysBeforeYear, h4, h100, h400]
  unfold leapYear
  by_cases hy4 : year % 4 = 0
  · by_cases hy100 : year % 100 = 0
    · by_cases hy400 : year % 400 = 0
      · simp only [hy4, hy100, hy400, ↓reduceIte, or_true, and_self]
        omega
      · simp only [hy4, hy100, hy400, ↓reduceIte, ne_eq, not_true_eq_false, or_self, and_false]
        omega
    · have hy400 : ¬ year % 400 = 0 := mt hof400 hy100
      simp only [hy4, hy100, hy400, ↓reduceIte, ne_eq, not_false_eq_true, true_or, and_self]
      omega
  · have hy100 : ¬ year % 100 = 0 := mt hof100 hy4
    have hy400 : ¬ year % 400 = 0 := mt hof400 hy100
    simp only [hy4, hy100, hy400, ↓reduceIte, false_and]
    omega

theorem daysBeforeYear_mono {year year' : ℕ} (h : year ≤ year') :
    daysBeforeYear year ≤ daysBeforeYear year' :=
  monotone_nat_of_le_succ (fun y => by rw [daysBeforeYear_succ]; omega) h

theorem day_lt (d : Date) : d.day < 100 := by
  have hmonth : d.month < 13 := by
    have := d.month_le
    omega
  have hsucc := (daysBeforeMonth_succ d.year hmonth).2
  have hle := d.day_le
  omega

/-- Days are numbered in the order of year, month and day. -/
theorem number_lt {a b : Date} (h : a.year < b.year ∨ a.year = b.year ∧
    (a.month < b.month ∨ a.month = b.month ∧ a.day < b.day)) : a.number < b.number := by
  have hpos := b.day_pos
  have ha := a.day_le
  have hle := a.month_le
  have hle' := b.month_le
  unfold number
  rcases h with hyear | ⟨hyear, hmonth | ⟨hmonth, hday⟩⟩
  · have hend : daysBeforeMonth a.year (a.month + 1) ≤ daysBeforeMonth a.year 13 :=
      daysBeforeMonth_mono (by omega) le_rfl
    have hnext := daysBeforeYear_mono (show a.year + 1 ≤ b.year from hyear)
    rw [daysBeforeYear_succ] at hnext
    omega
  · have hend : daysBeforeMonth a.year (a.month + 1) ≤ daysBeforeMonth a.year b.month :=
      daysBeforeMonth_mono (by omega) (by omega)
    rw [← hyear]
    omega
  · rw [← hyear, ← hmonth]
    omega

theorem text_lt_iff_fields {a b : Date} : a.text < b.text ↔ a.year < b.year ∨ a.year = b.year ∧
    (a.month < b.month ∨ a.month = b.month ∧ a.day < b.day) := by
  have hmonth := a.month_le
  have hmonth' := b.month_le
  rw [text, text, append_lt_append_iff (by simp), List.cons_lt_cons_iff,
    append_lt_append_iff (by simp), List.cons_lt_cons_iff,
    decimals_lt_iff a.year_lt b.year_lt, decimals_inj a.year_lt b.year_lt,
    decimals_lt_iff (by omega) (by omega), decimals_inj (by omega) (by omega),
    decimals_lt_iff a.day_lt b.day_lt]
  simp

theorem number_lt_iff {a b : Date} : a.number < b.number ↔ a.text < b.text := by
  rw [text_lt_iff_fields]
  refine ⟨fun h => ?_, number_lt⟩
  by_contra hnot
  by_cases heq : a.year = b.year ∧ a.month = b.month ∧ a.day = b.day
  · unfold number at h
    rw [heq.1, heq.2.1, heq.2.2] at h
    omega
  · have hrev : b.number < a.number := number_lt (by omega)
    omega

theorem number_inj {a b : Date} : a.number = b.number ↔ a.text = b.text := by
  constructor
  · intro h
    exact le_antisymm (not_lt.1 fun hlt => by have := number_lt_iff.2 hlt; omega)
      (not_lt.1 fun hlt => by have := number_lt_iff.2 hlt; omega)
  · intro h
    have hle : ¬ a.number < b.number := fun hlt => (number_lt_iff.1 hlt).ne h
    have hge : ¬ b.number < a.number := fun hlt => (number_lt_iff.1 hlt).ne h.symm
    omega

end Date

/-- A time of day, to the second. -/
structure TimeOfDay where
  hour : ℕ
  minute : ℕ
  second : ℕ
  hour_lt : hour < 24
  minute_lt : minute < 60
  second_lt : second < 60
  deriving DecidableEq

namespace TimeOfDay

/-- The seconds since midnight. -/
def seconds (t : TimeOfDay) : ℕ := 3600 * t.hour + 60 * t.minute + t.second

/-- `HH:MM:SS`. -/
def text (t : TimeOfDay) : List Char :=
  decimals 2 t.hour ++ ':' :: (decimals 2 t.minute ++ ':' :: decimals 2 t.second)

@[simp] theorem length_text (t : TimeOfDay) : t.text.length = 8 := by
  simp [text]

theorem seconds_lt (t : TimeOfDay) : t.seconds < 86400 := by
  have h := t.hour_lt
  have h' := t.minute_lt
  have h'' := t.second_lt
  unfold seconds
  omega

theorem seconds_lt_iff {a b : TimeOfDay} : a.seconds < b.seconds ↔ a.text < b.text := by
  have ha := a.hour_lt
  have ha' := a.minute_lt
  have ha'' := a.second_lt
  have hb := b.hour_lt
  have hb' := b.minute_lt
  have hb'' := b.second_lt
  rw [text, text, append_lt_append_iff (by simp), List.cons_lt_cons_iff,
    append_lt_append_iff (by simp), List.cons_lt_cons_iff,
    decimals_lt_iff (by omega) (by omega), decimals_inj (by omega) (by omega),
    decimals_lt_iff (by omega) (by omega), decimals_inj (by omega) (by omega),
    decimals_lt_iff (by omega) (by omega)]
  simp only [lt_irrefl, false_or, true_and, seconds]
  omega

theorem seconds_inj {a b : TimeOfDay} : a.seconds = b.seconds ↔ a.text = b.text := by
  constructor
  · intro h
    exact le_antisymm (not_lt.1 fun hlt => by have := seconds_lt_iff.2 hlt; omega)
      (not_lt.1 fun hlt => by have := seconds_lt_iff.2 hlt; omega)
  · intro h
    have hle : ¬ a.seconds < b.seconds := fun hlt => (seconds_lt_iff.1 hlt).ne h
    have hge : ¬ b.seconds < a.seconds := fun hlt => (seconds_lt_iff.1 hlt).ne h.symm
    omega

end TimeOfDay

/-! ## Stamps -/

/-- The zone of a stamp: `Z`, or the hours and minutes it is ahead of UTC, or behind. -/
inductive Zone where
  | zulu
  | offset (behind : Bool) (hours : Fin 24) (minutes : Fin 60)
  deriving DecidableEq

namespace Zone

/-- How many minutes the zone is ahead of UTC. -/
def minutes : Zone → ℤ
  | zulu => 0
  | offset behind hours minutes => (if behind then -1 else 1) * (60 * hours.val + minutes.val)

def text : Zone → List Char
  | zulu => ['Z']
  | offset behind hours minutes =>
    (if behind then '-' else '+') :: (decimals 2 hours ++ ':' :: decimals 2 minutes)

end Zone

/-- The part of a second some decimals stand for. -/
def fractionOf : List (Fin 10) → ℚ
  | [] => 0
  | d :: ds => (d.val + fractionOf ds) / 10

theorem fractionOf_bounds (ds : List (Fin 10)) : 0 ≤ fractionOf ds ∧ fractionOf ds < 1 := by
  induction ds with
  | nil => simp [fractionOf]
  | cons d ds ih =>
    have hd : (d.val : ℚ) ≤ 9 := by exact_mod_cast Nat.le_of_lt_succ d.isLt
    have hd' : (0 : ℚ) ≤ d.val := by exact_mod_cast Nat.zero_le d.val
    rw [fractionOf]
    constructor
    · linarith [ih.1]
    · linarith [ih.2]

/-- The two formats. -/
inductive Format where
  | space
  | rfc3339 (fraction : List (Fin 10)) (zone : Zone)
  deriving DecidableEq

namespace Format

/-- What stands between the day and the time of day. -/
def separator : Format → Char
  | space => ' '
  | rfc3339 .. => 'T'

/-- What follows the seconds. -/
def tail : Format → List Char
  | space => []
  | rfc3339 fraction zone =>
    (if fraction = [] then [] else '.' :: fraction.map fun d => digit d) ++ zone.text

/-- The part of a second. -/
def fraction : Format → ℚ
  | space => 0
  | rfc3339 fraction _ => fractionOf fraction

/-- How many minutes the stamp is ahead of UTC. -/
def offset : Format → ℤ
  | space => 0
  | rfc3339 _ zone => zone.minutes

theorem separator_lt {f g : Format} (h : f.separator < g.separator) :
    f.separator = ' ' ∧ g.separator = 'T' := by
  cases f with
  | space =>
    cases g with
    | space => exact absurd h (lt_irrefl _)
    | rfc3339 => exact ⟨rfl, rfl⟩
  | rfc3339 =>
    cases g with
    | space => exact absurd h (show ¬ 'T' < ' ' by decide)
    | rfc3339 => exact absurd h (lt_irrefl _)

theorem fraction_bounds (f : Format) : 0 ≤ f.fraction ∧ f.fraction < 1 := by
  cases f with
  | space => exact ⟨le_rfl, zero_lt_one⟩
  | rfc3339 fraction zone => exact fractionOf_bounds fraction

end Format

/-- An instant in one of the formats. -/
structure Stamp where
  date : Date
  time : TimeOfDay
  format : Format
  deriving DecidableEq

namespace Stamp

/-- The instant, in seconds. -/
def instant (s : Stamp) : ℚ :=
  86400 * s.date.number + s.time.seconds + s.format.fraction - 60 * s.format.offset

def text (s : Stamp) : String :=
  String.ofList (s.date.text ++ s.format.separator :: (s.time.text ++ s.format.tail))

/-- What stamps sort by as text. -/
def written (s : Stamp) : ℕ ×ₗ Char ×ₗ ℕ ×ₗ List Char :=
  toLex (s.date.number, toLex (s.format.separator, toLex (s.time.seconds, s.format.tail)))

variable {a b t : Stamp}

theorem text_lt_iff : a.text < b.text ↔ a.written < b.written := by
  rw [text, text, String.lt_iff_toList_lt, String.toList_ofList, String.toList_ofList,
    append_lt_append_iff (by simp), List.cons_lt_cons_iff, append_lt_append_iff (by simp),
    ← Date.number_lt_iff, ← Date.number_inj, ← TimeOfDay.seconds_lt_iff, ← TimeOfDay.seconds_inj]
  simp only [written, Prod.Lex.toLex_lt_toLex]

theorem text_le_iff : a.text ≤ b.text ↔ a.written ≤ b.written := by
  rw [← not_lt, ← not_lt, text_lt_iff]

theorem written_le_iff : a.written ≤ b.written ↔ a.date.number < b.date.number ∨
    a.date.number = b.date.number ∧ (a.format.separator < b.format.separator ∨
      a.format.separator = b.format.separator ∧ (a.time.seconds < b.time.seconds ∨
        a.time.seconds = b.time.seconds ∧ a.format.tail ≤ b.format.tail)) := by
  simp only [written, Prod.Lex.toLex_le_toLex]

/-- The order as text and the order in time put a stamp on different sides of `t`. -/
def Misplaced (a t : Stamp) : Prop := ¬ (a.written ≤ t.written ↔ a.instant ≤ t.instant)

instance (a t : Stamp) : Decidable (Misplaced a t) := inferInstanceAs (Decidable (¬ (_ ↔ _)))

/-- Stamps in UTC of different days are never misplaced. -/
theorem instant_lt_of_number_lt (ha : a.format.offset = 0) (hb : b.format.offset = 0)
    (h : a.date.number < b.date.number) : a.instant < b.instant := by
  have hday : (a.date.number : ℚ) + 1 ≤ b.date.number := by exact_mod_cast h
  have hsecond : (a.time.seconds : ℚ) + 1 ≤ 86400 := by exact_mod_cast a.time.seconds_lt
  have hsecond' : (0 : ℚ) ≤ b.time.seconds := by exact_mod_cast Nat.zero_le b.time.seconds
  have hfraction := a.format.fraction_bounds
  have hfraction' := b.format.fraction_bounds
  simp only [instant, ha, hb, Int.cast_zero, mul_zero, sub_zero]
  linarith [hfraction.2, hfraction'.1]

/-- Nor are stamps of one day and one format, of different seconds. -/
theorem instant_lt_of_seconds_lt (ha : a.format.offset = 0) (hb : b.format.offset = 0)
    (hday : a.date.number = b.date.number) (h : a.time.seconds < b.time.seconds) :
    a.instant < b.instant := by
  have hsecond : (a.time.seconds : ℚ) + 1 ≤ b.time.seconds := by exact_mod_cast h
  have hfraction := a.format.fraction_bounds
  have hfraction' := b.format.fraction_bounds
  simp only [instant, ha, hb, hday, Int.cast_zero, mul_zero, sub_zero]
  linarith [hfraction.2, hfraction'.1]

/-- In UTC a stamp is misplaced only on one day: in the other format, where RFC 3339 sorts last
whatever the time, or in one second, where the fraction and the zone are compared as text. -/
theorem misplaced_iff (ha : a.format.offset = 0) (ht : t.format.offset = 0) :
    Misplaced a t ↔ a.date.number = t.date.number ∧
      (a.format.separator < t.format.separator ∧ t.instant < a.instant ∨
        t.format.separator < a.format.separator ∧ a.instant ≤ t.instant ∨
        a.format.separator = t.format.separator ∧ a.time.seconds = t.time.seconds ∧
          ¬ (a.format.tail ≤ t.format.tail ↔ a.format.fraction ≤ t.format.fraction)) := by
  rw [Misplaced, written_le_iff]
  rcases lt_trichotomy a.date.number t.date.number with hday | hday | hday
  · have hle := (instant_lt_of_number_lt ha ht hday).le
    simp [hday, hday.ne, hle]
  · rw [hday]
    rcases lt_trichotomy a.format.separator t.format.separator with hsep | hsep | hsep
    · simp [hsep, hsep.not_gt, hsep.ne]
    · rw [hsep]
      rcases lt_trichotomy a.time.seconds t.time.seconds with hsecond | hsecond | hsecond
      · have hle := (instant_lt_of_seconds_lt ha ht hday hsecond).le
        simp [hsecond, hsecond.ne, hle]
      · have hinstant : a.instant ≤ t.instant ↔ a.format.fraction ≤ t.format.fraction := by
          simp only [instant, ha, ht, hday, hsecond]
          constructor <;> intro h <;> linarith
        rw [hsecond, hinstant]
        simp
      · have hlt := instant_lt_of_seconds_lt ht ha hday.symm hsecond
        simp [hsecond.not_gt, hsecond.ne', hlt]
    · simp [hsep, hsep.not_gt, hsep.ne']
  · have hlt := instant_lt_of_number_lt ht ha hday
    simp [hday.not_gt, hday.ne', hlt]

/-- What becomes of an interval with such bounds: neither is misplaced, or the other one decides alone,
or both are and `t` is on one side of them. -/
def Placed (start stop t : Stamp) : Prop :=
  (Misplaced start t → ¬ Misplaced stop t → stop.instant ≤ t.instant) ∧
    (Misplaced stop t → ¬ Misplaced start t → t.instant < start.instant) ∧
    (Misplaced start t → Misplaced stop t → (start.instant ≤ t.instant ↔ stop.instant ≤ t.instant))

/-- The text puts an instant into a half-open interval, or not, as the time does. -/
theorem placed_iff {start stop : Stamp} :
    Placed start stop t ↔ (start.text ≤ t.text ∧ t.text < stop.text ↔
      start.instant ≤ t.instant ∧ t.instant < stop.instant) := by
  rw [← not_le (a := stop.text), text_le_iff, text_le_iff, ← not_le (a := stop.instant), Placed,
    ← not_le (a := start.instant)]
  unfold Misplaced
  by_cases hstart : start.written ≤ t.written <;> by_cases hstart' : start.instant ≤ t.instant <;>
    by_cases hstop : stop.written ≤ t.written <;> by_cases hstop' : stop.instant ≤ t.instant <;>
      simp [hstart, hstart', hstop, hstop']

/-! ### To the second -/

/-- The whole second of a stamp. -/
def second (s : Stamp) : ℕ := 86400 * s.date.number + s.time.seconds

/-- The stamp without its fraction, in the other format. -/
def toSecond (s : Stamp) : Stamp := { s with format := .space }

theorem text_toSecond_lt_iff : a.toSecond.text < b.toSecond.text ↔ a.second < b.second := by
  have hseconds := a.time.seconds_lt
  have hseconds' := b.time.seconds_lt
  rw [text_lt_iff]
  simp only [written, toSecond, Prod.Lex.toLex_lt_toLex, Format.tail, lt_irrefl, and_false, or_false,
    false_or, true_and, second]
  omega

theorem text_toSecond_inj : a.toSecond.text = b.toSecond.text ↔ a.second = b.second := by
  rw [eq_iff_le_not_lt, ← not_lt, text_toSecond_lt_iff, text_toSecond_lt_iff]
  omega

theorem minus_lt_of_mem_decimals {k n : ℕ} {c : Char} (h : c ∈ decimals k n) : '-' < c := by
  have hall : ∀ d : Fin 10, '-' < digit d := by decide
  induction k generalizing n with
  | zero => cases h
  | succ k ih =>
    rcases List.mem_append.1 h with hhead | hlast
    · exact ih hhead
    · exact List.mem_singleton.1 hlast ▸ hall ⟨n % 10, Nat.mod_lt n (by decide)⟩

/-- A text with a minus sign sorts before every stamp. -/
theorem minus_lt_text (t : Stamp) (rest : String) : "-" ++ rest < t.text := by
  obtain ⟨c, l, hyear⟩ := List.exists_cons_of_length_pos
    (show 0 < (decimals 4 t.date.year).length by simp)
  have hc : c ∈ decimals 4 t.date.year := hyear ▸ List.mem_cons_self
  rw [text, Date.text, hyear, String.lt_iff_toList_lt, String.toList_append]
  simp only [String.toList_ofList, List.cons_append]
  exact List.cons_lt_cons_iff.2 (Or.inl (minus_lt_of_mem_decimals hc))

theorem instant_eq (h : a.format.offset = 0) : a.instant = a.second + a.format.fraction := by
  simp [instant, second, h]

/-- In UTC a stamp is in its second. -/
theorem second_le_instant (h : a.format.offset = 0) :
    (a.second : ℚ) ≤ a.instant ∧ a.instant < a.second + 1 := by
  have hfraction := a.format.fraction_bounds
  rw [instant_eq h]
  exact ⟨by linarith [hfraction.1], by linarith [hfraction.2]⟩

/-- No stamp is before the first day. -/
theorem le_second (s : Stamp) : 86400 ≤ s.second := by
  have hday := s.date.day_pos
  unfold second Date.number
  omega

/-- In UTC the seconds come before the fractions. -/
theorem instant_lt_iff (ha : a.format.offset = 0) (hb : b.format.offset = 0) :
    a.instant < b.instant ↔
      a.second < b.second ∨ a.second = b.second ∧ a.format.fraction < b.format.fraction := by
  have hfraction := a.format.fraction_bounds
  have hfraction' := b.format.fraction_bounds
  rw [instant_eq ha, instant_eq hb]
  rcases lt_trichotomy a.second b.second with hlt | heq | hgt
  · have hnext : (a.second : ℚ) + 1 ≤ b.second := by exact_mod_cast hlt
    exact iff_of_true (by linarith [hfraction.2, hfraction'.1]) (Or.inl hlt)
  · simp [heq]
  · have hnext : (b.second : ℚ) + 1 ≤ a.second := by exact_mod_cast hgt
    refine iff_of_false (by linarith [hfraction.1, hfraction'.2]) ?_
    omega

/-! ### In UTC, as it is written -/

theorem hour_zero : 0 < 24 := by decide

theorem minute_zero : 0 < 60 := by decide

/-- The zone `+00:00`. -/
def plusZero : Zone := .offset false ⟨0, hour_zero⟩ ⟨0, minute_zero⟩

/-- In the format of SQLite, or in RFC 3339 with the zone `+00:00`. -/
def InUtc (s : Stamp) : Prop :=
  match s.format with
  | .space => True
  | .rfc3339 _ zone => zone = plusZero

instance (s : Stamp) : Decidable s.InUtc := by
  unfold InUtc
  split <;> infer_instance

theorem InUtc.offset_eq (h : a.InUtc) : a.format.offset = 0 := by
  unfold InUtc at h
  cases hformat : a.format with
  | space => rfl
  | rfc3339 fraction zone =>
    rw [hformat] at h
    dsimp only at h
    rw [h]
    rfl

theorem tail_rfc3339 (f : List (Fin 10)) (zone : Zone) : (Format.rfc3339 f zone).tail =
    (if f = [] then [] else '.' :: f.map fun d : Fin 10 => digit d.val) ++ zone.text := by
  have hdigits : (do let d ← f; pure d.val : List ℕ) = f.map Fin.val := by
    induction f with
    | nil => rfl
    | cons d f ih => simpa using ih
  unfold Format.tail
  dsimp only
  rw [hdigits, List.map_map]
  rfl

theorem plus_lt_digit (d : Fin 10) : '+' < digit d := by
  have hall : ∀ d : Fin 10, '+' < digit d := by decide
  exact hall d

/-- Decimals that are followed by a plus sign sort by the fraction they stand for. -/
theorem decimals_plus_lt {f g : List (Fin 10)} {l l' : List Char}
    (h : fractionOf f < fractionOf g) :
    (f.map fun d : Fin 10 => digit d.val) ++ '+' :: l <
      (g.map fun d : Fin 10 => digit d.val) ++ '+' :: l' := by
  induction g generalizing f with
  | nil => exact absurd h (fractionOf_bounds f).1.not_gt
  | cons e g ih =>
    cases f with
    | nil => exact List.cons_lt_cons_iff.2 (Or.inl (plus_lt_digit e))
    | cons d f =>
      rw [List.map_cons, List.map_cons, List.cons_append, List.cons_append, List.cons_lt_cons_iff]
      have hf := fractionOf_bounds f
      have hg := fractionOf_bounds g
      simp only [fractionOf] at h
      rcases Nat.lt_trichotomy d.val e.val with hlt | heq | hgt
      · exact Or.inl (digit_lt e.isLt hlt)
      · rw [heq] at h
        exact Or.inr ⟨by rw [heq], ih (by linarith)⟩
      · have hnext : (e.val : ℚ) + 1 ≤ d.val := by exact_mod_cast hgt
        linarith [hf.1, hg.2]

theorem tail_lt_of_fraction_lt (ha : a.InUtc) (hb : b.InUtc)
    (hsep : a.format.separator = b.format.separator)
    (h : a.format.fraction < b.format.fraction) : a.format.tail < b.format.tail := by
  unfold InUtc at ha hb
  cases hformat : a.format with
  | space =>
    cases hformat' : b.format with
    | space =>
      rw [hformat, hformat'] at h
      exact absurd h (lt_irrefl _)
    | rfc3339 g zone' =>
      rw [hformat, hformat'] at hsep
      cases hsep
  | rfc3339 f zone =>
    cases hformat' : b.format with
    | space =>
      rw [hformat, hformat'] at hsep
      cases hsep
    | rfc3339 g zone' =>
      rw [hformat] at ha h
      rw [hformat'] at hb h
      dsimp only [Format.fraction] at ha hb h
      have hg : g ≠ [] := by
        rintro rfl
        exact absurd h (fractionOf_bounds f).1.not_gt
      subst ha hb
      rw [tail_rfc3339, tail_rfc3339, if_neg hg]
      by_cases hf : f = []
      · rw [if_pos hf, List.nil_append]
        exact List.cons_lt_cons_iff.2 (Or.inl (by decide))
      · rw [if_neg hf, List.cons_append, List.cons_append, List.cons_lt_cons_iff]
        exact Or.inr ⟨rfl, decimals_plus_lt h⟩

/-- **Of one day and one format** stamps sort as text by their instants. -/
theorem instant_le_of_written_le (ha : a.InUtc) (hb : b.InUtc)
    (hday : a.date.number = b.date.number) (hsep : a.format.separator = b.format.separator)
    (h : a.written ≤ b.written) : a.instant ≤ b.instant := by
  by_contra hlater
  have hmis : Misplaced a b := fun hiff => hlater (hiff.1 h)
  rw [misplaced_iff ha.offset_eq hb.offset_eq] at hmis
  obtain ⟨-, ⟨hlt, -⟩ | ⟨hlt, -⟩ | ⟨-, hseconds, hnot⟩⟩ := hmis
  · exact hlt.ne hsep
  · exact hlt.ne' hsep
  · have htail : a.format.tail ≤ b.format.tail := by
      rw [written_le_iff] at h
      simpa [hday, hsep, hseconds] using h
    refine hnot (iff_of_true htail (not_lt.1 fun hfraction => ?_))
    exact htail.not_gt (tail_lt_of_fraction_lt hb ha hsep.symm hfraction)

end Stamp

end Spectral.Lib
