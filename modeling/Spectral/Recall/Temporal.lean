import Mathlib.Data.List.ReduceOption
import Spectral.Lib.Greedy
import Spectral.Lib.Numerals
import Spectral.Lib.Phrases
import Spectral.Recall.RelativeDates
import Spectral.Recall.Signals

/-!
# Phrases for dates

Phrases such as `two weeks ago` are resolved against a date.  Each rule scans the text on its own; what
is found is put in order, and what begins inside a longer match is dropped.

* `rules`, `resolveRelativeDates` — the scan; `none` where a date is out of the range of dates.
* `crosses_rules` — of two phrases that overlap, one is inside the other.
* `sound_rules` — a rule finds a date for each of its phrases, the one that is named.
* `resolveRelativeDates_spec` — what is reported, and that nothing panics (`Resolved`).
-/

namespace Spectral.Temporal

open Spectral.Lib

/-! ## Rules -/

/-- A pattern, and what its match means: the date of the words and its certainty, nothing if the match
is passed over; `none` where that panics. -/
structure Rule where
  pattern : List Phrase
  resolve : NaiveDate → List (List Char) → Option (Option (NaiveDate × Certainty))

/-- A slot for some words. -/
def oneOf (words : List String) : Slot := { words }

/-- A phrase of single words. -/
def wordsOf (words : List String) : Phrase := words.map fun w => oneOf [w]

/-- `WEEKDAY_ALT`. -/
def weekdayAlt : Slot :=
  oneOf ["monday", "mon", "tuesday", "tues", "tue", "wednesday", "wed", "thursday", "thurs", "thu",
    "friday", "fri", "saturday", "sat", "sunday", "sun"]

/-- A rule for a number of days. -/
def dayRule (pattern : List Phrase) (n : ℤ) : Rule where
  pattern := pattern
  resolve anchor _ := (addDays anchor n).map fun d => some (d, .exact)

/-- `R_DBY`: `\b(?:the\s+)?day\s+before\s+yesterday\b`. -/
def rDby : Rule :=
  dayRule [wordsOf ["the", "day", "before", "yesterday"], wordsOf ["day", "before", "yesterday"]] (-2)

/-- `R_DAT`: `\b(?:the\s+)?day\s+after\s+tomorrow\b`. -/
def rDat : Rule :=
  dayRule [wordsOf ["the", "day", "after", "tomorrow"], wordsOf ["day", "after", "tomorrow"]] 2

/-- `R_YEST`: `\byesterday\b`. -/
def rYest : Rule := dayRule [wordsOf ["yesterday"]] (-1)

/-- `R_TODAY`: `\btoday\b`. -/
def rToday : Rule where
  pattern := [wordsOf ["today"]]
  resolve anchor _ := some (some (anchor, .exact))

/-- `R_TMRW`: `\btomorrow\b`. -/
def rTmrw : Rule := dayRule [wordsOf ["tomorrow"]] 1

/-- `R_LNIGHT`: `\blast\s+night\b`. -/
def rLnight : Rule := dayRule [wordsOf ["last", "night"]] (-1)

/-- `R_TONIGHT`: `\b(?:tonight|this\s+evening)\b`. -/
def rTonight : Rule where
  pattern := [wordsOf ["tonight"], wordsOf ["this", "evening"]]
  resolve anchor _ := some (some (anchor, .exact))

/-- A count word, or digits. -/
def countSlot : Slot :=
  { digits := true
    words := ["a", "an", "one", "two", "three", "four", "five", "six", "seven", "eight", "nine",
      "ten"] }

/-- The number of a count word, or of digits; other digits than ASCII do not parse. -/
def countOf (w : List Char) : Option ℤ :=
  match String.ofList w with
  | "a" | "an" | "one" => some 1
  | "two" => some 2
  | "three" => some 3
  | "four" => some 4
  | "five" => some 5
  | "six" => some 6
  | "seven" => some 7
  | "eight" => some 8
  | "nine" => some 9
  | "ten" => some 10
  | _ => parseSigned w

/-- `R_AGO`:
`\b(\d{1,3}|a|an|one|…|ten)\s+(day|week|month|year)s?\s+ago\b`. -/
def rAgo : Rule where
  pattern :=
    [[countSlot, oneOf ["days", "day", "weeks", "week", "months", "month", "years", "year"],
      oneOf ["ago"]]]
  resolve anchor words :=
    match countOf (words.getD 0 []) with
    | none => some none
    | some n =>
      match String.ofList (words.getD 1 []) with
      | "day" | "days" => (addDays anchor (-n)).map fun d => some (d, .exact)
      | "week" | "weeks" => (addDays anchor (-(7 * n))).map fun d => some (d, .exact)
      | "month" | "months" => (shiftMonths anchor (-n)).map fun d => some (d, .ambiguous)
      | _ => (shiftMonths anchor (-n * 12)).map fun d => some (d, .ambiguous)

/-- A rule for the weekday at a place of the phrase. -/
def weekdayRule (pattern : List Phrase) (weekdayAt : List (List Char) → List Char)
    (seek : NaiveDate → Weekday → Option NaiveDate) (certainty : Certainty) : Rule where
  pattern := pattern
  resolve anchor words :=
    match weekdayFrom (String.ofList (weekdayAt words)) with
    | none => some none
    | some wd => (seek anchor wd).map fun d => some (d, certainty)

/-- `R_WD_BEFORE`: `\bthe\s+(WEEKDAY_ALT)\s+before\b`. -/
def rWdBefore : Rule :=
  weekdayRule [[oneOf ["the"], weekdayAlt, oneOf ["before"]]] (·.getD 1 []) previousWeekday .exact

/-- `R_WD_LAST`: `\b(?:last|past)\s+(WEEKDAY_ALT)\b`. -/
def rWdLast : Rule :=
  weekdayRule [[oneOf ["last", "past"], weekdayAlt]] (·.getLastD []) previousWeekday .ambiguous

/-- `R_WD_NEXT`: `\b(?:next|this\s+coming)\s+(WEEKDAY_ALT)\b`. -/
def rWdNext : Rule :=
  weekdayRule [[oneOf ["next"], weekdayAlt], [oneOf ["this"], oneOf ["coming"], weekdayAlt]]
    (·.getLastD []) nextWeekday .ambiguous

/-- `R_LWKND`: `\b(?:last|past)\s+weekend\b`. -/
def rLwknd : Rule where
  pattern := [[oneOf ["last", "past"], oneOf ["weekend"]]]
  resolve anchor _ := (previousWeekday anchor .sat).map fun d => some (d, .ambiguous)

/-- `R_TWKND`: `\b(?:this|next)\s+weekend\b`. -/
def rTwknd : Rule where
  pattern := [[oneOf ["this", "next"], oneOf ["weekend"]]]
  resolve anchor _ := (nextWeekday anchor .sat).map fun d => some (d, .ambiguous)

/-- `R_PERIOD`: `\b(last|next|this)\s+(week|month|year)\b`. -/
def rPeriod : Rule where
  pattern := [[oneOf ["last", "next", "this"], oneOf ["week", "month", "year"]]]
  resolve anchor words :=
    let resolved :=
      match String.ofList (words.getD 0 []), String.ofList (words.getD 1 []) with
      | "last", "week" => addDays anchor (-7)
      | "next", "week" => addDays anchor 7
      | "this", "week" => some anchor
      | "last", "month" => shiftMonths anchor (-1)
      | "next", "month" => shiftMonths anchor 1
      | "this", "month" => some anchor
      | "last", "year" => shiftMonths anchor (-12)
      | "next", "year" => shiftMonths anchor 12
      | _, _ => some anchor
    resolved.map fun d => some (d, .ambiguous)

/-- The rules, in the order they scan the text. -/
def rules : List Rule :=
  [rDby, rDat, rYest, rToday, rTmrw, rLnight, rTonight, rAgo, rWdBefore, rWdLast, rWdNext, rLwknd,
    rTwknd, rPeriod]

/-! ## The scan -/

/-- `Hit`. -/
structure Hit where
  start : ℕ
  stop : ℕ
  phrase : String
  resolved : NaiveDate
  certainty : Certainty

/-- `ResolvedDate`. -/
structure ResolvedDate where
  phrase : String
  offset : ℕ
  resolved : NaiveDate
  certainty : Certainty
  deriving DecidableEq

/-- `add`. -/
def hitOf (m : Match) (p : NaiveDate × Certainty) : Hit :=
  ⟨m.start, m.stop, String.ofList m.text, p.1, p.2⟩

/-- The earlier start first, and of those with one start the longer hit. -/
def Hit.Before (a b : Hit) : Prop :=
  a.start < b.start ∨ a.start = b.start ∧ b.stop - b.start ≤ a.stop - a.start

instance : DecidableRel Hit.Before := fun _ _ => inferInstanceAs (Decidable (_ ∨ _))

section

variable (cls : CharClasses) (t : List Char) (anchor : NaiveDate)

/-- What a rule adds. -/
def ruleHits (r : Rule) : Option (List Hit) :=
  ((findIter cls r.pattern t).mapM fun m =>
    (r.resolve anchor m.words).map fun o => o.map (hitOf m)).map List.reduceOption

/-- What the rules find. -/
def allHits : Option (List Hit) := (rules.mapM (ruleHits cls t anchor)).map List.flatten

/-- The hits that are reported: in their order, those that begin behind the last one. -/
def keptHits (hits : List Hit) : List Hit :=
  sweep Hit.start Hit.stop 0 (hits.insertionSort Hit.Before)

/-- What is reported. -/
def report (hits : List Hit) : List ResolvedDate :=
  (keptHits hits).map fun h => ⟨h.phrase, h.start, h.resolved, h.certainty⟩

end

/-- `resolve_relative_dates`. -/
def resolveRelativeDates (u : CharTables) (cls : CharClasses) (text : String) (anchor : NaiveDate) :
    Option (List ResolvedDate) :=
  (allHits cls (u.toLowercase text.toList) anchor).map report

/-! ## What the patterns share -/

theorem plain_rules : ∀ r ∈ rules, ∀ ph ∈ r.pattern, ∀ s ∈ ph, s.plain = true := by decide +kernel

/-- **No phrase crosses another one.** -/
theorem crosses_rules : ∀ r ∈ rules, ∀ r' ∈ rules, ∀ ph ∈ r.pattern, ∀ ph' ∈ r'.pattern,
    crosses ph ph' = false := by decide +kernel

/-- No phrase has what is read for this one inside it, but for those that are all of it. -/
def isAlone (ph : Phrase) : Bool :=
  rules.all fun r => r.pattern.all fun ph' => (List.range ph'.length).all fun k =>
    !startsWith (ph'.drop k) ph || decide (k = 0 ∧ ph'.length = ph.length)

theorem wordy_or_isAlone : ∀ r ∈ rules, (∀ ph ∈ r.pattern, wordy ph = true) ∨
    ∀ ph ∈ r.pattern, isAlone ph = true := by decide +kernel

/-! ## Months and years -/

/-- The months a phrase names; nothing for a phrase of days and weeks. -/
def monthsOf (words : List (List Char)) : Option ℤ :=
  match words.map String.ofList with
  | [_, "month", "ago"] | [_, "months", "ago"] => (countOf (words.getD 0 [])).map fun n => -n
  | [_, "year", "ago"] | [_, "years", "ago"] => (countOf (words.getD 0 [])).map fun n => -n * 12
  | ["last", "month"] => some (-1)
  | ["this", "month"] | ["this", "year"] => some 0
  | ["next", "month"] => some 1
  | ["last", "year"] => some (-12)
  | ["next", "year"] => some 12
  | _ => none

/-- None of the phrases names months. -/
def monthless (pattern : List Phrase) : Bool :=
  pattern.all fun ph => wordy ph && (spellings ph).all fun words => (monthsOf words).isNone

/-! ## Each rule -/

/-- The digits are those of ASCII. -/
def AsciiDigits (cls : CharClasses) (words : List (List Char)) : Prop :=
  ∀ w ∈ words, ∀ c ∈ w, cls.digit c = true → c.isDigit = true

variable {cls : CharClasses} {anchor : NaiveDate} {r : Rule} {pattern : List Phrase}
  {w : List Char} {words : List (List Char)} {n : ℤ} {certainty : Certainty}

/-- A date was found; if the words name months, it is the one so many months from the anchor. -/
def Found (anchor : NaiveDate) (words : List (List Char))
    (found : Option (Option (NaiveDate × Certainty))) : Prop :=
  ∃ p, found = some (some p) ∧ ∀ n, monthsOf words = some n → MonthsFrom anchor n p.1

theorem found_of_monthless (p : NaiveDate × Certainty) (hnone : monthsOf words = none) :
    Found anchor words (some (some p)) := by
  refine ⟨p, rfl, fun n hn => ?_⟩
  rw [hnone] at hn
  cases hn

theorem found_addDays (certainty : Certainty) (hyear : anchor.year.natAbs ≤ 200000)
    (hn : n.natAbs ≤ 12000) (hnone : monthsOf words = none) :
    Found anchor words ((addDays anchor n).map fun d => some (d, certainty)) := by
  rw [addDays_eq_some (by omega)]
  exact found_of_monthless _ hnone

theorem found_shiftMonths (certainty : Certainty) (hyear : anchor.year.natAbs ≤ 200000)
    (hn : n.natAbs ≤ 12000) (hname : monthsOf words = some n) :
    Found anchor words ((shiftMonths anchor n).map fun d => some (d, certainty)) := by
  obtain ⟨d, hd, hfrom⟩ := exists_shiftMonths hyear hn
  rw [hd]
  refine ⟨(d, certainty), rfl, fun n' hn' => ?_⟩
  obtain rfl := Option.some.inj (hname.symm.trans hn')
  exact hfrom

theorem found_anchor (certainty : Certainty) (hzero : ∀ n, monthsOf words = some n → n = 0) :
    Found anchor words (some (some (anchor, certainty))) := by
  refine ⟨_, rfl, fun n hn => ?_⟩
  rw [hzero n hn]
  exact monthsFrom_zero anchor

/-- What a rule does with the words of its phrases: it finds a date, unless there are digits other than
those of ASCII. -/
def Sound (cls : CharClasses) (anchor : NaiveDate) (r : Rule) : Prop :=
  ∀ ph ∈ r.pattern, ∀ words, List.Forall₂ (Slot.Admits cls) ph words →
    Found anchor words (r.resolve anchor words) ∨
      r.resolve anchor words = some none ∧ ¬ AsciiDigits cls words ∧ monthsOf words = none

theorem sound_of_wordy (hwordy : ∀ ph ∈ r.pattern, wordy ph = true)
    (h : ∀ ph ∈ r.pattern, ∀ words ∈ spellings ph, Found anchor words (r.resolve anchor words)) :
    Sound cls anchor r := by
  intro ph hph words hwords
  exact Or.inl (h ph hph words (mem_spellings (hwordy ph hph) hwords))

theorem sound_of_monthless (hmonthless : monthless r.pattern = true)
    (h : ∀ ph ∈ r.pattern, ∀ words ∈ spellings ph, monthsOf words = none →
      Found anchor words (r.resolve anchor words)) : Sound cls anchor r := by
  have hphrases : ∀ ph ∈ r.pattern,
      wordy ph = true ∧ ∀ words ∈ spellings ph, monthsOf words = none := by
    intro ph hph
    obtain ⟨hwordy, hnone⟩ := Bool.and_eq_true_iff.1 (List.all_eq_true.1 hmonthless ph hph)
    refine ⟨hwordy, fun words hwords => ?_⟩
    exact Option.isNone_iff_eq_none.1 (List.all_eq_true.1 hnone words hwords)
  refine sound_of_wordy (fun ph hph => (hphrases ph hph).1) fun ph hph words hwords => ?_
  exact h ph hph words hwords ((hphrases ph hph).2 words hwords)

/-- A rule for a number of days. -/
theorem sound_dayRule (hyear : anchor.year.natAbs ≤ 200000) (hmonthless : monthless pattern = true)
    (hn : n.natAbs ≤ 2) : Sound cls anchor (dayRule pattern n) :=
  sound_of_monthless hmonthless fun _ _ _ _ hnone => found_addDays .exact hyear (by omega) hnone

/-- A rule for the date itself. -/
theorem sound_anchor (hmonthless : monthless r.pattern = true)
    (h : ∀ words, r.resolve anchor words = some (some (anchor, certainty))) : Sound cls anchor r := by
  refine sound_of_monthless hmonthless fun ph _ words _ hnone => ?_
  rw [h]
  exact found_of_monthless _ hnone

theorem found_seek {found : Option NaiveDate} (hfound : ∃ d, found = some d)
    (hnone : monthsOf words = none) : Found anchor words (found.map fun d => some (d, certainty)) := by
  obtain ⟨d, rfl⟩ := hfound
  exact found_of_monthless _ hnone

/-- A rule for a weekday. -/
theorem sound_weekdayRule {weekdayAt : List (List Char) → List Char}
    {seek : NaiveDate → Weekday → Option NaiveDate} (hmonthless : monthless pattern = true)
    (hweekday : ∀ ph ∈ pattern, ∀ words ∈ spellings ph,
      (weekdayFrom (String.ofList (weekdayAt words))).isSome)
    (hseek : ∀ wd, ∃ d, seek anchor wd = some d) :
    Sound cls anchor (weekdayRule pattern weekdayAt seek certainty) := by
  refine sound_of_monthless hmonthless fun ph hph words hwords hnone => ?_
  obtain ⟨wd, hwd⟩ := Option.isSome_iff_exists.1 (hweekday ph hph words hwords)
  simp only [weekdayRule, hwd]
  exact found_seek (hseek wd) hnone

theorem sound_rPeriod (hyear : anchor.year.natAbs ≤ 200000) : Sound cls anchor rPeriod := by
  have hmem : ∀ ph ∈ rPeriod.pattern, ∀ words ∈ spellings ph,
      words ∈ ["last", "next", "this"].flatMap fun w => ["week", "month", "year"].map fun unit =>
        [w.toList, unit.toList] := by decide +kernel
  refine sound_of_wordy (by decide) fun ph hph words hwords => ?_
  have hwords := hmem ph hph words hwords
  simp only [List.flatMap_cons, List.flatMap_nil, List.map_cons, List.map_nil, List.cons_append,
    List.nil_append, List.mem_cons, List.not_mem_nil, or_false] at hwords
  -- the nine phrases
  rcases hwords with rfl | rfl | rfl | rfl | rfl | rfl | rfl | rfl | rfl
  · simpa [rPeriod] using found_addDays .ambiguous hyear (n := -7) (by decide) (by simp [monthsOf])
  · simpa [rPeriod] using found_shiftMonths .ambiguous hyear (n := -1) (by decide) (by simp [monthsOf])
  · simpa [rPeriod] using found_shiftMonths .ambiguous hyear (n := -12) (by decide) (by simp [monthsOf])
  · simpa [rPeriod] using found_addDays .ambiguous hyear (n := 7) (by decide) (by simp [monthsOf])
  · simpa [rPeriod] using found_shiftMonths .ambiguous hyear (n := 1) (by decide) (by simp [monthsOf])
  · simpa [rPeriod] using found_shiftMonths .ambiguous hyear (n := 12) (by decide) (by simp [monthsOf])
  · simpa [rPeriod] using found_anchor .ambiguous (by simp [monthsOf])
  · simpa [rPeriod] using found_anchor .ambiguous (by simp [monthsOf])
  · simpa [rPeriod] using found_anchor .ambiguous (by simp [monthsOf])

/-! ## A count ago -/

theorem countOf_eq_or (w : List Char) :
    (∃ n : ℤ, countOf w = some n ∧ n.natAbs ≤ 10) ∨ countOf w = parseSigned w := by
  unfold countOf
  split
  all_goals first
    | exact Or.inr rfl
    | exact Or.inl ⟨_, rfl, by decide⟩

theorem countOf_spec (h : countSlot.Admits cls w) :
    (∃ n : ℤ, countOf w = some n ∧ n.natAbs < 1000) ∨
      countOf w = none ∧ ∃ c ∈ w, cls.digit c = true ∧ c.isDigit = false := by
  have hwords : ∀ v ∈ countSlot.words, ∃ n : ℤ, countOf v.toList = some n ∧ n.natAbs < 1000 := by
    have hsome : ∀ v ∈ countSlot.words, (countOf v.toList).any fun n => n.natAbs < 1000 := by
      decide +kernel
    intro v hv
    simpa [Option.any_eq_true] using hsome v hv
  rcases h with ⟨-, hne, hlen, hdigits⟩ | ⟨v, hv, rfl⟩
  · rcases countOf_eq_or w with ⟨n, hn, hle⟩ | hparse
    · exact Or.inl ⟨n, hn, by omega⟩
    · by_cases hascii : w.all Char.isDigit = true
      · rw [parseSigned_of_digits hne hascii] at hparse
        refine Or.inl ⟨_, hparse, ?_⟩
        rw [Int.natAbs_natCast]
        exact lt_of_lt_of_le (numeral_lt_pow hascii) (Nat.pow_le_pow_right (by decide) hlen)
      · cases hcount : countOf w with
        | some n =>
          have hbound := natAbs_parseSigned_lt (hparse.symm.trans hcount)
          exact Or.inl ⟨n, rfl, lt_of_lt_of_le hbound (Nat.pow_le_pow_right (by decide) hlen)⟩
        | none =>
          obtain ⟨c, hc, hnot⟩ := List.all_eq_false.1 (Bool.not_eq_true _ ▸ hascii)
          exact Or.inr ⟨rfl, c, hc, List.all_eq_true.1 hdigits c hc, Bool.not_eq_true _ ▸ hnot⟩
  · exact Or.inl (hwords v hv)

/-- A rule that goes by a count. -/
theorem found_or_of_count (h : countSlot.Admits cls w) (hw : w ∈ words)
    {resolve : ℤ → Option (Option (NaiveDate × Certainty))}
    (hnone : countOf w = none → monthsOf words = none)
    (hfound : ∀ n, countOf w = some n → n.natAbs < 1000 → Found anchor words (resolve n))
    {resolved : Option (Option (NaiveDate × Certainty))}
    (heq : resolved = match countOf w with
      | none => some none
      | some n => resolve n) :
    Found anchor words resolved ∨
      resolved = some none ∧ ¬ AsciiDigits cls words ∧ monthsOf words = none := by
  rcases countOf_spec h with ⟨n, hn, hlt⟩ | ⟨hcount, c, hc, hdigit, hnot⟩
  · rw [hn] at heq
    exact Or.inl (heq ▸ hfound n hn hlt)
  · rw [hcount] at heq
    refine Or.inr ⟨heq, fun hascii => ?_, hnone hcount⟩
    rw [hascii w hw c hc hdigit] at hnot
    cases hnot

theorem sound_rAgo (hyear : anchor.year.natAbs ≤ 200000) : Sound cls anchor rAgo := by
  intro ph hph words hwords
  obtain rfl := List.mem_singleton.1 hph
  obtain ⟨count, rest, hcount, hrest, rfl⟩ := List.forall₂_cons_left_iff.1 hwords
  obtain ⟨unit, rest', hunit, hrest', rfl⟩ := List.forall₂_cons_left_iff.1 hrest
  obtain ⟨ago, rest'', hago, hrest'', rfl⟩ := List.forall₂_cons_left_iff.1 hrest'
  obtain rfl := List.forall₂_nil_left_iff.1 hrest''
  obtain ⟨v, hv, rfl⟩ := hunit.resolve_left fun h => nomatch h.1
  obtain ⟨v', hv', rfl⟩ := hago.resolve_left fun h => nomatch h.1
  obtain rfl := List.mem_singleton.1 hv'
  simp only [oneOf, List.mem_cons, List.not_mem_nil, or_false] at hv
  -- the units, each in the plural and in the singular
  rcases hv with rfl | rfl | rfl | rfl | rfl | rfl | rfl | rfl
  iterate 2
    exact found_or_of_count hcount List.mem_cons_self (by simp [monthsOf])
      (fun n _ hn => found_addDays (n := -n) .exact hyear (by omega) (by simp [monthsOf]))
      (by simp [rAgo])
  iterate 2
    exact found_or_of_count hcount List.mem_cons_self (by simp [monthsOf])
      (fun n _ hn => found_addDays (n := -(7 * n)) .exact hyear (by omega) (by simp [monthsOf]))
      (by simp [rAgo])
  iterate 2
    exact found_or_of_count hcount List.mem_cons_self (by simp [monthsOf])
      (fun n hcount hn => found_shiftMonths (n := -n) .ambiguous hyear (by omega)
        (by simp [monthsOf, hcount]))
      (by simp [rAgo])
  iterate 2
    exact found_or_of_count hcount List.mem_cons_self (by simp [monthsOf])
      (fun n hcount hn => found_shiftMonths (n := -n * 12) .ambiguous hyear (by omega)
        (by simp [monthsOf, hcount]))
      (by simp [rAgo])

/-- **Every rule is sound.** -/
theorem sound_rules (hyear : anchor.year.natAbs ≤ 200000) : ∀ r ∈ rules, Sound cls anchor r := by
  have hprevious : ∀ wd, ∃ d, previousWeekday anchor wd = some d := fun wd =>
    (exists_previousWeekday hyear wd).imp fun _ h => h.1
  have hnext : ∀ wd, ∃ d, nextWeekday anchor wd = some d := fun wd =>
    (exists_nextWeekday hyear wd).imp fun _ h => h.1
  simp only [rules, List.forall_mem_cons]
  refine ⟨sound_dayRule hyear (by decide +kernel) (by decide),
    sound_dayRule hyear (by decide +kernel) (by decide),
    sound_dayRule hyear (by decide +kernel) (by decide), sound_anchor (by decide +kernel) fun _ => rfl,
    sound_dayRule hyear (by decide +kernel) (by decide),
    sound_dayRule hyear (by decide +kernel) (by decide), sound_anchor (by decide +kernel) fun _ => rfl,
    sound_rAgo hyear, sound_weekdayRule (by decide +kernel) (by decide +kernel) hprevious,
    sound_weekdayRule (by decide +kernel) (by decide +kernel) hprevious,
    sound_weekdayRule (by decide +kernel) (by decide +kernel) hnext,
    sound_of_monthless (by decide +kernel) fun _ _ _ _ hnone => found_seek (hprevious .sat) hnone,
    sound_of_monthless (by decide +kernel) fun _ _ _ _ hnone => found_seek (hnext .sat) hnone,
    sound_rPeriod hyear, fun _ h => absurd h List.not_mem_nil⟩

/-! ## The hits -/

theorem exists_mapM {α β : Type*} {f : α → Option β} {l : List α} (h : ∀ a ∈ l, ∃ b, f a = some b) :
    ∃ l', l.mapM f = some l' ∧ ∀ b, b ∈ l' ↔ ∃ a ∈ l, f a = some b := by
  induction l with
  | nil => exact ⟨[], rfl, fun b => by simp⟩
  | cons a l ih =>
    obtain ⟨b, hb⟩ := h a List.mem_cons_self
    obtain ⟨l', hl', hmem⟩ := ih fun a ha => h a (List.mem_cons_of_mem _ ha)
    refine ⟨b :: l', by rw [List.mapM_cons, hb, hl']; rfl, fun b' => ?_⟩
    simp [hmem, hb, eq_comm]

variable {t : List Char} {m f : Match} {ph : Phrase}

/-- The scan of the rule finds the match, and this is its hit. -/
def IsHit (cls : CharClasses) (t : List Char) (anchor : NaiveDate) (r : Rule) (m : Match) (h : Hit) :
    Prop :=
  m ∈ findIter cls r.pattern t ∧ ∃ p, r.resolve anchor m.words = some (some p) ∧ h = hitOf m p

theorem occurs_of_mem_findIter (h : m ∈ findIter cls pattern t) : Occurs cls pattern t m :=
  of_mem_scan h

/-- The words of a match are for a phrase of the rule. -/
theorem exists_admits (hr : r ∈ rules) (h : Occurs cls r.pattern t m) :
    ∃ ph ∈ r.pattern, List.Forall₂ (Slot.Admits cls) ph m.words ∧ m.text ≠ [] := by
  obtain ⟨ph, hph, rest, -, -, -, hwords, htokens, hspells⟩ := h.spelled (plain_rules r hr)
  exact ⟨ph, hph, hwords, hspells.ne_nil htokens⟩

theorem exists_ruleHits (cls : CharClasses) (t : List Char) (hyear : anchor.year.natAbs ≤ 200000)
    (hr : r ∈ rules) :
    ∃ hits, ruleHits cls t anchor r = some hits ∧ ∀ h, h ∈ hits ↔ ∃ m, IsHit cls t anchor r m h := by
  obtain ⟨found, hfound, hmem⟩ := exists_mapM (l := findIter cls r.pattern t)
    (f := fun m => (r.resolve anchor m.words).map fun o => o.map (hitOf m)) fun m hm => by
      obtain ⟨ph, hph, hwords, -⟩ := exists_admits hr (occurs_of_mem_findIter hm)
      rcases sound_rules hyear r hr ph hph m.words hwords with ⟨p, hp, -⟩ | ⟨hnone, -⟩
      · exact ⟨some (hitOf m p), by rw [hp]; rfl⟩
      · exact ⟨none, by rw [hnone]; rfl⟩
  refine ⟨found.reduceOption, by rw [ruleHits, hfound]; rfl, fun h => ?_⟩
  rw [List.reduceOption_mem_iff, hmem]
  simp only [IsHit, Option.map_eq_some_iff]
  constructor
  · rintro ⟨m, hm, -, hresolve, p, rfl, rfl⟩
    exact ⟨m, hm, p, hresolve, rfl⟩
  · rintro ⟨m, hm, p, hresolve, rfl⟩
    exact ⟨m, hm, _, hresolve, p, rfl, rfl⟩

/-- **No rule panics**, and the hits are those of the rules. -/
theorem exists_allHits (cls : CharClasses) (t : List Char) (hyear : anchor.year.natAbs ≤ 200000) :
    ∃ hits, allHits cls t anchor = some hits ∧
      ∀ h, h ∈ hits ↔ ∃ r ∈ rules, ∃ m, IsHit cls t anchor r m h := by
  obtain ⟨found, hfound, hmem⟩ := exists_mapM (l := rules) (f := ruleHits cls t anchor)
    fun r hr => (exists_ruleHits cls t hyear hr).imp fun _ h => h.1
  refine ⟨found.flatten, by rw [allHits, hfound]; rfl, fun h => ?_⟩
  rw [List.mem_flatten]
  constructor
  · rintro ⟨hits, hhits, hh⟩
    obtain ⟨r, hr, hrule⟩ := (hmem hits).1 hhits
    obtain ⟨hits', hrule', hmem'⟩ := exists_ruleHits cls t hyear hr
    obtain rfl := Option.some.inj (hrule.symm.trans hrule')
    exact ⟨r, hr, (hmem' h).1 hh⟩
  · rintro ⟨r, hr, m, hm⟩
    obtain ⟨hits, hrule, hmem'⟩ := exists_ruleHits cls t hyear hr
    exact ⟨hits, (hmem hits).2 ⟨r, hr, hrule⟩, (hmem' h).2 ⟨m, hm⟩⟩

/-- **A phrase that is alone** is all of any match it is inside of. -/
theorem eq_of_isAlone {r' : Rule} (hr : r ∈ rules) (hr' : r' ∈ rules) (h : Occurs cls r.pattern t m)
    (h' : Occurs cls r'.pattern t f) (hinside : m.Inside f) (hph : ph ∈ r.pattern)
    (hwords : List.Forall₂ (Slot.Admits cls) ph m.words) (halone : isAlone ph = true) :
    f.words = m.words ∧ m.before = f.before ∧ m.text = f.text := by
  obtain ⟨ph', hph', hwords', -⟩ := exists_admits hr' h'
  obtain ⟨-, -, -, htext⟩ := exists_admits hr h
  obtain ⟨k, u, v, hbefore, -, hk, hbegins, hzero⟩ := id hinside
  have hstarts : startsWith (ph'.drop k) ph = true :=
    startsWith_of_prefix (fun s hs => plain_rules r' hr' ph' hph' s (List.mem_of_mem_drop hs))
      (plain_rules r hr ph hph) (List.forall₂_drop k hwords') hwords hbegins
  have hcheck := List.all_eq_true.1 (List.all_eq_true.1 (List.all_eq_true.1 halone r' hr') ph' hph') k
    (List.mem_range.2 (hwords'.length_eq ▸ hk))
  rw [hstarts, Bool.not_true, Bool.false_or, decide_eq_true_eq] at hcheck
  obtain ⟨rfl, hlen⟩ := hcheck
  obtain rfl := hzero.1 rfl
  rw [List.append_nil] at hbefore
  have hsame : f.words = m.words := by
    refine (hbegins.eq_of_length ?_).symm
    rw [List.drop_zero, ← hwords.length_eq, ← hwords'.length_eq, hlen]
  have hback : f.Inside m := by
    refine inside_of_overlap (plain_rules r hr) (plain_rules r' hr') (crosses_rules r hr r' hr') h h'
      ?_ ?_
    · rw [Match.start, Match.start, hbefore]
    · rw [Match.start, Match.stop, hbefore]
      exact Nat.lt_add_of_pos_right (utf8Len_pos htext)
  exact ⟨hsame, hinside.antisymm hback⟩

/-! ## What is reported -/

variable {hits : List Hit} {h : Hit}

/-- **A match that has a date** is reported, or it is inside one that is. -/
theorem exists_kept (hyear : anchor.year.natAbs ≤ 200000)
    (hhits : ∀ h, h ∈ hits ↔ ∃ r ∈ rules, ∃ m, IsHit cls t anchor r m h) (hr : r ∈ rules)
    (hm : Occurs cls r.pattern t m) (hfound : Found anchor m.words (r.resolve anchor m.words)) :
    ∃ r' ∈ rules, ∃ f, m.Inside f ∧ ∃ h ∈ keptHits hits, IsHit cls t anchor r' f h := by
  obtain ⟨f, hf, hoccurs, hinside⟩ :=
    exists_mem_findIter (plain_rules r hr) (crosses_rules r hr r hr) hm
  obtain ⟨ph, hph, hwords, -⟩ := exists_admits hr hoccurs
  -- the scan's match has a date as well
  have hdate : ∃ p, r.resolve anchor f.words = some (some p) := by
    rcases wordy_or_isAlone r hr with hwordy | halone
    · rcases sound_rules hyear r hr ph hph f.words hwords with ⟨p, hp, -⟩ | ⟨-, hascii, -⟩
      · exact ⟨p, hp⟩
      · refine absurd (fun w hw c hc hdigit => ?_) hascii
        rw [not_digit_of_wordy (plain_rules r hr ph hph) (hwordy ph hph) hwords hw hc] at hdigit
        cases hdigit
    · obtain ⟨ph', hph', hwords', -⟩ := exists_admits hr hm
      obtain ⟨hsame, -⟩ := eq_of_isAlone hr hr hm hoccurs hinside hph' hwords' (halone ph' hph')
      obtain ⟨p, hp, -⟩ := hfound
      exact ⟨p, hsame ▸ hp⟩
  obtain ⟨p, hp⟩ := hdate
  have hmem : hitOf f p ∈ hits := (hhits _).2 ⟨r, hr, f, hf, p, hp, rfl⟩
  have hsorted : (hits.insertionSort Hit.Before).Pairwise fun a b => a.start ≤ b.start := by
    have : Std.Total Hit.Before := ⟨fun a b => by unfold Hit.Before; omega⟩
    have : IsTrans Hit Hit.Before := ⟨fun a b c => by unfold Hit.Before; omega⟩
    refine (List.pairwise_insertionSort Hit.Before hits).imp fun {a b} hbefore => ?_
    unfold Hit.Before at hbefore
    omega
  have hkept : (hitOf f p).start < 0 ∨ ∃ h ∈ keptHits hits, h.start ≤ (hitOf f p).start ∧
      (h = hitOf f p ∨ (hitOf f p).start < h.stop) :=
    exists_mem_sweep hsorted ((List.mem_insertionSort _).2 hmem)
  rcases hkept with hlt | ⟨h, hkept, hle, heq | hlt⟩
  · exact absurd hlt (Nat.not_lt_zero _)
  · exact ⟨r, hr, f, hinside, h, hkept, hf, p, hp, heq⟩
  · obtain ⟨r', hr', f', hf', p', hp', heq⟩ := (hhits h).1
      ((List.mem_insertionSort _).1 (sublist_sweep.mem hkept))
    have haround : f.Inside f' := by
      refine inside_of_overlap (plain_rules r' hr') (plain_rules r hr) (crosses_rules r' hr' r hr)
        (occurs_of_mem_findIter hf') hoccurs ?_ ?_
      · rwa [heq] at hle
      · rwa [heq] at hlt
    exact ⟨r', hr', f', hinside.trans haround, h, hkept, hf', p', hp', heq⟩

/-- What there is to say of the dates that are reported of a text. -/
structure Resolved (cls : CharClasses) (t : List Char) (anchor : NaiveDate) (out : List ResolvedDate) :
    Prop where
  ordered : out.Pairwise fun x y => x.offset < y.offset
  disjoint : out.Pairwise fun x y => x.offset + x.phrase.utf8ByteSize ≤ y.offset
  matched : ∀ x ∈ out, ∃ r ∈ rules, ∃ m, Occurs cls r.pattern t m ∧ x.offset = m.start ∧
    x.phrase = String.ofList m.text ∧ r.resolve anchor m.words = some (some (x.resolved, x.certainty))
  covers : ∀ r ∈ rules, ∀ m, Occurs cls r.pattern t m → AsciiDigits cls m.words →
    ∃ x ∈ out, x.offset ≤ m.start ∧ m.stop ≤ x.offset + x.phrase.utf8ByteSize
  months : ∀ r ∈ rules, ∀ m, Occurs cls r.pattern t m → ∀ n, monthsOf m.words = some n →
    ∃ x ∈ out, x.offset = m.start ∧ x.phrase = String.ofList m.text ∧ MonthsFrom anchor n x.resolved

theorem isAlone_or_monthless : ∀ r ∈ rules, ∀ ph ∈ r.pattern, isAlone ph = true ∨
    monthless [ph] = true := by decide +kernel

/-- A phrase that names months is alone. -/
theorem isAlone_of_monthsOf (hr : r ∈ rules) (hph : ph ∈ r.pattern)
    (hwords : List.Forall₂ (Slot.Admits cls) ph words) (hn : monthsOf words = some n) :
    isAlone ph = true := by
  refine (isAlone_or_monthless r hr ph hph).resolve_right fun hmonthless => ?_
  obtain ⟨hwordy, hnone⟩ :=
    Bool.and_eq_true_iff.1 (List.all_eq_true.1 hmonthless ph List.mem_cons_self)
  have hisNone := List.all_eq_true.1 hnone words (mem_spellings hwordy hwords)
  rw [hn] at hisNone
  cases hisNone

/-- Where a hit ends. -/
theorem IsHit.stop_eq (hh : IsHit cls t anchor r m h) :
    h.stop = h.start + h.phrase.utf8ByteSize := by
  obtain ⟨-, p, -, rfl⟩ := hh
  rw [hitOf, utf8ByteSize_ofList]
  rfl

/-- The hits that are reported begin where those before have ended. -/
theorem pairwise_kept (hhits : ∀ h, h ∈ hits ↔ ∃ r ∈ rules, ∃ m, IsHit cls t anchor r m h) :
    (keptHits hits).Pairwise fun a b =>
      a.start < b.start ∧ a.start + a.phrase.utf8ByteSize ≤ b.start := by
  have hspan : ∀ h ∈ hits, h.stop = h.start + h.phrase.utf8ByteSize ∧ h.start < h.stop := by
    intro h hh
    obtain ⟨r, hr, m, hm⟩ := (hhits h).1 hh
    obtain ⟨-, -, -, hne⟩ := exists_admits hr (occurs_of_mem_findIter hm.1)
    refine ⟨hm.stop_eq, ?_⟩
    obtain ⟨-, p, -, rfl⟩ := hm
    exact Nat.lt_add_of_pos_right (utf8Len_pos hne)
  have hmem : ∀ h ∈ keptHits hits, h ∈ hits := fun h hh =>
    (List.mem_insertionSort _).1 (sublist_sweep.mem hh)
  have hbehind : (keptHits hits).Pairwise fun a b => a.stop ≤ b.start :=
    (pairwise_sweep fun h hh => (hspan h ((List.mem_insertionSort _).1 hh)).2.le).2
  refine hbehind.imp_of_mem fun {a b} ha _ hle => ?_
  obtain ⟨hstop, hlt⟩ := hspan a (hmem a ha)
  exact ⟨lt_of_lt_of_le hlt hle, hstop ▸ hle⟩

/-- **What matches** is inside a phrase that is reported. -/
theorem exists_report_around (hyear : anchor.year.natAbs ≤ 200000)
    (hhits : ∀ h, h ∈ hits ↔ ∃ r ∈ rules, ∃ m, IsHit cls t anchor r m h) (hr : r ∈ rules)
    (hm : Occurs cls r.pattern t m) (hascii : AsciiDigits cls m.words) :
    ∃ x ∈ report hits, x.offset ≤ m.start ∧ m.stop ≤ x.offset + x.phrase.utf8ByteSize := by
  obtain ⟨ph, hph, hwords, -⟩ := exists_admits hr hm
  have hfound := (sound_rules hyear r hr ph hph m.words hwords).resolve_right fun h => h.2.1 hascii
  obtain ⟨r', -, f, hinside, h, hh, hhit⟩ := exists_kept hyear hhits hr hm hfound
  obtain ⟨hstart, hstop⟩ := hinside.span
  have hend := hhit.stop_eq
  obtain ⟨-, p, -, rfl⟩ := hhit
  exact ⟨_, List.mem_map_of_mem hh, hstart, hend ▸ hstop⟩

/-- **A phrase that names months** is reported itself, with the date that lies so many months from the
anchor. -/
theorem exists_report_months (hyear : anchor.year.natAbs ≤ 200000)
    (hhits : ∀ h, h ∈ hits ↔ ∃ r ∈ rules, ∃ m, IsHit cls t anchor r m h) (hr : r ∈ rules)
    (hm : Occurs cls r.pattern t m) (hn : monthsOf m.words = some n) :
    ∃ x ∈ report hits, x.offset = m.start ∧ x.phrase = String.ofList m.text ∧
      MonthsFrom anchor n x.resolved := by
  obtain ⟨ph, hph, hwords, -⟩ := exists_admits hr hm
  have hfound := (sound_rules hyear r hr ph hph m.words hwords).resolve_right fun h => by
    rw [h.2.2] at hn
    cases hn
  obtain ⟨r', hr', f, hinside, h, hh, hf, p, hp, rfl⟩ := exists_kept hyear hhits hr hm hfound
  have hoccurs := occurs_of_mem_findIter hf
  obtain ⟨hsame, hbefore, htext⟩ := eq_of_isAlone hr hr' hm hoccurs hinside hph hwords
    (isAlone_of_monthsOf hr hph hwords hn)
  obtain ⟨ph', hph', hwords', -⟩ := exists_admits hr' hoccurs
  rw [← hsame] at hn
  refine ⟨_, List.mem_map_of_mem hh, ?_, ?_, ?_⟩
  · rw [hitOf, Match.start, Match.start, hbefore]
  · rw [hitOf, htext]
  · rcases sound_rules hyear r' hr' ph' hph' f.words hwords' with ⟨q, hq, hfrom⟩ | ⟨-, -, hnone⟩
    · obtain rfl := Option.some.inj (Option.some.inj (hp.symm.trans hq))
      exact hfrom n hn
    · rw [hnone] at hn
      cases hn

theorem resolved_report (hyear : anchor.year.natAbs ≤ 200000)
    (hhits : ∀ h, h ∈ hits ↔ ∃ r ∈ rules, ∃ m, IsHit cls t anchor r m h) :
    Resolved cls t anchor (report hits) where
  ordered := List.pairwise_map.2 ((pairwise_kept hhits).imp And.left)
  disjoint := List.pairwise_map.2 ((pairwise_kept hhits).imp And.right)
  matched := by
    intro x hx
    obtain ⟨h, hh, rfl⟩ := List.mem_map.1 hx
    obtain ⟨r, hr, m, hm, p, hp, rfl⟩ :=
      (hhits h).1 ((List.mem_insertionSort _).1 (sublist_sweep.mem hh))
    exact ⟨r, hr, m, occurs_of_mem_findIter hm, rfl, rfl, hp⟩
  covers _ hr _ hm hascii := exists_report_around hyear hhits hr hm hascii
  months _ hr _ hm _ hn := exists_report_months hyear hhits hr hm hn

/-- **Relative dates are resolved**: nothing panics; the dates are in the order of their places and do
not overlap; whatever matches a pattern is inside a phrase that is reported; and where months or years
are named, the date lies that many months from the anchor. -/
theorem resolveRelativeDates_spec (u : CharTables) (cls : CharClasses) (text : String)
    (hyear : -200000 ≤ anchor.year ∧ anchor.year ≤ 200000) :
    ∃ out, resolveRelativeDates u cls text anchor = some out ∧
      Resolved cls (u.toLowercase text.toList) anchor out := by
  have hbound : anchor.year.natAbs ≤ 200000 := by omega
  obtain ⟨hits, hall, hhits⟩ := exists_allHits cls (u.toLowercase text.toList) hbound
  exact ⟨report hits, by rw [resolveRelativeDates, hall]; rfl, resolved_report hbound hhits⟩

/-- The last day of a March. -/
def endOfMarch : NaiveDate := ⟨2023, 3, 31, by decide, by decide⟩

theorem resolveRelativeDates_endOfMarch :
    ∃ out, resolveRelativeDates .ascii .ascii "Last month, and a year ago" endOfMarch = some out ∧
      Resolved .ascii (CharTables.ascii.toLowercase "Last month, and a year ago".toList) endOfMarch
        out :=
  resolveRelativeDates_spec .ascii .ascii "Last month, and a year ago" (by decide)

example : (resolveRelativeDates .ascii .ascii "the day before yesterday, or 1 month ago" endOfMarch).map
    (List.map fun x => (x.offset, x.resolved.month, x.resolved.day)) =
      some [(0, 3, 29), (29, 2, 28)] := by decide +kernel

end Spectral.Temporal
