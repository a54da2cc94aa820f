import Spectral.Lib.Stamp
import Spectral.Ingest.Curate

/-!
# What was valid then

A memory is valid from `valid_from`, or else from when it was created, until `valid_to`, which is
excluded.  `keys_as_of` compares these as text, and they are stored in two formats.

* `keysAsOf` — the keys it returns.
* `keysAsOf_exact_iff` — they are the keys of the memories that are valid then, if and only if every
  memory has its bounds on the sides of the instant where the text puts them.
* `exactAsOf_of_plain` — so they are where one day has but one format, that of SQLite.
-/

namespace Spectral

open Spectral.Lib

/-- `COALESCE(valid_from, created_at)`. -/
def MemoryRow.validStart (r : MemoryRow) : String := r.validFrom.getD r.createdAt

namespace Store

/-- `keys_as_of`. -/
def keysAsOf (s : Store) (instant : String) : List String :=
  ((s.memories.rows.filter fun r =>
    decide (r.validStart ≤ instant) && decide (instant < r.validTo)).map
      MemoryRow.key).insertionSort (· ≤ ·)

variable {s : Store}

theorem mem_keysAsOf {instant key : String} :
    key ∈ s.keysAsOf instant ↔
      ∃ r ∈ s.memories, r.key = key ∧ r.validStart ≤ instant ∧ instant < r.validTo := by
  simp only [keysAsOf, List.mem_insertionSort, List.mem_map, List.mem_filter, Bool.and_eq_true,
    decide_eq_true_eq]
  constructor
  · rintro ⟨r, ⟨hr, hvalid⟩, hkey⟩
    exact ⟨r, hr, hkey, hvalid⟩
  · rintro ⟨r, hr, hkey, hvalid⟩
    exact ⟨r, ⟨hr, hvalid⟩, hkey⟩

/-- The bounds of the memories are these stamps. -/
def Stamped (s : Store) (start stop : MemoryRow → Stamp) : Prop :=
  ∀ r ∈ s.memories.rows, r.validStart = (start r).text ∧ r.validTo = (stop r).text

instance (s : Store) (start stop : MemoryRow → Stamp) : Decidable (s.Stamped start stop) :=
  inferInstanceAs (Decidable (∀ r ∈ s.memories.rows, _ ∧ _))

/-- The keys are those of the memories that are valid at an instant. -/
def ExactAsOf (s : Store) (start stop : MemoryRow → Stamp) (t : Stamp) : Prop :=
  ∀ key, key ∈ s.keysAsOf t.text ↔ ∃ r ∈ s.memories,
    r.key = key ∧ (start r).instant ≤ t.instant ∧ t.instant < (stop r).instant

variable {start stop : MemoryRow → Stamp} {t : Stamp}

/-- A memory whose bounds are placed is returned when it is valid. -/
theorem Stamped.placed_iff (h : s.Stamped start stop) {r : MemoryRow} (hr : r ∈ s.memories) :
    Stamp.Placed (start r) (stop r) t ↔ (r.validStart ≤ t.text ∧ t.text < r.validTo ↔
      (start r).instant ≤ t.instant ∧ t.instant < (stop r).instant) := by
  rw [(h r hr).1, (h r hr).2, Stamp.placed_iff]

theorem Stamped.exactAsOf (h : s.Stamped start stop)
    (hplaced : ∀ r ∈ s.memories, Stamp.Placed (start r) (stop r) t) : s.ExactAsOf start stop t := by
  intro key
  rw [mem_keysAsOf]
  exact exists_congr fun r => and_congr_right fun hr => and_congr_right fun _ =>
    (h.placed_iff hr).1 (hplaced r hr)

/-- The keys are right if and only if the bounds of every memory are placed. -/
theorem keysAsOf_exact_iff (s : Store) (start stop : MemoryRow → Stamp) (h : s.Stamped start stop)
    (t : Stamp) :
    s.ExactAsOf start stop t ↔ ∀ r ∈ s.memories, Stamp.Placed (start r) (stop r) t := by
  refine ⟨fun hexact r hr => ?_, h.exactAsOf⟩
  have hof : ∀ P : MemoryRow → Prop, (∃ r' ∈ s.memories, r'.key = r.key ∧ P r') ↔ P r := by
    intro P
    constructor
    · rintro ⟨r', hr', hkey, hP⟩
      exact eq_of_key hr' hr hkey ▸ hP
    · exact fun hP => ⟨r, hr, rfl, hP⟩
  have hkey := hexact r.key
  rw [mem_keysAsOf, hof fun r => r.validStart ≤ t.text ∧ t.text < r.validTo,
    hof fun r => (start r).instant ≤ t.instant ∧ t.instant < (stop r).instant] at hkey
  exact (h.placed_iff hr).2 hkey

/-- A bound in the format of SQLite, or in UTC and of another day than `t`. -/
def Plain (t bound : Stamp) : Prop :=
  bound.format = .space ∨ bound.format.offset = 0 ∧ bound.date.number ≠ t.date.number

/-- For an instant in the format of SQLite the keys are right where all bounds of its day are in that
format, too. -/
theorem exactAsOf_of_plain (h : s.Stamped start stop)
    (hplain : ∀ r ∈ s.memories, Plain t (start r) ∧ Plain t (stop r)) (ht : t.format = .space) :
    s.ExactAsOf start stop t := by
  have hoffset : t.format.offset = 0 := by rw [ht]; rfl
  have hnot : ∀ bound, Plain t bound → ¬ bound.Misplaced t := by
    rintro bound (hspace | ⟨hutc, hday⟩) hmis
    · rw [Stamp.misplaced_iff (by rw [hspace]; rfl) hoffset, hspace, ht] at hmis
      simp at hmis
    · exact hday ((Stamp.misplaced_iff hutc hoffset).1 hmis).1
  refine h.exactAsOf fun r hr => ?_
  obtain ⟨hstart, hstop⟩ := hplain r hr
  exact ⟨fun hmis => absurd hmis (hnot _ hstart), fun hmis => absurd hmis (hnot _ hstop),
    fun hmis => absurd hmis (hnot _ hstart)⟩

/-! ## A morning -/

theorem eight_lt_day : 8 < 24 := by decide

theorem nine_lt_day : 9 < 24 := by decide

/-- A time of the first of March. -/
def marchAt (hour : ℕ) (h : hour < 24) (format : Format) : Stamp where
  date := ⟨2026, 3, 1, by decide, by decide, by decide, by decide, by decide⟩
  time := ⟨hour, 0, 0, h, by decide, by decide⟩
  format := format

/-- `VALID_TO_SENTINEL`. -/
def sentinel : Stamp where
  date := ⟨9999, 12, 31, by decide, by decide, by decide, by decide, by decide⟩
  time := ⟨23, 59, 59, by decide, by decide, by decide⟩
  format := .rfc3339 [9, 9, 9] .zulu

/-- A note written at nine. -/
def nineOClock : Store :=
  (Env.ofRecords [] []).write "2026-03-01 09:00:00" {}
    { id := "0aa1", key := "note", content := "ship on monday" } []

/-- At ten, in the format it was written in, the note is valid. -/
theorem exactAsOf_ten :
    nineOClock.ExactAsOf (fun _ => marchAt 9 (by decide) .space) (fun _ => sentinel)
      (marchAt 10 (by decide) .space) :=
  (keysAsOf_exact_iff nineOClock _ _ (by decide +kernel) (marchAt 10 (by decide) .space)).2 <| by
    have hplaced : ∀ r ∈ nineOClock.memories.rows, ¬ Stamp.Misplaced (marchAt 9 (by decide) .space)
        (marchAt 10 (by decide) .space) ∧ ¬ Stamp.Misplaced sentinel (marchAt 10 (by decide) .space) := by
      decide +kernel
    intro r hr
    obtain ⟨hstart, hstop⟩ := hplaced r hr
    exact ⟨fun h => absurd h hstart, fun h => absurd h hstop, fun h => absurd h hstart⟩

/-- At eight, in RFC 3339, it is returned as well. -/
theorem not_exactAsOf_eight :
    nineOClock.Stamped (fun _ => marchAt 9 (by decide) .space) (fun _ => sentinel) ∧
      ¬ nineOClock.ExactAsOf (fun _ => marchAt 9 (by decide) .space) (fun _ => sentinel)
        (marchAt 8 (by decide) (.rfc3339 [] .zulu)) := by
  refine ⟨by decide +kernel, fun h => ?_⟩
  have hreturned : "note" ∈ nineOClock.keysAsOf (marchAt 8 (by decide) (.rfc3339 [] .zulu)).text := by
    decide +kernel
  obtain ⟨_, _, _, hstart, _⟩ := (h "note").1 hreturned
  exact absurd (show (marchAt 9 (by decide) .space).instant ≤
    (marchAt 8 (by decide) (.rfc3339 [] .zulu)).instant from hstart) (by decide +kernel)

end Store

end Spectral
