import Spectral.Ingest.AsOf

/-!
# The newest memory

`latest_interaction_time` is the anchor a reproducible plan measures recency from.  It takes the
greatest `created_at` as text, and then parses it.

* `latestCreatedAt`, `latestInteractionTime` — the text, and the instant it is parsed to.
* `AnchorIsNewest` — no memory lies after the anchor.
* `anchor_newest_iff` — so it is if and only if, on the last day, a memory whose time is in the
  format of SQLite is not later than all those in RFC 3339.
-/

namespace Spectral

open Spectral.Lib

namespace Store

/-- `latest_created_at`: `SELECT MAX(created_at) FROM memories`. -/
def latestCreatedAt (s : Store) : Option String := (s.memories.rows.map MemoryRow.createdAt).max?

/-- `latest_interaction_time`, over `parse_created_at`. -/
def latestInteractionTime (parseCreatedAt : String → Option ℚ) (s : Store) : Option ℚ :=
  s.latestCreatedAt.bind parseCreatedAt

variable {s : Store} {parseCreatedAt : String → Option ℚ} {created : MemoryRow → Stamp}

theorem latestCreatedAt_eq_none : s.latestCreatedAt = none ↔ s.memories.rows = [] := by
  simp [latestCreatedAt]

theorem latestCreatedAt_eq_some {text : String} (h : s.latestCreatedAt = some text) :
    (∃ r ∈ s.memories.rows, r.createdAt = text) ∧ ∀ r ∈ s.memories.rows, r.createdAt ≤ text := by
  rw [latestCreatedAt, List.max?_eq_some_iff] at h
  simpa using h

/-- The memories were created at these instants, which are in UTC and are read back as written. -/
def CreatedAt (s : Store) (parseCreatedAt : String → Option ℚ) (created : MemoryRow → Stamp) : Prop :=
  ∀ r ∈ s.memories.rows, r.createdAt = (created r).text ∧ (created r).InUtc ∧
    parseCreatedAt (created r).text = some (created r).instant

instance (s : Store) (parseCreatedAt : String → Option ℚ) (created : MemoryRow → Stamp) :
    Decidable (s.CreatedAt parseCreatedAt created) :=
  inferInstanceAs (Decidable (∀ r ∈ s.memories.rows, _ ∧ _ ∧ _))

/-- The anchor is the instant of a memory and none lies after it; only an empty store has none. -/
def AnchorIsNewest (s : Store) (parseCreatedAt : String → Option ℚ) (created : MemoryRow → Stamp) :
    Prop :=
  match s.latestInteractionTime parseCreatedAt with
  | none => s.memories.rows = []
  | some anchor => (∃ r ∈ s.memories.rows, (created r).instant = anchor) ∧
      ∀ r ∈ s.memories.rows, (created r).instant ≤ anchor

/-- On the last day, no memory in the format of SQLite is later than all those in RFC 3339. -/
def LastDayOrdered (s : Store) (created : MemoryRow → Stamp) : Prop :=
  ∀ a ∈ s.memories.rows, ∀ b ∈ s.memories.rows,
    (created a).format.separator = ' ' → (created b).format.separator = 'T' →
    (created a).date.number = (created b).date.number →
    (∀ r ∈ s.memories.rows, (created r).date.number ≤ (created a).date.number) →
    ∃ c ∈ s.memories.rows, (created c).format.separator = 'T' ∧
      (created c).date.number = (created a).date.number ∧
      (created a).instant ≤ (created c).instant

instance (s : Store) (created : MemoryRow → Stamp) : Decidable (s.LastDayOrdered created) :=
  inferInstanceAs (Decidable (∀ a ∈ _, ∀ b ∈ _, _ → _ → _ → (∀ r ∈ _, _) → ∃ c ∈ _, _ ∧ _ ∧ _))

/-- The row whose text is the greatest. -/
theorem CreatedAt.exists_last (h : s.CreatedAt parseCreatedAt created) (hne : s.memories.rows ≠ []) :
    ∃ last ∈ s.memories.rows,
      s.latestInteractionTime parseCreatedAt = some (created last).instant ∧
      ∀ r ∈ s.memories.rows, (created r).written ≤ (created last).written := by
  cases htext : s.latestCreatedAt with
  | none => exact absurd (latestCreatedAt_eq_none.1 htext) hne
  | some text =>
    obtain ⟨⟨last, hlast, rfl⟩, hle⟩ := latestCreatedAt_eq_some htext
    refine ⟨last, hlast, ?_, fun r hr => ?_⟩
    · rw [latestInteractionTime, htext, Option.bind_some, (h last hlast).1, (h last hlast).2.2]
    · rw [← Stamp.text_le_iff, ← (h r hr).1, ← (h last hlast).1]
      exact hle r hr

theorem anchorIsNewest_iff_of_last {last : MemoryRow} (hlast : last ∈ s.memories.rows)
    (hanchor : s.latestInteractionTime parseCreatedAt = some (created last).instant) :
    s.AnchorIsNewest parseCreatedAt created ↔
      ∀ r ∈ s.memories.rows, (created r).instant ≤ (created last).instant := by
  unfold AnchorIsNewest
  rw [hanchor]
  exact and_iff_right ⟨last, hlast, rfl⟩

/-- No memory is later than the last one where the last day is ordered. -/
theorem CreatedAt.instant_le_last (h : s.CreatedAt parseCreatedAt created)
    (hordered : s.LastDayOrdered created) {last r : MemoryRow} (hlast : last ∈ s.memories.rows)
    (hwritten : ∀ r ∈ s.memories.rows, (created r).written ≤ (created last).written)
    (hr : r ∈ s.memories.rows) : (created r).instant ≤ (created last).instant := by
  have hutc := (h r hr).2.1
  have hutc' := (h last hlast).2.1
  have hday : ∀ r ∈ s.memories.rows, (created r).date.number ≤ (created last).date.number := by
    intro r hr
    rcases Stamp.written_le_iff.1 (hwritten r hr) with hlt | ⟨heq, -⟩
    · exact hlt.le
    · exact heq.le
  rcases Stamp.written_le_iff.1 (hwritten r hr) with hlt | ⟨heq, hsep | ⟨hsep, -⟩⟩
  · exact (Stamp.instant_lt_of_number_lt hutc.offset_eq hutc'.offset_eq hlt).le
  · -- the last one is in RFC 3339, and so is the one that is not earlier than `r`
    obtain ⟨hspace, hrfc⟩ := Format.separator_lt hsep
    obtain ⟨c, hc, hcsep, hcday, hle⟩ :=
      hordered r hr last hlast hspace hrfc heq (fun r' hr' => heq ▸ hday r' hr')
    exact hle.trans (Stamp.instant_le_of_written_le (h c hc).2.1 hutc' (hcday.trans heq)
      (hcsep.trans hrfc.symm) (hwritten c hc))
  · exact Stamp.instant_le_of_written_le hutc hutc' heq hsep (hwritten r hr)

/-- The anchor is the newest memory if and only if the last day is ordered. -/
theorem anchor_newest_iff (s : Store) (parseCreatedAt : String → Option ℚ)
    (created : MemoryRow → Stamp) (h : s.CreatedAt parseCreatedAt created) :
    s.AnchorIsNewest parseCreatedAt created ↔ s.LastDayOrdered created := by
  by_cases hne : s.memories.rows = []
  · have hnone := latestCreatedAt_eq_none.2 hne
    refine iff_of_true ?_ (fun a ha => absurd ha (by simp [hne]))
    unfold AnchorIsNewest latestInteractionTime
    rw [hnone]
    exact hne
  · obtain ⟨last, hlast, hanchor, hwritten⟩ := h.exists_last hne
    rw [anchorIsNewest_iff_of_last hlast hanchor]
    refine ⟨fun hnewest a ha b hb hspace hrfc hday hmax => ?_,
      fun hordered r hr => h.instant_le_last hordered hlast hwritten hr⟩
    -- the last one is not before `b`, so it is of the same day and in RFC 3339
    refine ⟨last, hlast, ?_, ?_, hnewest a ha⟩
    · rcases Stamp.written_le_iff.1 (hwritten b hb) with hlt | ⟨-, hsep | ⟨hsep, -⟩⟩
      · exact absurd (hmax last hlast) (by omega)
      · exact (Format.separator_lt hsep).2
      · exact hsep.symm.trans hrfc
    · refine le_antisymm (hmax last hlast) ?_
      rcases Stamp.written_le_iff.1 (hwritten a ha) with hlt | ⟨heq, -⟩
      · exact hlt.le
      · exact heq.le

/-! ## Two of one morning -/

/-- A note written at nine, and then an activity that began at eight. -/
def nineThenEight : Store :=
  (Env.ofRecords [] []).write "2026-03-01 09:00:00" nineOClock
    { id := "0aa2", key := "activity", content := "read the plan",
      createdAt := some "2026-03-01T08:00:00+00:00" } []

/-- When its memories were created. -/
def morning (r : MemoryRow) : Stamp :=
  if r.key = "note" then marchAt 9 nine_lt_day .space
  else marchAt 8 eight_lt_day (.rfc3339 [] Stamp.plusZero)

/-- The two texts, parsed. -/
def parseMorning (text : String) : Option ℚ :=
  if text = "2026-03-01 09:00:00" then some (marchAt 9 nine_lt_day .space).instant
  else if text = "2026-03-01T08:00:00+00:00" then
    some (marchAt 8 eight_lt_day (.rfc3339 [] Stamp.plusZero)).instant
  else none

/-- One note is the newest memory. -/
theorem anchorIsNewest_nineOClock : nineOClock.AnchorIsNewest parseMorning morning :=
  (anchor_newest_iff nineOClock parseMorning morning (by decide +kernel)).2 (by decide +kernel)

/-- The activity of eight is the anchor, and the note of nine lies after it. -/
theorem not_anchorIsNewest_nineThenEight :
    nineThenEight.CreatedAt parseMorning morning ∧
      ¬ nineThenEight.AnchorIsNewest parseMorning morning := by
  refine ⟨by decide +kernel, ?_⟩
  have hanchor : nineThenEight.latestInteractionTime parseMorning =
      some (marchAt 8 eight_lt_day (.rfc3339 [] Stamp.plusZero)).instant := by decide +kernel
  have hlater : ∃ r ∈ nineThenEight.memories.rows,
      (marchAt 8 eight_lt_day (.rfc3339 [] Stamp.plusZero)).instant < (morning r).instant := by
    decide +kernel
  unfold AnchorIsNewest
  rw [hanchor]
  rintro ⟨-, hle⟩
  obtain ⟨r, hr, hlt⟩ := hlater
  exact (hle r hr).not_gt hlt

end Store

end Spectral
