import Spectral.Ingest.AsOf
import Spectral.Lib.Clamp

/-!
# Decay of scores

A pass of the archivist lowers the scores of what was not reinforced for some days and raises the
scores of what was reinforced in the last days.  Both are updates of one transaction, and both
compare the texts of times.

* `applyDecay`, `Archivist.run` — the pass.
* `Decays`, `Boosts` — the conditions of the two updates; `older_iff` and `newer_iff` say what they
  mean for the times.
* `bounded_applyDecay` — a pass lowers and raises within the bounds and nothing else, no memory twice,
  and keeps the order of the scores of memories that were reinforced together.
* `reinforcedAt_reinforceMemory`, `reinforcedAt_applyDecay` — the times are written as a pass reads
  them.
-/

namespace Spectral

open Spectral.Lib

/-! ## Times in SQL -/

/-- `"-{days} days"`. -/
def daysOffset (days : ℤ) : String := "-" ++ toString days ++ " days"

/-- A text is that of the second so many days before: of a stamp, or with a minus sign of a year
before all of them. -/
def Ago (now : Stamp) (days : ℤ) (x : String) : Prop :=
  (∃ t : Stamp, x = t.toSecond.text ∧ (t.second : ℤ) = now.second - 86400 * days) ∨
    (∃ rest, x = "-" ++ rest) ∧ (now.second : ℤ) - 86400 * days < 86400

/-- `datetime('now', modifier)` at a time; `none` is `NULL`. -/
structure SqliteClock where
  datetime : Stamp → String → Option String

/-- `last_reinforced_at IS NULL OR last_reinforced_at < cutoff`. -/
def older (cutoff last : Option String) : Bool :=
  last.all fun x => cutoff.any fun c => decide (x < c)

/-- `last_reinforced_at IS NOT NULL AND last_reinforced_at > cutoff`. -/
def newer (cutoff last : Option String) : Bool :=
  last.any fun x => cutoff.any fun c => decide (c < x)

/-! ## The pass -/

/-- `ArchivistConfig`, of which this is what a pass reads. -/
structure ArchivistConfig where
  decayThresholdDays : ℤ := 30
  decayAmount : ℚ := 5 / 100
  boostThresholdDays : ℤ := 7
  boostAmount : ℚ := 2 / 100
  minSignalScore : ℚ := 1 / 10
  maxSignalScore : ℚ := 1

/-- `DecayStats`. -/
structure DecayStats where
  decayed : ℕ
  boosted : ℕ
  deriving DecidableEq

/-- The times of the two updates. -/
structure PassTimes where
  decay : Stamp
  boost : Stamp
  decay_utc : decay.format.offset = 0
  boost_utc : boost.format.offset = 0
  decay_le : decay.instant ≤ boost.instant

section

variable (config : ArchivistConfig) (cutoff : Option String)

/-- The condition of the first update. -/
def Decays (r : MemoryRow) : Prop :=
  config.minSignalScore < r.signalScore ∧ older cutoff r.lastReinforcedAt = true

instance : DecidablePred (Decays config cutoff) := fun _ =>
  inferInstanceAs (Decidable (_ ∧ _))

/-- The condition of the second update. -/
def Boosts (r : MemoryRow) : Prop :=
  r.signalScore < config.maxSignalScore ∧ newer cutoff r.lastReinforcedAt = true

instance : DecidablePred (Boosts config cutoff) := fun _ =>
  inferInstanceAs (Decidable (_ ∧ _))

/-- What the first update sets. -/
def MemoryRow.lower (now : String) (r : MemoryRow) : MemoryRow :=
  { r with
    signalScore := max config.minSignalScore (r.signalScore - config.decayAmount)
    updatedAt := now }

/-- What the second update sets. -/
def MemoryRow.raise (now : String) (r : MemoryRow) : MemoryRow :=
  { r with
    signalScore := min config.maxSignalScore (r.signalScore + config.boostAmount)
    updatedAt := now }

/-- The first update. -/
def Store.decay (s : Store) (now : String) : Store :=
  s.updateMemories (fun r => decide (Decays config cutoff r)) (MemoryRow.lower config now)
    fun _ => ⟨rfl, rfl⟩

/-- The second update. -/
def Store.boost (s : Store) (now : String) : Store :=
  s.updateMemories (fun r => decide (Boosts config cutoff r)) (MemoryRow.raise config now)
    fun _ => ⟨rfl, rfl⟩

end

section

variable (clock : SqliteClock) (config : ArchivistConfig) (times : PassTimes)

/-- The cutoff of the first update. -/
def decayCutoff : Option String := clock.datetime times.decay (daysOffset config.decayThresholdDays)

/-- The cutoff of the second update. -/
def boostCutoff : Option String := clock.datetime times.boost (daysOffset config.boostThresholdDays)

/-- SQLite shifts the times of a pass by the days of its settings, unless it answers `NULL`. -/
structure PassReads : Prop where
  decay : ∀ c ∈ decayCutoff clock config times, Ago times.decay config.decayThresholdDays c
  boost : ∀ c ∈ boostCutoff clock config times, Ago times.boost config.boostThresholdDays c

/-- `apply_decay`: both updates, or none when one of them or the commit fails. -/
def applyDecay (fault : Option String) (s : Store) : Store × Except String DecayStats :=
  match fault with
  | some error => (s, .error error)
  | none =>
    let decayed := s.decay config (decayCutoff clock config times) times.decay.toSecond.text
    (decayed.boost config (boostCutoff clock config times) times.boost.toSecond.text,
      .ok ⟨s.memories.countWhere fun r => decide (Decays config (decayCutoff clock config times) r),
        decayed.memories.countWhere fun r =>
          decide (Boosts config (boostCutoff clock config times) r)⟩)

/-- `Archivist::run`: the pass, once there is a report. -/
def archivistRun {ρ : Type} (report : Store → Except String ρ) (fault : Option String) (s : Store) :
    Store × Except String (ρ × DecayStats) :=
  match report s with
  | .error error => (s, .error error)
  | .ok report =>
    match applyDecay clock config times fault s with
    | (s', .ok stats) => (s', .ok (report, stats))
    | (s', .error error) => (s', .error error)

end

/-! ## When memories were reinforced -/

/-- The memories were reinforced at these times, in UTC, which the store has to the second. -/
def Store.ReinforcedAt (s : Store) (reinforced : String → Option Stamp) : Prop :=
  ∀ r ∈ s.memories.rows, r.lastReinforcedAt = (reinforced r.id).map (fun t => t.toSecond.text) ∧
    ∀ t ∈ reinforced r.id, t.format.offset = 0

instance (s : Store) (reinforced : String → Option Stamp) : Decidable (s.ReinforcedAt reinforced) :=
  inferInstanceAs (Decidable (∀ r ∈ s.memories.rows, _ ∧ ∀ t ∈ reinforced r.id, _))

/-- Not reinforced in the last days before a time. -/
def Neglected (reinforced : Option Stamp) (days : ℤ) (now : Stamp) : Prop :=
  ∀ t ∈ reinforced, t.instant < now.instant - 86400 * days

/-- Reinforced in the last days before a time. -/
def Recent (reinforced : Option Stamp) (days : ℤ) (now : Stamp) : Prop :=
  ∃ t ∈ reinforced, now.instant - 86400 * days < t.instant

/-- **A pass is bounded and goes one way** for each memory, and keeps the order of the scores of
memories with one time. -/
structure BoundedPass (clock : SqliteClock) (config : ArchivistConfig) (times : PassTimes)
    (reinforced : String → Option Stamp) (s s' : Store) : Prop where
  once : ∀ r ∈ s.memories, Decays config (decayCutoff clock config times) r →
    ¬ Boosts config (boostCutoff clock config times) (r.lower config times.decay.toSecond.text)
  ids : ∀ id, s'.HasMemory id ↔ s.HasMemory id
  lowered : ∀ r ∈ s.memories, ∀ r' ∈ s'.memories, r'.id = r.id → r'.signalScore < r.signalScore →
    Neglected (reinforced r.id) config.decayThresholdDays times.decay ∧
      config.minSignalScore ≤ r'.signalScore
  raised : ∀ r ∈ s.memories, ∀ r' ∈ s'.memories, r'.id = r.id → r.signalScore < r'.signalScore →
    Recent (reinforced r.id) config.boostThresholdDays times.boost ∧
      r'.signalScore ≤ config.maxSignalScore
  unchanged : ∀ r ∈ s.memories, ∀ r' ∈ s'.memories, r'.id = r.id →
    ¬ Neglected (reinforced r.id) config.decayThresholdDays times.decay →
      ¬ Recent (reinforced r.id) config.boostThresholdDays times.boost →
        r'.signalScore = r.signalScore
  ordered : ∀ a ∈ s.memories, ∀ a' ∈ s'.memories, a'.id = a.id → ∀ b ∈ s.memories,
    ∀ b' ∈ s'.memories, b'.id = b.id → a.lastReinforcedAt = b.lastReinforcedAt →
      a.signalScore ≤ b.signalScore → a'.signalScore ≤ b'.signalScore

/-! ## What the conditions mean -/

section

variable {now : Stamp} {days : ℤ} {cutoff last : Option String} {reinforced : Option Stamp}

/-- What is older than the cutoff was not reinforced in the last days. -/
theorem neglected_of_older (hcutoff : ∀ c ∈ cutoff, Ago now days c) (hnow : now.format.offset = 0)
    (hlast : last = reinforced.map fun t => t.toSecond.text)
    (hutc : ∀ t ∈ reinforced, t.format.offset = 0) (h : older cutoff last = true) :
    Neglected reinforced days now := by
  rintro t rfl
  subst hlast
  obtain ⟨c, rfl, hlt⟩ := (Option.any_eq_true _ _).1 h
  have ht := Stamp.second_le_instant (hutc t rfl)
  have hnow := Stamp.second_le_instant hnow
  rcases hcutoff c rfl with ⟨u, rfl, hu⟩ | ⟨⟨rest, rfl⟩, -⟩
  · have hsecond : (t.second : ℤ) + 1 ≤ now.second - 86400 * days := by
      have := Stamp.text_toSecond_lt_iff.1 (of_decide_eq_true hlt)
      omega
    have hsecond : (t.second : ℚ) + 1 ≤ now.second - 86400 * days := by exact_mod_cast hsecond
    linarith [ht.2, hnow.1]
  · exact absurd (of_decide_eq_true hlt) (lt_asymm (Stamp.minus_lt_text t.toSecond rest))

/-- What is newer than the cutoff was reinforced in the last days. -/
theorem recent_of_newer (hcutoff : ∀ c ∈ cutoff, Ago now days c) (hnow : now.format.offset = 0)
    (hlast : last = reinforced.map fun t => t.toSecond.text)
    (hutc : ∀ t ∈ reinforced, t.format.offset = 0) (h : newer cutoff last = true) :
    Recent reinforced days now := by
  subst hlast
  obtain ⟨x, hx, hany⟩ := (Option.any_eq_true _ _).1 h
  obtain ⟨t, rfl, rfl⟩ := Option.map_eq_some_iff.1 hx
  obtain ⟨c, rfl, hlt⟩ := (Option.any_eq_true _ _).1 hany
  refine ⟨t, rfl, ?_⟩
  have ht := Stamp.second_le_instant (hutc t rfl)
  have hnow := Stamp.second_le_instant hnow
  have hsecond : (now.second : ℤ) - 86400 * days + 1 ≤ t.second := by
    rcases hcutoff c rfl with ⟨u, rfl, hu⟩ | ⟨-, hbefore⟩
    · have := Stamp.text_toSecond_lt_iff.1 (of_decide_eq_true hlt)
      omega
    · have := t.le_second
      omega
  have hsecond : (now.second : ℚ) - 86400 * days + 1 ≤ t.second := by exact_mod_cast hsecond
  linarith [ht.1, hnow.2]

/-- With the smaller number of days at the later time, no memory is both. -/
theorem not_recent_of_neglected {times : PassTimes} {days' : ℤ} (hdays : days' ≤ days)
    (h : Neglected reinforced days times.decay) : ¬ Recent reinforced days' times.boost := by
  rintro ⟨t, ht, hrecent⟩
  have hneglected := h t ht
  have hdays : (days' : ℚ) ≤ days := by exact_mod_cast hdays
  linarith [times.decay_le]

end

/-! ## One row -/

section

variable {config : ArchivistConfig} {cutoff cutoff' : Option String} {now now' : String}
  {r : MemoryRow}

/-- What a pass makes of a row. -/
def MemoryRow.passed (config : ArchivistConfig) (cutoff cutoff' : Option String) (now now' : String)
    (r : MemoryRow) : MemoryRow :=
  let decayed := if decide (Decays config cutoff r) then r.lower config now else r
  if decide (Boosts config cutoff' decayed) then decayed.raise config now' else decayed

theorem lastReinforcedAt_lower_ite :
    (if decide (Decays config cutoff r) then r.lower config now else r).lastReinforcedAt =
      r.lastReinforcedAt := by
  split <;> rfl

/-- A pass leaves the id and the time of a row. -/
theorem same_passed : (r.passed config cutoff cutoff' now now').id = r.id ∧
    (r.passed config cutoff cutoff' now now').lastReinforcedAt = r.lastReinforcedAt := by
  unfold MemoryRow.passed
  dsimp only
  split <;> split <;> exact ⟨rfl, rfl⟩

/-- The score after a pass that does not take a row for both. -/
theorem signalScore_passed
    (hone : older cutoff r.lastReinforcedAt = true → ¬ newer cutoff' r.lastReinforcedAt = true) :
    (r.passed config cutoff cutoff' now now').signalScore =
      if older cutoff r.lastReinforcedAt then
        lowerTo config.minSignalScore config.decayAmount r.signalScore
      else if newer cutoff' r.lastReinforcedAt then
        raiseTo config.maxSignalScore config.boostAmount r.signalScore
      else r.signalScore := by
  by_cases holder : older cutoff r.lastReinforcedAt = true
  · have hnot : ¬ Boosts config cutoff'
        (if decide (Decays config cutoff r) then r.lower config now else r) := by
      rintro ⟨-, hnewer⟩
      rw [lastReinforcedAt_lower_ite] at hnewer
      exact hone holder hnewer
    unfold MemoryRow.passed
    dsimp only
    rw [if_neg (by simpa using hnot), if_pos holder, lowerTo]
    by_cases hscore : config.minSignalScore < r.signalScore
    · rw [if_pos (decide_eq_true ⟨hscore, holder⟩), if_pos hscore]
      rfl
    · rw [if_neg (by simpa using fun h : Decays config cutoff r => hscore h.1), if_neg hscore]
  · have hnot : ¬ decide (Decays config cutoff r) = true := by
      simpa using fun h : Decays config cutoff r => holder h.2
    unfold MemoryRow.passed
    dsimp only
    rw [if_neg hnot, if_neg holder]
    by_cases hnewer : newer cutoff' r.lastReinforcedAt = true
    · rw [if_pos hnewer, raiseTo]
      by_cases hscore : r.signalScore < config.maxSignalScore
      · rw [if_pos (decide_eq_true ⟨hscore, hnewer⟩), if_pos hscore]
        rfl
      · rw [if_neg (by simpa using fun h : Boosts config cutoff' r => hscore h.1), if_neg hscore]
    · rw [if_neg (by simpa using fun h : Boosts config cutoff' r => hnewer h.2), if_neg hnewer]

end

/-! ## The whole pass -/

section

variable {clock : SqliteClock} {config : ArchivistConfig} {times : PassTimes} {s : Store}
  {reinforced : String → Option Stamp}

/-- A pass changes row by row. -/
theorem mem_memories_applyDecay {r' : MemoryRow} :
    r' ∈ (applyDecay clock config times none s).1.memories ↔ ∃ r ∈ s.memories,
      r.passed config (decayCutoff clock config times) (boostCutoff clock config times)
        times.decay.toSecond.text times.boost.toSecond.text = r' := by
  show r' ∈ (Store.boost config _ (Store.decay config _ s _) _).memories ↔ _
  unfold Store.boost Store.decay
  simp only [Store.mem_memories_updateMemories]
  constructor
  · rintro ⟨_, ⟨r, hr, rfl⟩, rfl⟩
    exact ⟨r, hr, rfl⟩
  · rintro ⟨r, hr, rfl⟩
    exact ⟨_, ⟨r, hr, rfl⟩, rfl⟩

/-- A run leaves the store as it was, or as a pass leaves it. -/
theorem store_archivistRun {ρ : Type} (report : Store → Except String ρ) (fault : Option String) :
    (archivistRun clock config times report fault s).1 = s ∨
      (archivistRun clock config times report fault s).1 =
        (applyDecay clock config times fault s).1 := by
  unfold archivistRun
  cases report s with
  | error error => exact Or.inl rfl
  | ok report =>
    right
    dsimp only
    split <;> rename_i happly <;> rw [happly]

/-- **No memory is updated twice**: what the condition of the first update holds of, that of the
second does not. -/
theorem not_newer_of_older (hclock : PassReads clock config times)
    (hdays : config.boostThresholdDays ≤ config.decayThresholdDays) (hs : s.ReinforcedAt reinforced)
    {r : MemoryRow} (hr : r ∈ s.memories)
    (h : older (decayCutoff clock config times) r.lastReinforcedAt = true) :
    ¬ newer (boostCutoff clock config times) r.lastReinforcedAt = true := fun hnewer =>
  not_recent_of_neglected hdays
    (neglected_of_older hclock.decay times.decay_utc (hs r hr).1 (hs r hr).2 h)
    (recent_of_newer hclock.boost times.boost_utc (hs r hr).1 (hs r hr).2 hnewer)

/-- A pass leaves the memories there are. -/
theorem hasMemory_applyDecay {id : String} :
    (applyDecay clock config times none s).1.HasMemory id ↔ s.HasMemory id := by
  constructor
  · rintro ⟨r', hr', rfl⟩
    obtain ⟨r, hr, rfl⟩ := mem_memories_applyDecay.1 hr'
    exact ⟨r, hr, same_passed.1.symm⟩
  · rintro ⟨r, hr, rfl⟩
    exact ⟨_, mem_memories_applyDecay.2 ⟨r, hr, rfl⟩, same_passed.1⟩

/-- A memory after a pass: what the pass makes of the one with its id. -/
theorem eq_passed_of_id {r r' : MemoryRow} (hr : r ∈ s.memories)
    (hr' : r' ∈ (applyDecay clock config times none s).1.memories) (hid : r'.id = r.id) :
    r' = r.passed config (decayCutoff clock config times) (boostCutoff clock config times)
      times.decay.toSecond.text times.boost.toSecond.text := by
  obtain ⟨r₀, hr₀, rfl⟩ := mem_memories_applyDecay.1 hr'
  rw [Store.eq_of_id hr₀ hr (same_passed.1.symm.trans hid)]

/-- The score of a memory after a pass that does not take one for both. -/
theorem signalScore_applyDecay
    (hone : ∀ r ∈ s.memories, older (decayCutoff clock config times) r.lastReinforcedAt = true →
      ¬ newer (boostCutoff clock config times) r.lastReinforcedAt = true) :
    ∀ r ∈ s.memories, ∀ r' ∈ (applyDecay clock config times none s).1.memories, r'.id = r.id →
      r'.signalScore = if older (decayCutoff clock config times) r.lastReinforcedAt then
          lowerTo config.minSignalScore config.decayAmount r.signalScore
        else if newer (boostCutoff clock config times) r.lastReinforcedAt then
          raiseTo config.maxSignalScore config.boostAmount r.signalScore
        else r.signalScore := by
  intro r hr r' hr' hid
  rw [eq_passed_of_id hr hr' hid]
  exact signalScore_passed (hone r hr)

/-- A pass that fails changes nothing. -/
theorem boundedPass_self
    (hone : ∀ r ∈ s.memories, older (decayCutoff clock config times) r.lastReinforcedAt = true →
      ¬ newer (boostCutoff clock config times) r.lastReinforcedAt = true) :
    BoundedPass clock config times reinforced s s := by
  have hsame : ∀ r ∈ s.memories, ∀ r' ∈ s.memories, r'.id = r.id → r' = r :=
    fun r hr r' hr' hid => Store.eq_of_id hr' hr hid
  refine ⟨fun r hr hlow hraise => hone r hr hlow.2 hraise.2, fun id => Iff.rfl, ?_, ?_, ?_, ?_⟩
  · intro r hr r' hr' hid hlt
    rw [hsame r hr r' hr' hid] at hlt
    exact absurd hlt (lt_irrefl _)
  · intro r hr r' hr' hid hlt
    rw [hsame r hr r' hr' hid] at hlt
    exact absurd hlt (lt_irrefl _)
  · intro r hr r' hr' hid _ _
    rw [hsame r hr r' hr' hid]
  · intro a ha a' ha' hida b hb b' hb' hidb _ hle
    rwa [hsame a ha a' ha' hida, hsame b hb b' hb' hidb]

/-- **One pass**, of any store with the times it writes. -/
theorem bounded_applyDecay (clock : SqliteClock) (config : ArchivistConfig) (times : PassTimes)
    (hclock : PassReads clock config times) (hdecay : 0 ≤ config.decayAmount)
    (hboost : 0 ≤ config.boostAmount)
    (hdays : config.boostThresholdDays ≤ config.decayThresholdDays)
    (fault : Option String) (s : Store) (reinforced : String → Option Stamp)
    (hs : s.ReinforcedAt reinforced) :
    BoundedPass clock config times reinforced s (applyDecay clock config times fault s).1 := by
  have hone : ∀ r ∈ s.memories, older (decayCutoff clock config times) r.lastReinforcedAt = true →
      ¬ newer (boostCutoff clock config times) r.lastReinforcedAt = true :=
    fun r hr => not_newer_of_older hclock hdays hs hr
  cases fault with
  | some error => exact boundedPass_self hone
  | none =>
    have hscore := signalScore_applyDecay hone
    have hneglected : ∀ r ∈ s.memories,
        older (decayCutoff clock config times) r.lastReinforcedAt = true →
          Neglected (reinforced r.id) config.decayThresholdDays times.decay := fun r hr =>
      neglected_of_older hclock.decay times.decay_utc (hs r hr).1 (hs r hr).2
    have hrecent : ∀ r ∈ s.memories,
        newer (boostCutoff clock config times) r.lastReinforcedAt = true →
          Recent (reinforced r.id) config.boostThresholdDays times.boost := fun r hr =>
      recent_of_newer hclock.boost times.boost_utc (hs r hr).1 (hs r hr).2
    refine ⟨fun r hr hlow hraise => hone r hr hlow.2 hraise.2, fun id => hasMemory_applyDecay,
      ?_, ?_, ?_, ?_⟩
    · intro r hr r' hr' hid hlt
      rw [hscore r hr r' hr' hid] at hlt ⊢
      split_ifs at hlt ⊢ with holder hnewer
      · exact ⟨hneglected r hr holder, floor_le_lowerTo hlt⟩
      · exact absurd hlt (not_lt.2 (le_raiseTo hboost))
      · exact absurd hlt (lt_irrefl _)
    · intro r hr r' hr' hid hlt
      rw [hscore r hr r' hr' hid] at hlt ⊢
      split_ifs at hlt ⊢ with holder hnewer
      · exact absurd hlt (not_lt.2 (lowerTo_le hdecay))
      · exact ⟨hrecent r hr hnewer, raiseTo_le_cap hlt⟩
      · exact absurd hlt (lt_irrefl _)
    · intro r hr r' hr' hid hnotneglected hnotrecent
      rw [hscore r hr r' hr' hid, if_neg fun h => hnotneglected (hneglected r hr h),
        if_neg fun h => hnotrecent (hrecent r hr h)]
    · intro a ha a' ha' hida b hb b' hb' hidb hlast hle
      rw [hscore a ha a' ha' hida, hscore b hb b' hb' hidb, hlast]
      split_ifs
      · exact lowerTo_mono hle
      · exact raiseTo_mono hle
      · exact hle

end

/-! ## What the store writes -/

section

variable {clock : SqliteClock} {config : ArchivistConfig} {times : PassTimes} {s : Store}
  {reinforced : String → Option Stamp}

/-- A pass leaves the times. -/
theorem reinforcedAt_applyDecay (hs : s.ReinforcedAt reinforced) (fault : Option String) :
    (applyDecay clock config times fault s).1.ReinforcedAt reinforced := by
  cases fault with
  | some error => exact hs
  | none =>
    intro r' hr'
    obtain ⟨r, hr, rfl⟩ := mem_memories_applyDecay.1 hr'
    rw [same_passed.1, same_passed.2]
    exact hs r hr

/-- The times after a reinforcement. -/
def reinforcedNow (s : Store) (key : String) (now : Stamp) (reinforced : String → Option Stamp)
    (id : String) : Option Stamp :=
  if (s.memoryByKey key).any (fun r => r.id = id) then some now else reinforced id

theorem reinforcedNow_of_mem {r : MemoryRow} (hr : r ∈ s.memories) (key : String) (now : Stamp) :
    reinforcedNow s key now reinforced r.id = if r.key = key then some now else reinforced r.id := by
  unfold reinforcedNow
  refine if_congr ?_ rfl rfl
  rw [Option.any_eq_true]
  constructor
  · rintro ⟨r₀, hfind, hid⟩
    obtain ⟨hr₀, hkey⟩ := Store.memoryByKey_eq_some.1 hfind
    rw [← hkey, Store.eq_of_id hr₀ hr (of_decide_eq_true hid)]
  · intro hkey
    exact ⟨r, Store.memoryByKey_eq_some.2 ⟨hr, hkey⟩, decide_eq_true rfl⟩

/-- A reinforcement writes the time it is made at. -/
theorem reinforcedAt_reinforceMemory (hs : s.ReinforcedAt reinforced) {now : Stamp}
    (hnow : now.format.offset = 0) (key : String) (strength : ℚ) :
    (s.reinforceMemory now.toSecond.text key strength).1.ReinforcedAt
      (reinforcedNow s key now reinforced) := by
  intro r' hr'
  change r' ∈ (s.updateMemories (fun r => r.key = key)
    (MemoryRow.reinforce strength now.toSecond.text) fun _ => ⟨rfl, rfl⟩).memories at hr'
  obtain ⟨r, hr, rfl⟩ := Store.mem_memories_updateMemories.1 hr'
  by_cases hkey : r.key = key
  · rw [if_pos (decide_eq_true hkey)]
    show some _ = (reinforcedNow s key now reinforced r.id).map _ ∧
      ∀ t ∈ reinforcedNow s key now reinforced r.id, _
    rw [reinforcedNow_of_mem hr, if_pos hkey]
    refine ⟨rfl, ?_⟩
    rintro t ⟨⟩
    exact hnow
  · rw [if_neg (by simpa using hkey), reinforcedNow_of_mem hr, if_neg hkey]
    exact hs r hr

end

/-! ## A pass on the first of March -/

/-- Ten o'clock of a day of winter. -/
def tenOClock (month day : ℕ) (h : 0 < month ∧ month ≤ 3) (hday : 0 < day ∧ day ≤ 28) : Stamp :=
  let first := Store.marchAt 10 (by decide) .space
  { first with
    date := ⟨2026, month, day, first.date.year_lt, h.1, by omega, hday.1, by
      have hmonths : ∀ month : Fin 4, 0 < month.val →
          daysBeforeMonth 2026 month.val + 28 ≤ daysBeforeMonth 2026 (month.val + 1) := by decide
      have := hmonths ⟨month, by omega⟩ h.1
      dsimp only at this
      omega⟩ }

/-- Thirty days and seven days before a pass on the twentieth of March. -/
def marchClock : SqliteClock where
  datetime now modifier :=
    if now = tenOClock 3 20 (by decide) (by decide) then
      if modifier = daysOffset 30 then some "2026-02-18 10:00:00"
      else if modifier = daysOffset 7 then some "2026-03-13 10:00:00"
      else none
    else none

/-- Both updates at ten. -/
def marchPass : PassTimes :=
  ⟨tenOClock 3 20 (by decide) (by decide), tenOClock 3 20 (by decide) (by decide), rfl, rfl, le_rfl⟩

theorem passReads_marchClock : PassReads marchClock {} marchPass := by
  have hdecay : decayCutoff marchClock {} marchPass =
      some (tenOClock 2 18 (by decide) (by decide)).toSecond.text := by decide +kernel
  have hboost : boostCutoff marchClock {} marchPass =
      some (tenOClock 3 13 (by decide) (by decide)).toSecond.text := by decide +kernel
  refine ⟨fun c hc => ?_, fun c hc => ?_⟩
  · rw [hdecay] at hc
    cases hc
    exact Or.inl ⟨_, rfl, by decide +kernel⟩
  · rw [hboost] at hc
    cases hc
    exact Or.inl ⟨_, rfl, by decide +kernel⟩

/-- A note that was reinforced in February, one two days before the pass, and one never. -/
def threeNotes : Store where
  memories := .ofList
    [{ id := "0aa1", key := "plan", content := "ship on monday", signalScore := 12 / 100,
        createdAt := "2026-01-02 09:00:00", updatedAt := "2026-02-01 10:00:00",
        lastReinforcedAt := some "2026-02-01 10:00:00" },
      { id := "0bb2", key := "change", content := "ship on tuesday", signalScore := 99 / 100,
        createdAt := "2026-01-03 09:00:00", updatedAt := "2026-03-18 10:00:00",
        lastReinforcedAt := some "2026-03-18 10:00:00" },
      { id := "0cc3", key := "rest", content := "rest on sunday",
        createdAt := "2026-01-04 09:00:00", updatedAt := "2026-01-04 09:00:00" }]

/-- When they were reinforced. -/
def threeTimes (id : String) : Option Stamp :=
  if id = "0aa1" then some (tenOClock 2 1 (by decide) (by decide))
  else if id = "0bb2" then some (tenOClock 3 18 (by decide) (by decide))
  else none

/-- The first is lowered to the floor, the second raised to the cap, the third lowered. -/
theorem bounded_threeNotes :
    BoundedPass marchClock {} marchPass threeTimes threeNotes
      (applyDecay marchClock {} marchPass none threeNotes).1 ∧
    (applyDecay marchClock {} marchPass none threeNotes).1.memories.rows.map MemoryRow.signalScore =
      [10 / 100, 1, 45 / 100] :=
  ⟨bounded_applyDecay marchClock {} marchPass passReads_marchClock (by decide +kernel)
    (by decide +kernel) (by decide) none threeNotes threeTimes (by decide +kernel), by decide +kernel⟩

end Spectral
