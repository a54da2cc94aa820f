import Spectral.Lib.References

/-!
# The migration of foreign keys

An old database may have child tables without `ON DELETE CASCADE`, and rows in any of them whose
memory is gone.  `migrate_fk_cascade` rebuilds two of the tables in one transaction, without such
rows, and then checks the foreign keys of all of them.

* `migrateFkCascade` — the migration; an error rolls the transaction back.
* `MigratesSafely` — it succeeds, keeps what is not orphaned, leaves no orphan in what it rebuilds,
  and changes nothing when it runs again or fails.
* `migratesSafely_iff` — if and only if the tables that it does not rebuild have no orphans.
-/

namespace Spectral

open Spectral.Lib

/-! ## The database -/

section

variable (ρ : Type)

/-- A row of `memories`: its names, and the other columns. -/
structure LegacyMemory where
  id : String
  key : String
  rest : ρ

structure LegacyFingerprint where
  id : String
  anchorMemoryId : String
  targetMemoryId : String
  rest : ρ

structure LegacySpectrogram where
  memoryId : String
  rest : ρ

structure LegacyAnnotationRow where
  id : String
  memoryId : String
  rest : ρ

structure LegacyEdge where
  sourceKey : String
  targetKey : String
  rest : ρ

structure LegacySession where
  memoryId : String
  sessionId : String
  rest : ρ

structure LegacyTurnEvent where
  occurrenceId : String
  rest : ρ

structure LegacyTurnMember where
  occurrenceId : String
  memoryId : String
  rest : ρ

/-- A database of an earlier schema: the tables that have foreign keys, and those that these refer
to. -/
structure LegacyDatabase where
  memories : Table (LegacyMemory ρ) fun a b => a.id = b.id ∨ a.key = b.key
  turnEvents : Table (LegacyTurnEvent ρ) (SameKey LegacyTurnEvent.occurrenceId)
  fingerprints : ChildTable (LegacyFingerprint ρ) (SameKey LegacyFingerprint.id)
  spectrograms : ChildTable (LegacySpectrogram ρ) (SameKey LegacySpectrogram.memoryId)
  annotations : ChildTable (LegacyAnnotationRow ρ) (SameKey LegacyAnnotationRow.id)
  consolidationEdges : ChildTable (LegacyEdge ρ) (SameKey fun e => (e.sourceKey, e.targetKey))
  memorySessions : ChildTable (LegacySession ρ) (SameKey fun m => (m.memoryId, m.sessionId))
  turnMembers : ChildTable (LegacyTurnMember ρ) (SameKey fun m => (m.occurrenceId, m.memoryId))

end

namespace LegacyDatabase

variable {ρ : Type}

section

variable (db : LegacyDatabase ρ)

/-- `needs_fp_migration`. -/
def needsFpMigration : Bool := db.fingerprints.cascades == some false

/-- `needs_spec_migration`. -/
def needsSpecMigration : Bool := db.spectrograms.cascades == some false

/-- `constellation_fingerprints` without orphans, in a new table. -/
def rebuildFingerprints : LegacyDatabase ρ :=
  { db with
    fingerprints :=
      { rows := (db.fingerprints.rows.deleteOrphans LegacyFingerprint.anchorMemoryId LegacyMemory.id
          db.memories).deleteOrphans LegacyFingerprint.targetMemoryId LegacyMemory.id db.memories } }

/-- `memory_spectrogram` without orphans, in a new table. -/
def rebuildSpectrograms : LegacyDatabase ρ :=
  { db with
    spectrograms :=
      { rows := db.spectrograms.rows.deleteOrphans LegacySpectrogram.memoryId LegacyMemory.id
          db.memories } }

/-- What the transaction does before the check. -/
def rebuilt : LegacyDatabase ρ :=
  let db' := if db.needsFpMigration then db.rebuildFingerprints else db
  if db.needsSpecMigration then db'.rebuildSpectrograms else db'

/-- `SELECT COUNT(*) FROM pragma_foreign_key_check`: the rows of every table. -/
def foreignKeyCheck : ℕ :=
  db.fingerprints.violations LegacyFingerprint.anchorMemoryId LegacyMemory.id db.memories +
  db.fingerprints.violations LegacyFingerprint.targetMemoryId LegacyMemory.id db.memories +
  db.spectrograms.violations LegacySpectrogram.memoryId LegacyMemory.id db.memories +
  db.annotations.violations LegacyAnnotationRow.memoryId LegacyMemory.id db.memories +
  db.consolidationEdges.violations LegacyEdge.sourceKey LegacyMemory.key db.memories +
  db.memorySessions.violations LegacySession.memoryId LegacyMemory.id db.memories +
  db.turnMembers.violations LegacyTurnMember.occurrenceId LegacyTurnEvent.occurrenceId
    db.turnEvents +
  db.turnMembers.violations LegacyTurnMember.memoryId LegacyMemory.id db.memories

/-- `migrate_fk_cascade`.  A `fault` is the error of a statement of the transaction. -/
def migrateFkCascade (fault : Option String) : LegacyDatabase ρ × Except String Unit :=
  if !db.needsFpMigration && !db.needsSpecMigration then (db, .ok ())
  else
    match fault with
    | some e => (db, .error e)
    | none =>
      let fkViolations := db.rebuilt.foreignKeyCheck
      if fkViolations > 0 then
        (db, .error
          s!"FK cascade migration: {fkViolations} FK violations remain after orphan cleanup")
      else (db.rebuilt, .ok ())

/-! ## What it is to do -/

/-- What is not orphaned is there afterwards, and nothing else. -/
structure Preserves (db' : LegacyDatabase ρ) : Prop where
  memories : db'.memories = db.memories
  turnEvents : db'.turnEvents = db.turnEvents
  fingerprints : ∀ x, x ∈ db'.fingerprints.rows → x ∈ db.fingerprints.rows
  fingerprints_kept : ∀ x ∈ db.fingerprints.rows, db.memories.Has LegacyMemory.id x.anchorMemoryId →
    db.memories.Has LegacyMemory.id x.targetMemoryId → x ∈ db'.fingerprints.rows
  spectrograms : ∀ x, x ∈ db'.spectrograms.rows → x ∈ db.spectrograms.rows
  spectrograms_kept : ∀ x ∈ db.spectrograms.rows, db.memories.Has LegacyMemory.id x.memoryId →
    x ∈ db'.spectrograms.rows
  annotations : db'.annotations = db.annotations
  consolidationEdges : db'.consolidationEdges = db.consolidationEdges
  memorySessions : db'.memorySessions = db.memorySessions
  turnMembers : db'.turnMembers = db.turnMembers

/-- The tables that are rebuilt have no orphans. -/
structure Clean (db' : LegacyDatabase ρ) : Prop where
  fingerprints : db.needsFpMigration = true → ∀ x ∈ db'.fingerprints.rows,
    db'.memories.Has LegacyMemory.id x.anchorMemoryId ∧
      db'.memories.Has LegacyMemory.id x.targetMemoryId
  spectrograms : db.needsSpecMigration = true → ∀ x ∈ db'.spectrograms.rows,
    db'.memories.Has LegacyMemory.id x.memoryId

/-- **An old database is opened**, and keeps its data. -/
structure MigratesSafely : Prop where
  succeeds : (db.migrateFkCascade none).2 = .ok ()
  preserves : db.Preserves (db.migrateFkCascade none).1
  clean : db.Clean (db.migrateFkCascade none).1
  again : (db.migrateFkCascade none).1.migrateFkCascade none = ((db.migrateFkCascade none).1, .ok ())
  restored : ∀ fault e, (db.migrateFkCascade fault).2 = .error e → (db.migrateFkCascade fault).1 = db

/-- Every foreign key that is declared in a table that is not rebuilt is that of a row. -/
structure OthersResolved : Prop where
  anchors : db.needsFpMigration = false →
    db.fingerprints.Resolved LegacyFingerprint.anchorMemoryId LegacyMemory.id db.memories
  targets : db.needsFpMigration = false →
    db.fingerprints.Resolved LegacyFingerprint.targetMemoryId LegacyMemory.id db.memories
  spectrograms : db.needsSpecMigration = false →
    db.spectrograms.Resolved LegacySpectrogram.memoryId LegacyMemory.id db.memories
  annotations : db.annotations.Resolved LegacyAnnotationRow.memoryId LegacyMemory.id db.memories
  consolidationEdges : db.consolidationEdges.Resolved LegacyEdge.sourceKey LegacyMemory.key db.memories
  memorySessions : db.memorySessions.Resolved LegacySession.memoryId LegacyMemory.id db.memories
  turnEvents : db.turnMembers.Resolved LegacyTurnMember.occurrenceId LegacyTurnEvent.occurrenceId
    db.turnEvents
  turnMembers : db.turnMembers.Resolved LegacyTurnMember.memoryId LegacyMemory.id db.memories

/-- **The condition.** -/
def Migratable : Prop :=
  db.needsFpMigration = true ∨ db.needsSpecMigration = true → db.OthersResolved

end

variable {db : LegacyDatabase ρ}

/-! ## The rebuild -/

theorem preserves_refl : db.Preserves db :=
  ⟨rfl, rfl, fun _ hx => hx, fun _ hx _ _ => hx, fun _ hx => hx, fun _ hx _ => hx, rfl, rfl, rfl, rfl⟩

theorem mem_rebuildFingerprints {x : LegacyFingerprint ρ} :
    x ∈ db.rebuildFingerprints.fingerprints.rows ↔ x ∈ db.fingerprints.rows ∧
      db.memories.Has LegacyMemory.id x.anchorMemoryId ∧
        db.memories.Has LegacyMemory.id x.targetMemoryId := by
  show x ∈ Table.deleteOrphans _ LegacyFingerprint.targetMemoryId LegacyMemory.id db.memories ↔ _
  rw [mem_deleteOrphans, mem_deleteOrphans, and_assoc]

theorem mem_rebuildSpectrograms {x : LegacySpectrogram ρ} :
    x ∈ db.rebuildSpectrograms.spectrograms.rows ↔
      x ∈ db.spectrograms.rows ∧ db.memories.Has LegacyMemory.id x.memoryId := mem_deleteOrphans

theorem fingerprints_rebuilt : db.rebuilt.fingerprints =
    if db.needsFpMigration then db.rebuildFingerprints.fingerprints else db.fingerprints := by
  unfold rebuilt
  cases db.needsFpMigration <;> cases db.needsSpecMigration <;> rfl

theorem spectrograms_rebuilt : db.rebuilt.spectrograms =
    if db.needsSpecMigration then db.rebuildSpectrograms.spectrograms else db.spectrograms := by
  unfold rebuilt
  cases db.needsFpMigration <;> cases db.needsSpecMigration <;> rfl

theorem memories_rebuilt : db.rebuilt.memories = db.memories := by
  unfold rebuilt
  cases db.needsFpMigration <;> cases db.needsSpecMigration <;> rfl

/-- The rebuild keeps what is not orphaned. -/
theorem preserves_rebuilt : db.Preserves db.rebuilt := by
  have hfingerprints : ∀ x, x ∈ db.rebuilt.fingerprints.rows ↔ x ∈ db.fingerprints.rows ∧
      (db.needsFpMigration = true → db.memories.Has LegacyMemory.id x.anchorMemoryId ∧
        db.memories.Has LegacyMemory.id x.targetMemoryId) := by
    intro x
    rw [fingerprints_rebuilt]
    cases db.needsFpMigration with
    | false => simp
    | true => simpa using mem_rebuildFingerprints
  have hspectrograms : ∀ x, x ∈ db.rebuilt.spectrograms.rows ↔ x ∈ db.spectrograms.rows ∧
      (db.needsSpecMigration = true → db.memories.Has LegacyMemory.id x.memoryId) := by
    intro x
    rw [spectrograms_rebuilt]
    cases db.needsSpecMigration with
    | false => simp
    | true => simpa using mem_rebuildSpectrograms
  refine ⟨memories_rebuilt, ?_, fun x hx => ((hfingerprints x).1 hx).1,
    fun x hx ha ht => (hfingerprints x).2 ⟨hx, fun _ => ⟨ha, ht⟩⟩,
    fun x hx => ((hspectrograms x).1 hx).1, fun x hx hm => (hspectrograms x).2 ⟨hx, fun _ => hm⟩,
    ?_, ?_, ?_, ?_⟩
  all_goals
    unfold rebuilt
    cases db.needsFpMigration <;> cases db.needsSpecMigration <;> rfl

theorem clean_rebuilt : db.Clean db.rebuilt := by
  refine ⟨fun hneeds x hx => ?_, fun hneeds x hx => ?_⟩
  · rw [fingerprints_rebuilt, if_pos hneeds] at hx
    rw [memories_rebuilt]
    exact (mem_rebuildFingerprints.1 hx).2
  · rw [spectrograms_rebuilt, if_pos hneeds] at hx
    rw [memories_rebuilt]
    exact (mem_rebuildSpectrograms.1 hx).2

/-- Afterwards nothing is left to rebuild. -/
theorem needsMigration_rebuilt :
    db.rebuilt.needsFpMigration = false ∧ db.rebuilt.needsSpecMigration = false := by
  unfold needsFpMigration needsSpecMigration
  rw [fingerprints_rebuilt, spectrograms_rebuilt]
  constructor
  · cases hneeds : db.needsFpMigration with
    | false => exact hneeds
    | true => rfl
  · cases hneeds : db.needsSpecMigration with
    | false => exact hneeds
    | true => rfl

/-! ## The check -/

/-- **The check** passes if and only if the tables that are not rebuilt pass it. -/
theorem foreignKeyCheck_rebuilt_iff : db.rebuilt.foreignKeyCheck = 0 ↔ db.OthersResolved := by
  have hclean := @clean_rebuilt ρ db
  have hkept := @preserves_rebuilt ρ db
  have hfingerprints : ∀ column : LegacyFingerprint ρ → String,
      (db.needsFpMigration = true → ∀ x ∈ db.rebuilt.fingerprints.rows,
        db.memories.Has LegacyMemory.id (column x)) →
      (db.rebuilt.fingerprints.Resolved column LegacyMemory.id db.memories ↔
        (db.needsFpMigration = false →
          db.fingerprints.Resolved column LegacyMemory.id db.memories)) := by
    intro column hresolved
    cases hneeds : db.needsFpMigration with
    | false => rw [fingerprints_rebuilt, if_neg (by simp [hneeds])]; simp
    | true => exact iff_of_true (fun _ => hresolved hneeds) nofun
  have hspectrograms : db.rebuilt.spectrograms.Resolved LegacySpectrogram.memoryId LegacyMemory.id
      db.memories ↔ (db.needsSpecMigration = false →
        db.spectrograms.Resolved LegacySpectrogram.memoryId LegacyMemory.id db.memories) := by
    cases hneeds : db.needsSpecMigration with
    | false => rw [spectrograms_rebuilt, if_neg (by simp [hneeds])]; simp
    | true => exact iff_of_true (fun _ => memories_rebuilt ▸ hclean.spectrograms hneeds) nofun
  have hanchors := hfingerprints LegacyFingerprint.anchorMemoryId fun hneeds x hx =>
    memories_rebuilt ▸ (hclean.fingerprints hneeds x hx).1
  have htargets := hfingerprints LegacyFingerprint.targetMemoryId fun hneeds x hx =>
    memories_rebuilt ▸ (hclean.fingerprints hneeds x hx).2
  unfold foreignKeyCheck
  simp only [Nat.add_eq_zero_iff, violations_eq_zero_iff, hkept.memories, hkept.turnEvents,
    hkept.annotations, hkept.consolidationEdges, hkept.memorySessions, hkept.turnMembers, hanchors,
    htargets, hspectrograms]
  constructor
  · rintro ⟨⟨⟨⟨⟨⟨⟨hfp, hfp'⟩, hspec⟩, hann⟩, hedge⟩, hsess⟩, hturn⟩, hmember⟩
    exact ⟨hfp, hfp', hspec, hann, hedge, hsess, hturn, hmember⟩
  · rintro ⟨hfp, hfp', hspec, hann, hedge, hsess, hturn, hmember⟩
    exact ⟨⟨⟨⟨⟨⟨⟨hfp, hfp'⟩, hspec⟩, hann⟩, hedge⟩, hsess⟩, hturn⟩, hmember⟩

/-! ## The migration -/

theorem migrateFkCascade_of_done (fault : Option String)
    (h : db.needsFpMigration = false ∧ db.needsSpecMigration = false) :
    db.migrateFkCascade fault = (db, .ok ()) := by
  simp [migrateFkCascade, h.1, h.2]

/-- **A failure** rolls back. -/
theorem migrateFkCascade_of_error {fault : Option String} {e : String}
    (h : (db.migrateFkCascade fault).2 = .error e) : (db.migrateFkCascade fault).1 = db := by
  unfold migrateFkCascade at h ⊢
  split
  · rfl
  · rename_i hneeds
    rw [if_neg hneeds] at h
    cases fault with
    | some e => rfl
    | none =>
      dsimp only at h ⊢
      split
      · rfl
      · rename_i hchecked
        rw [if_neg hchecked] at h
        cases h

/-- What succeeds is the rebuild of a database whose other tables are resolved. -/
theorem migrateFkCascade_none_iff :
    (db.migrateFkCascade none).2 = .ok () ↔ db.Migratable := by
  unfold migrateFkCascade Migratable
  by_cases hneeds : db.needsFpMigration = true ∨ db.needsSpecMigration = true
  · have hrebuilds : ¬ (!db.needsFpMigration && !db.needsSpecMigration) = true := by
      rcases hneeds with hfp | hspec
      · simp [hfp]
      · simp [hspec]
    rw [if_neg hrebuilds, ← foreignKeyCheck_rebuilt_iff]
    dsimp only
    by_cases hchecked : db.rebuilt.foreignKeyCheck = 0
    · simp [hchecked]
    · rw [if_pos (Nat.pos_of_ne_zero hchecked)]
      exact iff_of_false nofun fun h => hchecked (h hneeds)
  · rw [if_pos (by simpa using hneeds)]
    exact iff_of_true rfl fun h => absurd h hneeds

theorem migrateFkCascade_of_ok (h : (db.migrateFkCascade none).2 = .ok ()) :
    (db.migrateFkCascade none).1 = db.rebuilt := by
  unfold migrateFkCascade at h ⊢
  split
  · rename_i hdone
    obtain ⟨hfp, hspec⟩ := Bool.and_eq_true_iff.1 hdone
    unfold rebuilt
    rw [Bool.not_eq_true'] at hfp hspec
    rw [hfp, hspec]
    rfl
  · rename_i hneeds
    rw [if_neg hneeds] at h
    dsimp only at h ⊢
    split
    · rename_i hchecked
      rw [if_pos hchecked] at h
      cases h
    · rfl

/-- **Every database**: it is migrated safely if and only if what is not rebuilt has no orphans. -/
theorem migratesSafely_iff (db : LegacyDatabase ρ) : db.MigratesSafely ↔ db.Migratable := by
  refine ⟨fun h => migrateFkCascade_none_iff.1 h.succeeds, fun h => ?_⟩
  have hok := migrateFkCascade_none_iff.2 h
  have hdone := migrateFkCascade_of_ok hok
  refine ⟨hok, ?_, ?_, ?_, fun _ _ => migrateFkCascade_of_error⟩
  · rw [hdone]
    exact preserves_rebuilt
  · rw [hdone]
    exact clean_rebuilt
  · rw [hdone]
    exact migrateFkCascade_of_done none needsMigration_rebuilt

/-! ## An annotation that outlived its memory -/

/-- An old database with one memory: a fingerprint and a spectrogram of it, each beside one whose
memory is gone, and an annotation of the one that is gone. -/
def annotatedOrphan : LegacyDatabase Unit where
  memories := .ofList [⟨"m1", "k1", ()⟩]
  turnEvents := .empty
  fingerprints :=
    { rows := .ofList [⟨"fp1", "m1", "m1", ()⟩, ⟨"fp2", "gone", "m1", ()⟩], cascades := some false }
  spectrograms := { rows := .ofList [⟨"m1", ()⟩, ⟨"gone", ()⟩], cascades := some false }
  annotations := { rows := .ofList [⟨"a1", "gone", ()⟩] }
  consolidationEdges := { rows := .empty }
  memorySessions := { rows := .empty }
  turnMembers := { rows := .empty }

/-- **The database cannot be opened**: the check finds the annotation, which nothing cleans up. -/
theorem annotatedOrphan_fails :
    (annotatedOrphan.migrateFkCascade none).2 =
        .error "FK cascade migration: 1 FK violations remain after orphan cleanup" ∧
      ¬ annotatedOrphan.MigratesSafely := by
  have herror : (annotatedOrphan.migrateFkCascade none).2 =
      .error "FK cascade migration: 1 FK violations remain after orphan cleanup" := by decide +kernel
  refine ⟨herror, fun h => ?_⟩
  have hok := h.succeeds
  rw [herror] at hok
  cases hok

end LegacyDatabase

end Spectral
