import Spectral.Lib.Table
import Spectral.Core.Identity

/-!
# The memory store: schema and state

The tables of `spectral-ingest::sqlite_store` and `federation_sync`, row by row, and
the store that holds them.  Each table carries the uniqueness constraints of its
`CREATE TABLE` statement (`Spectral.Lib.Table`), so two rows with one `id` or one
`key` cannot occur.

`Store.deleteMemories` is the statement `DELETE FROM memories WHERE ...` with the
`ON DELETE CASCADE` of the tables that refer to a memory.  The shared-wing manifest
and the tombstones refer to memories by value and are not cascaded.

Columns no operation of the model reads or writes are left out, and `REAL` columns
are exact rationals.
-/

namespace Spectral

open Spectral.Lib

/-! ## Rows -/

/-- `CompactionTier`. -/
inductive CompactionTier where
  | raw
  | hourlyRollup
  | dailyRollup
  | weeklyRollup
  deriving DecidableEq, Repr

/-- A row of `memories`. -/
structure MemoryRow where
  id : String
  key : String
  content : String
  wing : Option String := none
  hall : Option String := none
  signalScore : ℚ := 1 / 2
  visibility : String := "private"
  createdAt : String
  updatedAt : String
  source : Option String := none
  deviceId : Option Bytes32 := none
  confidence : ℚ := 1
  lastReinforcedAt : Option String := none
  episodeId : Option String := none
  compactionTier : Option CompactionTier := none
  declarativeDensity : Option ℚ := none
  description : Option String := none
  descriptionGeneratedAt : Option String := none
  contentHash : Option String := none
  sourceBrainId : Option Bytes32 := none
  signature : Option (List UInt8) := none
  validFrom : Option String := none
  validTo : String := "9999-12-31T23:59:59.999Z"
  deriving DecidableEq

/-- `id` is the primary key of `memories` and `key` is unique. -/
def MemoryRow.Clash (a b : MemoryRow) : Prop := a.id = b.id ∨ a.key = b.key

instance : DecidableRel MemoryRow.Clash :=
  fun a b => inferInstanceAs (Decidable (a.id = b.id ∨ a.key = b.key))

instance : Std.Symm MemoryRow.Clash := ⟨fun _ _ h => h.imp Eq.symm Eq.symm⟩

instance : Std.Refl MemoryRow.Clash := ⟨fun _ => Or.inl rfl⟩

/-- A row of `constellation_fingerprints`. -/
structure FingerprintRow where
  id : String
  hash : String
  anchorMemoryId : String
  targetMemoryId : String
  wing : String
  anchorHall : String
  targetHall : String
  timeDeltaBucket : String
  createdAt : String
  deriving DecidableEq

/-- A row of `memory_spectrogram`, by the memory it describes. -/
structure SpectrogramRow where
  memoryId : String
  deriving DecidableEq

/-- A row of `memory_annotations`, by the memory it annotates. -/
structure AnnotationRow where
  id : String
  memoryId : String
  deriving DecidableEq

/-- A row of `consolidation_edges`. -/
structure ConsolidationEdge where
  sourceKey : String
  targetKey : String
  deriving DecidableEq

/-- A row of `co_retrieval_pairs`. -/
structure CoRetrievalPair where
  memoryIdA : String
  memoryIdB : String
  coCount : ℕ := 0
  deriving DecidableEq

/-- A row of `memory_sessions`. -/
structure MemorySession where
  memoryId : String
  sessionId : String
  deriving DecidableEq

/-- A row of `retrieval_events`. -/
structure RetrievalEvent where
  id : ℕ
  memoryIdsJson : String
  deriving DecidableEq

/-- A row of `episodes`. -/
structure EpisodeRow where
  id : String
  startedAt : String
  endedAt : String
  memoryCount : ℕ
  wing : String
  summaryPreview : Option String
  updatedAt : String
  deriving DecidableEq

/-- A row of `shared_wing_members`: the manifest entry of an object in a wing. -/
structure ManifestRow where
  wingId : String
  objectHash : String
  memKey : String
  origKey : Option String
  supersedes : Option String
  sig : Option (List UInt8) := none
  deriving DecidableEq

/-- A row of `sync_tombstones`: a retraction in a wing. -/
structure TombstoneRow where
  wingId : String
  targetHash : String
  ts : String
  authorId : Option Bytes32 := none
  sig : Option (List UInt8) := none
  deriving DecidableEq

/-- `LedgerOutcome`: what the caller reported for a delivered memory. -/
inductive LedgerOutcome where
  | used
  | wrong
  | ignored
  | unreported
  deriving DecidableEq, Repr

/-- A row of `turn_events`. -/
structure TurnEventRow where
  occurrenceId : String
  deliveryDigest : String
  queryHash : Option String
  sessionId : Option String
  policy : String
  deliveredAt : String
  committedAt : Option String := none
  voidedAt : Option String := none
  deriving DecidableEq

/-- A row of `turn_members`. -/
structure TurnMemberRow where
  occurrenceId : String
  rank : ℕ
  memoryId : String
  memoryKey : String
  outcome : LedgerOutcome := .unreported
  deriving DecidableEq

/-! ## Tables -/

/-- The primary key of `shared_wing_members`. -/
abbrev ManifestRow.pk (m : ManifestRow) : String × String := (m.wingId, m.objectHash)

/-- The primary key of `sync_tombstones`. -/
abbrev TombstoneRow.pk (t : TombstoneRow) : String × String := (t.wingId, t.targetHash)

/-- The primary key of `turn_members`. -/
abbrev TurnMemberRow.pk (m : TurnMemberRow) : String × String := (m.occurrenceId, m.memoryId)

/-- The state of a store: its tables. -/
structure Store where
  memories : Table MemoryRow MemoryRow.Clash := .empty
  fingerprints : Table FingerprintRow (SameKey FingerprintRow.id) := .empty
  spectrograms : Table SpectrogramRow (SameKey SpectrogramRow.memoryId) := .empty
  annotations : Table AnnotationRow (SameKey AnnotationRow.id) := .empty
  consolidationEdges : Table ConsolidationEdge (SameKey fun e => (e.sourceKey, e.targetKey)) := .empty
  coRetrievalPairs : Table CoRetrievalPair (SameKey fun p => (p.memoryIdA, p.memoryIdB)) := .empty
  memorySessions : Table MemorySession (SameKey fun m => (m.memoryId, m.sessionId)) := .empty
  retrievalEvents : Table RetrievalEvent (SameKey RetrievalEvent.id) := .empty
  episodes : Table EpisodeRow (SameKey EpisodeRow.id) := .empty
  sharedWingMembers : Table ManifestRow (SameKey ManifestRow.pk) := .empty
  syncTombstones : Table TombstoneRow (SameKey TombstoneRow.pk) := .empty
  turnEvents : Table TurnEventRow (SameKey TurnEventRow.occurrenceId) := .empty
  turnMembers : Table TurnMemberRow (SameKey TurnMemberRow.pk) := .empty
  deriving DecidableEq

namespace Store

variable (s : Store)

/-- The `memories` row with a given key. -/
def memoryByKey (key : String) : Option MemoryRow := s.memories.find? fun r => r.key = key

theorem memoryByKey_eq_some {s : Store} {key : String} {r : MemoryRow} :
    s.memoryByKey key = some r ↔ r ∈ s.memories ∧ r.key = key := by
  constructor
  · intro h
    obtain ⟨hr, hk⟩ := Table.mem_of_find?_eq_some h
    exact ⟨hr, by simpa using hk⟩
  · rintro ⟨hr, hk⟩
    refine Table.find?_eq_some_of_unique hr (by simpa using hk) fun b hb hbk => ?_
    exact Table.eq_of_clash hb hr (Or.inr (by rw [of_decide_eq_true hbk, hk]))

theorem memoryByKey_eq_none {s : Store} {key : String} :
    s.memoryByKey key = none ↔ ∀ r ∈ s.memories, r.key ≠ key := by
  rw [memoryByKey, Table.find?_eq_none]
  simp

/-- `get_memory`: the `memories` row with a given id. -/
def getMemory (id : String) : Option MemoryRow := s.memories.find? fun r => r.id = id

theorem getMemory_eq_some {s : Store} {id : String} {r : MemoryRow} :
    s.getMemory id = some r ↔ r ∈ s.memories ∧ r.id = id := by
  constructor
  · intro h
    obtain ⟨hr, hid⟩ := Table.mem_of_find?_eq_some h
    exact ⟨hr, of_decide_eq_true hid⟩
  · rintro ⟨hr, hid⟩
    refine Table.find?_eq_some_of_unique hr (decide_eq_true hid) fun b hb hbid => ?_
    exact Table.eq_of_clash hb hr (Or.inl (by rw [of_decide_eq_true hbid, hid]))

/-- Rows with one key are one row. -/
theorem eq_of_key {s : Store} {a b : MemoryRow} (ha : a ∈ s.memories) (hb : b ∈ s.memories)
    (h : a.key = b.key) : a = b := Table.eq_of_clash ha hb (Or.inr h)

/-- Rows with one id are one row. -/
theorem eq_of_id {s : Store} {a b : MemoryRow} (ha : a ∈ s.memories) (hb : b ∈ s.memories)
    (h : a.id = b.id) : a = b := Table.eq_of_clash ha hb (Or.inl h)

/-- A wing's manifest has one entry for an object. -/
theorem eq_of_manifest_pk {s : Store} {m n : ManifestRow} (hm : m ∈ s.sharedWingMembers)
    (hn : n ∈ s.sharedWingMembers) (hw : m.wingId = n.wingId) (hh : m.objectHash = n.objectHash) :
    m = n := Table.eq_of_clash hm hn (Prod.ext hw hh)

/-- `DELETE FROM memories WHERE p`: the selected rows go, and with them, by cascade,
the rows of the referring tables. -/
def deleteMemories (p : MemoryRow → Bool) : Store :=
  let goneId (id : String) : Bool := s.memories.rows.any fun r => p r && r.id == id
  let goneKey (key : String) : Bool := s.memories.rows.any fun r => p r && r.key == key
  { s with
    memories := s.memories.deleteWhere p
    fingerprints := s.fingerprints.deleteWhere fun f =>
      goneId f.anchorMemoryId || goneId f.targetMemoryId
    spectrograms := s.spectrograms.deleteWhere fun g => goneId g.memoryId
    annotations := s.annotations.deleteWhere fun a => goneId a.memoryId
    consolidationEdges := s.consolidationEdges.deleteWhere fun e => goneKey e.sourceKey
    memorySessions := s.memorySessions.deleteWhere fun m => goneId m.memoryId
    turnMembers := s.turnMembers.deleteWhere fun m => goneId m.memoryId }

section

variable (p : MemoryRow → Bool)

@[simp] theorem memories_deleteMemories :
    (s.deleteMemories p).memories = s.memories.deleteWhere p := rfl

@[simp] theorem sharedWingMembers_deleteMemories :
    (s.deleteMemories p).sharedWingMembers = s.sharedWingMembers := rfl

@[simp] theorem syncTombstones_deleteMemories :
    (s.deleteMemories p).syncTombstones = s.syncTombstones := rfl

@[simp] theorem turnEvents_deleteMemories : (s.deleteMemories p).turnEvents = s.turnEvents := rfl

/-- A delete selects a row with a property of its columns, among the rows of before or among
those an earlier delete left. -/
theorem any_deleteWhere_or (p q : MemoryRow → Bool) (φ : MemoryRow → Bool) :
    (s.memories.rows.any (fun r => p r && φ r) ||
        (s.memories.deleteWhere p).rows.any fun r => q r && φ r) =
      s.memories.rows.any fun r => (p r || q r) && φ r := by
  rw [Bool.eq_iff_iff, Bool.or_eq_true]
  simp only [List.any_eq_true, Bool.and_eq_true, Bool.or_eq_true, Table.mem_rows,
    Table.mem_deleteWhere]
  constructor
  · rintro (⟨r, hr, hp, hφ⟩ | ⟨r, ⟨hr, -⟩, hq, hφ⟩)
    · exact ⟨r, hr, Or.inl hp, hφ⟩
    · exact ⟨r, hr, Or.inr hq, hφ⟩
  · rintro ⟨r, hr, hpq, hφ⟩
    cases hp : p r with
    | true => exact Or.inl ⟨r, hr, hp, hφ⟩
    | false => exact Or.inr ⟨r, ⟨hr, hp⟩, hpq.resolve_left (by simp [hp]), hφ⟩

/-- Two deletes, one after the other, with what they cascade to. -/
theorem deleteMemories_deleteMemories (p q : MemoryRow → Bool) :
    (s.deleteMemories p).deleteMemories q = s.deleteMemories fun r => p r || q r := by
  have hgone := any_deleteWhere_or s p q
  unfold deleteMemories
  simp only [Table.deleteWhere_deleteWhere, mk.injEq, true_and]
  refine ⟨?_, ?_, ?_, ?_, ?_, ?_⟩ <;> refine Table.deleteWhere_congr fun x _ => ?_
  · rw [← hgone fun r => r.id == x.anchorMemoryId, ← hgone fun r => r.id == x.targetMemoryId]
    simp only [Bool.or_assoc, Bool.or_left_comm]
  all_goals exact hgone _

/-- Deletes that select the same memories do the same. -/
theorem deleteMemories_congr {p q : MemoryRow → Bool} (h : ∀ r ∈ s.memories, p r = q r) :
    s.deleteMemories p = s.deleteMemories q := by
  have hany : ∀ φ : MemoryRow → Bool, (s.memories.rows.any fun r => p r && φ r) =
      s.memories.rows.any fun r => q r && φ r := by
    intro φ
    rw [Bool.eq_iff_iff, List.any_eq_true, List.any_eq_true]
    exact exists_congr fun r => and_congr_right fun hr => by rw [h r hr]
  unfold deleteMemories
  simp only [hany, Table.deleteWhere_congr h]

/-- A delete that selects nothing cascades to nothing. -/
theorem deleteMemories_false : (s.deleteMemories fun _ => false) = s := by
  have hany : ∀ φ : MemoryRow → Bool, (s.memories.rows.any fun r => false && φ r) = false := by
    intro φ
    simp
  unfold deleteMemories
  simp only [hany, Bool.or_false, Table.deleteWhere_eq_self (fun _ _ => rfl)]

/-- A turn member is cascaded away exactly with the memory it refers to. -/
theorem mem_turnMembers_deleteMemories {m : TurnMemberRow} :
    m ∈ (s.deleteMemories p).turnMembers ↔
      m ∈ s.turnMembers ∧ ∀ r ∈ s.memories, p r = true → r.id ≠ m.memoryId := by
  show m ∈ s.turnMembers.deleteWhere _ ↔ _
  rw [Table.mem_deleteWhere, List.any_eq_false]
  simp

end

end Store

end Spectral
