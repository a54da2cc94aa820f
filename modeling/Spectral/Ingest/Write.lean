import Mathlib.Data.List.Infix
import Spectral.Lib.Run
import Spectral.Ingest.Store

/-!
# Local writes and forgets

The operations of `SqliteStore` a brain performs on its own memories:

* `writeMemoryInTx` — the body of `MemoryStore::write`: a new key is inserted, equal
  content is left alone, different content replaces the content of the row.
* `setSignature` — what `remember` does next in a signed brain.
* `deleteMemoryByKey` — the forget, with its receipt.

The results about runs need one fact about each: which rows of `memories` there are
afterwards (`write_cases`, `mem_memories_setSignature`, `mem_memories_deleteMemoryByKey`),
and that the manifest and the tombstones are untouched.
-/

namespace Spectral

open Spectral.Lib

/-- `Memory`: what a caller hands to `write`. -/
structure Memory where
  id : String
  key : String
  content : String
  wing : Option String := none
  hall : Option String := none
  signalScore : ℚ := 1 / 2
  visibility : String := "private"
  source : Option String := none
  deviceId : Option Bytes32 := none
  confidence : ℚ := 1
  createdAt : Option String := none
  episodeId : Option String := none
  compactionTier : Option CompactionTier := none
  declarativeDensity : Option ℚ := none
  sourceBrainId : Option Bytes32 := none
  signature : Option (List UInt8) := none
  deriving DecidableEq

/-- `Fingerprint`: a link between two memories, to be stored with a write. -/
structure Fingerprint where
  id : String
  hash : String
  anchorMemoryId : String
  targetMemoryId : String
  wing : String
  anchorHall : String
  targetHall : String
  timeDeltaBucket : String
  deriving DecidableEq

/-- The row a fingerprint is stored as. -/
def Fingerprint.row (fp : Fingerprint) (now : String) : FingerprintRow :=
  { id := fp.id, hash := fp.hash, anchorMemoryId := fp.anchorMemoryId,
    targetMemoryId := fp.targetMemoryId, wing := fp.wing, anchorHall := fp.anchorHall,
    targetHall := fp.targetHall, timeDeltaBucket := fp.timeDeltaBucket, createdAt := now }

/-- `WriteOutcome`. -/
inductive WriteOutcome where
  | inserted
  | noOp
  | contentUpdated
  deriving DecidableEq, Repr

/-- `ForgetReceipt`: the rows a forget removed, table by table. -/
structure ForgetReceipt where
  existed : Bool := false
  memoryRows : ℕ := 0
  fingerprints : ℕ := 0
  spectrograms : ℕ := 0
  annotations : ℕ := 0
  consolidationEdges : ℕ := 0
  coRetrievalPairs : ℕ := 0
  retrievalEvents : ℕ := 0
  episodes : ℕ := 0
  ftsRows : ℕ := 0
  deriving DecidableEq, Repr

namespace Store

variable (s : Store)

/-- Is there a memory with this id? -/
def HasMemory (id : String) : Prop := ∃ r ∈ s.memories.rows, r.id = id

instance (id : String) : Decidable (s.HasMemory id) :=
  inferInstanceAs (Decidable (∃ r ∈ s.memories.rows, r.id = id))

/-- Updates of columns other than `id` and `key` make no two rows clash. -/
theorem clash_of_clash_update {p : MemoryRow → Bool} {g : MemoryRow → MemoryRow}
    (hg : ∀ r, (g r).id = r.id ∧ (g r).key = r.key) (a b : MemoryRow)
    (h : (if p a then g a else a).Clash (if p b then g b else b)) : a.Clash b := by
  have hsame : ∀ r, (if p r then g r else r).id = r.id ∧ (if p r then g r else r).key = r.key := by
    intro r
    split
    · exact hg r
    · exact ⟨rfl, rfl⟩
  unfold MemoryRow.Clash at h ⊢
  rwa [(hsame a).1, (hsame b).1, (hsame a).2, (hsame b).2] at h

/-- `UPDATE memories SET ... WHERE p`, for an update of columns other than `id` and
`key`. -/
def updateMemories (p : MemoryRow → Bool) (g : MemoryRow → MemoryRow)
    (hg : ∀ r, (g r).id = r.id ∧ (g r).key = r.key) : Store :=
  { s with
    memories := s.memories.update (fun r => if p r then g r else r) (clash_of_clash_update hg) }

theorem mem_memories_updateMemories {s : Store} {p : MemoryRow → Bool}
    {g : MemoryRow → MemoryRow} {hg : ∀ r, (g r).id = r.id ∧ (g r).key = r.key} {r' : MemoryRow} :
    r' ∈ (s.updateMemories p g hg).memories ↔
      ∃ r ∈ s.memories, (if p r then g r else r) = r' := by
  show r' ∈ Table.update _ (clash_of_clash_update hg) s.memories ↔ _
  rw [Table.mem_update]

/-- An update that changes no row changes nothing. -/
theorem updateMemories_eq_self {s : Store} {p : MemoryRow → Bool} {g : MemoryRow → MemoryRow}
    {hg : ∀ r, (g r).id = r.id ∧ (g r).key = r.key} (h : ∀ r ∈ s.memories, p r = true → g r = r) :
    s.updateMemories p g hg = s := by
  have hrows : s.memories.rows.map (fun r => if p r then g r else r) = s.memories.rows := by
    conv_rhs => rw [← List.map_id s.memories.rows]
    refine List.map_congr_left fun r hr => ?_
    split
    case isTrue hp => exact h r hr hp
    case isFalse => rfl
  obtain ⟨⟨rows, hunique⟩⟩ := s
  simp only [updateMemories, Table.update, mk.injEq, Table.mk.injEq, and_true]
  exact hrows

/-- An update of the row under one key leaves the other rows, and the updated one. -/
theorem mem_memories_updateMemories_key {s : Store} {g : MemoryRow → MemoryRow}
    {p : MemoryRow → Bool} {hg : ∀ r, (g r).id = r.id ∧ (g r).key = r.key} {row r' : MemoryRow}
    (hrow : row ∈ s.memories) (hp : ∀ r ∈ s.memories, p r = true → r.key = row.key) :
    r' ∈ (s.updateMemories p g hg).memories ↔
      (r' ∈ s.memories ∧ r'.key ≠ row.key) ∨ r' = if p row then g row else row := by
  rw [mem_memories_updateMemories]
  constructor
  · rintro ⟨r, hr, rfl⟩
    by_cases hk : r.key = row.key
    · rw [eq_of_key hr hrow hk]
      exact Or.inr rfl
    · rw [if_neg fun h => hk (hp r hr h)]
      exact Or.inl ⟨hr, hk⟩
  · rintro (⟨hr, hk⟩ | rfl)
    · exact ⟨r', hr, if_neg fun h => hk (hp r' hr h)⟩
    · exact ⟨row, hrow, rfl⟩

/-- `INSERT INTO memories`. -/
def insertMemory (row : MemoryRow) : Except String Store :=
  if s.memories.Clashes row then .error "UNIQUE constraint failed: memories.id"
  else .ok { s with memories := s.memories.insertOrIgnore row }

/-- `INSERT OR IGNORE INTO constellation_fingerprints`.  The uniqueness of the id is
ignored, the foreign keys are not. -/
def insertFingerprint (now : String) (s : Store) (fp : Fingerprint) : Except String Store :=
  if s.fingerprints.Clashes (fp.row now) then .ok s
  else if s.HasMemory fp.anchorMemoryId ∧ s.HasMemory fp.targetMemoryId then
    .ok { s with fingerprints := s.fingerprints.insertOrIgnore (fp.row now) }
  else .error "FOREIGN KEY constraint failed"

end Store

/-! ## Write -/

namespace Env

variable (env : Env)

/-- The content hash of a text. -/
def contentHash (content : String) : String := env.hashHex (utf8 content)

/-- The stored content hash of a row, computed from its content where it is `NULL`. -/
def effectiveHash (r : MemoryRow) : String := r.contentHash.getD (env.contentHash r.content)

/-- The row a write inserts under a new key. -/
def newRow (now : String) (memory : Memory) : MemoryRow :=
  { id := memory.id, key := memory.key, content := memory.content, wing := memory.wing,
    hall := memory.hall, signalScore := memory.signalScore, visibility := memory.visibility,
    createdAt := memory.createdAt.getD now, updatedAt := now, source := memory.source,
    deviceId := memory.deviceId, confidence := memory.confidence, episodeId := memory.episodeId,
    compactionTier := memory.compactionTier, declarativeDensity := memory.declarativeDensity,
    contentHash := some (env.contentHash memory.content), sourceBrainId := memory.sourceBrainId,
    signature := memory.signature }

/-- `write_memory_in_tx`. -/
def writeMemoryInTx (now : String) (s : Store) (memory : Memory) (fingerprints : List Fingerprint) :
    Except String (Store × WriteOutcome) :=
  let incomingHash := env.contentHash memory.content
  match s.memoryByKey memory.key with
  | none => do
    let s ← s.insertMemory (env.newRow now memory)
    let s ← fingerprints.foldlM (Store.insertFingerprint now) s
    return (s, .inserted)
  | some existing =>
    if env.effectiveHash existing = incomingHash then
      let s := s.updateMemories (fun r => r.key = memory.key && r.contentHash = none)
        (fun r => { r with contentHash := some incomingHash }) fun _ => ⟨rfl, rfl⟩
      .ok (s, .noOp)
    else do
      let s := s.updateMemories (fun r => r.key = memory.key)
        (fun r => { r with
          content := memory.content
          contentHash := some incomingHash
          updatedAt := now }) fun _ => ⟨rfl, rfl⟩
      let s := { s with
        fingerprints := s.fingerprints.deleteWhere fun f =>
          f.anchorMemoryId = existing.id || f.targetMemoryId = existing.id }
      let s ← fingerprints.foldlM (Store.insertFingerprint now) s
      return (s, .contentUpdated)

/-- `MemoryStore::write`: an error rolls the transaction back. -/
def write (now : String) (s : Store) (memory : Memory) (fingerprints : List Fingerprint) : Store :=
  match env.writeMemoryInTx now s memory fingerprints with
  | .ok (s', _) => s'
  | .error _ => s

/-- The row a successful write leaves under the key it writes. -/
def writtenRow (now : String) (s : Store) (memory : Memory) : MemoryRow :=
  match s.memoryByKey memory.key with
  | none => env.newRow now memory
  | some r =>
    if env.effectiveHash r = env.contentHash memory.content then
      { r with contentHash := some (r.contentHash.getD (env.contentHash memory.content)) }
    else
      { r with
        content := memory.content
        contentHash := some (env.contentHash memory.content)
        updatedAt := now }

end Env

/-- The store with the content of a row replaced and its fingerprints deleted. -/
def Env.rewritten (env : Env) (now : String) (s : Store) (memory : Memory) (row : MemoryRow) :
    Store :=
  { s.updateMemories (fun r => r.key = memory.key)
      (fun r => { r with
        content := memory.content
        contentHash := some (env.contentHash memory.content)
        updatedAt := now }) fun _ => ⟨rfl, rfl⟩ with
    fingerprints := s.fingerprints.deleteWhere fun f =>
      f.anchorMemoryId = row.id || f.targetMemoryId = row.id }

/-- What a write that goes through does: it inserts a row under a new key, leaves equal content
alone but for its hash, or replaces other content. -/
inductive Env.Writes (env : Env) (now : String) (s : Store) (memory : Memory)
    (fps : List Fingerprint) : Store → WriteOutcome → Prop
  | inserted {t s' : Store} (hnone : s.memoryByKey memory.key = none)
      (ht : s.insertMemory (env.newRow now memory) = .ok t)
      (hfps : fps.foldlM (Store.insertFingerprint now) t = .ok s') :
      Writes env now s memory fps s' .inserted
  | noOp {row : MemoryRow} (hk : s.memoryByKey memory.key = some row)
      (hsame : env.effectiveHash row = env.contentHash memory.content) :
      Writes env now s memory fps
        (s.updateMemories (fun r => r.key = memory.key && r.contentHash = none)
          (fun r => { r with contentHash := some (env.contentHash memory.content) })
          fun _ => ⟨rfl, rfl⟩) .noOp
  | contentUpdated {row : MemoryRow} {s' : Store} (hk : s.memoryByKey memory.key = some row)
      (hdiff : env.effectiveHash row ≠ env.contentHash memory.content)
      (hfps : fps.foldlM (Store.insertFingerprint now) (env.rewritten now s memory row) = .ok s') :
      Writes env now s memory fps s' .contentUpdated

/-- **The cases of a write** that goes through. -/
theorem Env.writes_of_writeMemoryInTx {env : Env} {now : String} {s s' : Store} {memory : Memory}
    {fps : List Fingerprint} {out : WriteOutcome}
    (h : env.writeMemoryInTx now s memory fps = .ok (s', out)) :
    env.Writes now s memory fps s' out := by
  unfold writeMemoryInTx at h
  cases hk : s.memoryByKey memory.key with
  | none =>
    rw [hk] at h
    cases ht : s.insertMemory (env.newRow now memory) with
    | error e => rw [ht] at h; cases h
    | ok t =>
      cases hu : fps.foldlM (Store.insertFingerprint now) t with
      | error e => simp only [ht, hu, bind, Except.bind] at h; cases h
      | ok u =>
        simp only [ht, hu, bind, Except.bind, pure, Except.pure] at h
        cases h
        exact .inserted hk ht hu
  | some row =>
    rw [hk] at h
    by_cases hsame : env.effectiveHash row = env.contentHash memory.content
    · simp only [hsame, if_true] at h
      cases h
      exact .noOp hk hsame
    · simp only [hsame, if_false, bind, Except.bind, pure, Except.pure] at h
      split at h
      · cases h
      · rename_i u hu
        cases h
        exact .contentUpdated hk hsame hu

/-- A write does what `Writes` says. -/
theorem Env.writeMemoryInTx_of_writes {env : Env} {now : String} {s s' : Store} {memory : Memory}
    {fps : List Fingerprint} {out : WriteOutcome} (h : env.Writes now s memory fps s' out) :
    env.writeMemoryInTx now s memory fps = .ok (s', out) := by
  unfold writeMemoryInTx
  cases h with
  | inserted hnone ht hfps =>
    rw [hnone]
    simp only [ht, hfps, bind, Except.bind, pure, Except.pure]
  | noOp hk hsame =>
    rw [hk]
    exact if_pos hsame
  | contentUpdated hk hdiff hfps =>
    rw [hk]
    dsimp only
    rw [if_neg hdiff]
    exact congrArg (fun written => written >>= fun s => pure (s, WriteOutcome.contentUpdated)) hfps

/-- Two stores agree on everything but the derived tables. -/
structure Store.SameTables (s s' : Store) : Prop where
  memories : s'.memories = s.memories
  sharedWingMembers : s'.sharedWingMembers = s.sharedWingMembers
  syncTombstones : s'.syncTombstones = s.syncTombstones
  turnEvents : s'.turnEvents = s.turnEvents
  turnMembers : s'.turnMembers = s.turnMembers

theorem Store.SameTables.trans {s s' s'' : Store} (h : s.SameTables s') (h' : s'.SameTables s'') :
    s.SameTables s'' where
  memories := h'.memories.trans h.memories
  sharedWingMembers := h'.sharedWingMembers.trans h.sharedWingMembers
  syncTombstones := h'.syncTombstones.trans h.syncTombstones
  turnEvents := h'.turnEvents.trans h.turnEvents
  turnMembers := h'.turnMembers.trans h.turnMembers

/-- The inserts of fingerprints change the fingerprints only. -/
theorem Store.eq_of_foldlM_insertFingerprint {now : String} {s s' : Store}
    {fps : List Fingerprint} (h : fps.foldlM (Store.insertFingerprint now) s = .ok s') :
    ∃ fingerprints, s' = { s with fingerprints } := by
  refine rel_of_foldlM_eq_ok (R := fun s s' => ∃ fingerprints, s' = { s with fingerprints })
    (fun s => ⟨s.fingerprints, rfl⟩) ?_ (fun s fp t ht => ?_) h
  · rintro s t u ⟨f, rfl⟩ ⟨f', rfl⟩
    exact ⟨f', rfl⟩
  · unfold insertFingerprint at ht
    split at ht
    · cases ht
      exact ⟨_, rfl⟩
    · split at ht
      · cases ht
        exact ⟨_, rfl⟩
      · cases ht

theorem Store.sameTables_foldlM_insertFingerprint {now : String} {s s' : Store}
    {fps : List Fingerprint} (h : fps.foldlM (Store.insertFingerprint now) s = .ok s') :
    s.SameTables s' := by
  obtain ⟨_, rfl⟩ := eq_of_foldlM_insertFingerprint h
  exact ⟨rfl, rfl, rfl, rfl, rfl⟩

@[simp] theorem Env.key_writtenRow (env : Env) (now : String) (s : Store) (memory : Memory) :
    (env.writtenRow now s memory).key = memory.key := by
  unfold writtenRow
  cases hk : s.memoryByKey memory.key with
  | none => rfl
  | some r =>
    have hkey := (Store.memoryByKey_eq_some.1 hk).2
    dsimp only
    split <;> exact hkey

/-- A written row keeps the id of the row it updates. -/
theorem Env.id_writtenRow {env : Env} {now : String} {s : Store} {memory : Memory}
    (h : ∀ r ∈ s.memories, r.key = memory.key → r.id = memory.id) :
    (env.writtenRow now s memory).id = memory.id := by
  unfold writtenRow
  cases hk : s.memoryByKey memory.key with
  | none => rfl
  | some r =>
    have hid := h r (Store.memoryByKey_eq_some.1 hk).1 (Store.memoryByKey_eq_some.1 hk).2
    dsimp only
    split <;> exact hid

/-- A written row has the hash of its content. -/
theorem Env.contentHash_writtenRow {env : Env} {now : String} {s : Store} {memory : Memory}
    (h : ∀ r ∈ s.memories, r.contentHash = some (env.contentHash r.content)) :
    (env.writtenRow now s memory).contentHash =
      some (env.contentHash (env.writtenRow now s memory).content) := by
  unfold writtenRow
  cases hk : s.memoryByKey memory.key with
  | none => rfl
  | some r =>
    have hhash := h r (Store.memoryByKey_eq_some.1 hk).1
    dsimp only
    split
    · dsimp only
      rw [hhash, Option.getD_some]
    · rfl

/-- What a successful write leaves: the other rows, and the written one. -/
structure Env.Written (env : Env) (now : String) (memory : Memory) (s s' : Store) : Prop where
  mem_memories : ∀ r', r' ∈ s'.memories ↔
    (r' ∈ s.memories ∧ r'.key ≠ memory.key) ∨ r' = env.writtenRow now s memory
  sharedWingMembers : s'.sharedWingMembers = s.sharedWingMembers
  syncTombstones : s'.syncTombstones = s.syncTombstones

namespace Env

variable {env : Env} {now : String} {s s' : Store} {memory : Memory} {fps : List Fingerprint}

theorem written_insert (hnone : s.memoryByKey memory.key = none) {t : Store}
    (ht : s.insertMemory (env.newRow now memory) = .ok t) (hs' : t.SameTables s') :
    env.Written now memory s s' := by
  unfold Store.insertMemory at ht
  split at ht
  · cases ht
  · rename_i hclash
    cases ht
    refine ⟨fun r' => ?_, hs'.sharedWingMembers, hs'.syncTombstones⟩
    rw [hs'.memories, Table.mem_insertOrIgnore, writtenRow, hnone]
    constructor
    · rintro (hr | ⟨rfl, -⟩)
      · exact Or.inl ⟨hr, Store.memoryByKey_eq_none.1 hnone r' hr⟩
      · exact Or.inr rfl
    · rintro (⟨hr, -⟩ | rfl)
      · exact Or.inl hr
      · exact Or.inr ⟨rfl, hclash⟩

theorem written_noOp {row : MemoryRow} (hrow : row ∈ s.memories) (hkey : row.key = memory.key)
    (hsame : env.effectiveHash row = env.contentHash memory.content) :
    env.Written now memory s
      (s.updateMemories (fun r => r.key = memory.key && r.contentHash = none)
        (fun r => { r with contentHash := some (env.contentHash memory.content) })
        fun _ => ⟨rfl, rfl⟩) := by
  refine ⟨fun r' => ?_, rfl, rfl⟩
  rw [Store.mem_memories_updateMemories_key hrow (by simp_all), writtenRow,
    Store.memoryByKey_eq_some.2 ⟨hrow, hkey⟩, ← hkey]
  simp only [hsame, if_true]
  cases hc : row.contentHash with
  | none => simp
  | some c =>
    have hself : { row with contentHash := some c } = row := by rw [← hc]
    simp [hself]

theorem written_contentUpdated {row : MemoryRow} (hrow : row ∈ s.memories)
    (hkey : row.key = memory.key)
    (hdiff : env.effectiveHash row ≠ env.contentHash memory.content) {t : Store}
    (ht : t.SameTables s')
    (htm : t.memories = (s.updateMemories (fun r => r.key = memory.key)
      (fun r => { r with
        content := memory.content
        contentHash := some (env.contentHash memory.content)
        updatedAt := now }) fun _ => ⟨rfl, rfl⟩).memories)
    (htw : t.sharedWingMembers = s.sharedWingMembers)
    (htt : t.syncTombstones = s.syncTombstones) : env.Written now memory s s' := by
  refine ⟨fun r' => ?_, ht.sharedWingMembers.trans htw, ht.syncTombstones.trans htt⟩
  rw [ht.memories, htm, Store.mem_memories_updateMemories_key hrow (by simp_all), writtenRow,
    Store.memoryByKey_eq_some.2 ⟨hrow, hkey⟩]
  simp [hkey, hdiff]

/-- **One write.**  A write that succeeds leaves every row under another key as it was and
`writtenRow` under its own; the manifest and the tombstones are untouched. -/
theorem written_of_writeMemoryInTx {out : WriteOutcome}
    (h : env.writeMemoryInTx now s memory fps = .ok (s', out)) : env.Written now memory s s' := by
  cases writes_of_writeMemoryInTx h with
  | inserted hnone ht hfps =>
    exact written_insert hnone ht (Store.sameTables_foldlM_insertFingerprint hfps)
  | noOp hk hsame =>
    obtain ⟨hrow, hkey⟩ := Store.memoryByKey_eq_some.1 hk
    exact written_noOp hrow hkey hsame
  | contentUpdated hk hdiff hfps =>
    obtain ⟨hrow, hkey⟩ := Store.memoryByKey_eq_some.1 hk
    exact written_contentUpdated hrow hkey hdiff
      (Store.sameTables_foldlM_insertFingerprint hfps) rfl rfl rfl

/-- A write that fails changes nothing, one that goes through leaves what `Written` says. -/
theorem write_cases (env : Env) (now : String) (s : Store) (memory : Memory)
    (fps : List Fingerprint) :
    ((env.writeMemoryInTx now s memory fps).isOk = false ∧ env.write now s memory fps = s) ∨
      ((env.writeMemoryInTx now s memory fps).isOk = true ∧
        env.Written now memory s (env.write now s memory fps)) := by
  unfold write
  cases h : env.writeMemoryInTx now s memory fps with
  | error e => exact Or.inl ⟨rfl, rfl⟩
  | ok p => exact Or.inr ⟨rfl, written_of_writeMemoryInTx h⟩

/-- A write changes nothing, or leaves what `Written` says. -/
theorem write_eq_or_written (env : Env) (now : String) (s : Store) (memory : Memory)
    (fps : List Fingerprint) :
    env.write now s memory fps = s ∨ env.Written now memory s (env.write now s memory fps) :=
  (write_cases env now s memory fps).imp And.right And.right

end Env

/-! ## Signatures -/

namespace Store

/-- `set_signature`: record the author and the signature of a memory, by id. -/
def setSignature (s : Store) (memoryId : String) (sourceBrainId : Bytes32)
    (signature : List UInt8) : Store :=
  s.updateMemories (fun r => r.id = memoryId)
    (fun r => { r with sourceBrainId := some sourceBrainId, signature := some signature })
    fun _ => ⟨rfl, rfl⟩

theorem mem_memories_setSignature {s : Store} {memoryId : String} {sourceBrainId : Bytes32}
    {signature : List UInt8} {r' : MemoryRow} :
    r' ∈ (s.setSignature memoryId sourceBrainId signature).memories ↔
      ∃ r ∈ s.memories, (if r.id = memoryId then
        { r with sourceBrainId := some sourceBrainId, signature := some signature }
        else r) = r' := by
  unfold setSignature
  rw [mem_memories_updateMemories]
  simp

/-! ## Forget -/

/-- `text LIKE '%' || needle || '%'` with the needle escaped: containment up to the case
of ASCII letters. -/
def likeContains (needle text : String) : Bool :=
  decide (needle.toList.map Char.toLower <:+: text.toList.map Char.toLower)

/-- The rows an episode keeps referring to. -/
def episodeMembers (s : Store) (ep : String) : ℕ :=
  s.memories.countWhere fun r => r.episodeId = some ep

/-- After a forget the episode of the memory is dropped when that was its last one, and
recounted otherwise.  Returns the number of episodes dropped. -/
def settleEpisode (now ep : String) (s : Store) : Store × ℕ :=
  let gone : EpisodeRow → Bool := fun e => e.id = ep && s.episodeMembers ep = 0
  let dropped := s.episodes.countWhere gone
  if dropped = 0 then
    ({ s with
      episodes := s.episodes.update
        (fun e => if e.id = ep then
          { e with memoryCount := s.episodeMembers ep, updatedAt := now } else e)
        (by intro a b h; unfold SameKey at h ⊢; split at h <;> split at h <;> exact h) }, dropped)
  else
    ({ s with episodes := s.episodes.deleteWhere gone }, dropped)

/-- `delete_memory_by_key`: the forget.  The substrates that name the memory are scrubbed,
then the row is deleted, then its episode is settled. -/
def deleteMemoryByKey (now key : String) (s : Store) : Store × ForgetReceipt :=
  match s.memoryByKey key with
  | none => (s, {})
  | some row =>
    let fp : FingerprintRow → Bool := fun f =>
      f.anchorMemoryId = row.id || f.targetMemoryId = row.id
    let sg : SpectrogramRow → Bool := fun g => g.memoryId = row.id
    let an : AnnotationRow → Bool := fun a => a.memoryId = row.id
    let ce : ConsolidationEdge → Bool := fun e => e.sourceKey = key || e.targetKey = key
    let cr : CoRetrievalPair → Bool := fun p => p.memoryIdA = row.id || p.memoryIdB = row.id
    let re : RetrievalEvent → Bool := fun e =>
      likeContains ("\"" ++ row.id ++ "\"") e.memoryIdsJson
    let pv : EpisodeRow → Bool := fun e => e.summaryPreview.any fun p =>
      p ≠ "" && decide (p.toList <+: row.content.toList)
    let scrubbed : Store :=
      { s with
        fingerprints := s.fingerprints.deleteWhere fp
        spectrograms := s.spectrograms.deleteWhere sg
        annotations := s.annotations.deleteWhere an
        consolidationEdges := s.consolidationEdges.deleteWhere ce
        coRetrievalPairs := s.coRetrievalPairs.deleteWhere cr
        retrievalEvents := s.retrievalEvents.deleteWhere re
        episodes := s.episodes.update
          (fun e => if pv e then { e with summaryPreview := none, updatedAt := now } else e)
          (by intro a b h; unfold SameKey at h ⊢; split at h <;> split at h <;> exact h) }
    let deleted := scrubbed.deleteMemories fun r => r.key = key
    let settled : Store × ℕ := match row.episodeId with
      | none => (deleted, 0)
      | some ep => deleted.settleEpisode now ep
    let rows := s.memories.countWhere fun r => r.key = key
    (settled.1,
      { existed := true
        memoryRows := rows
        fingerprints := s.fingerprints.countWhere fp
        spectrograms := s.spectrograms.countWhere sg
        annotations := s.annotations.countWhere an
        consolidationEdges := s.consolidationEdges.countWhere ce
        coRetrievalPairs := s.coRetrievalPairs.countWhere cr
        retrievalEvents := s.retrievalEvents.countWhere re
        episodes := s.episodes.countWhere pv + settled.2
        ftsRows := rows })

theorem sameTables_settleEpisode (now ep : String) (s : Store) :
    s.SameTables (s.settleEpisode now ep).1 := by
  unfold settleEpisode
  dsimp only
  split <;> exact ⟨rfl, rfl, rfl, rfl, rfl⟩

/-- **One forget.**  On the tables of the model a forget is the cascading delete of the row
under the key. -/
theorem sameTables_deleteMemoryByKey (now key : String) (s : Store) :
    (s.deleteMemories fun r => r.key = key).SameTables (s.deleteMemoryByKey now key).1 := by
  unfold deleteMemoryByKey
  cases hk : s.memoryByKey key with
  | none =>
    -- no row, so nothing is deleted and nothing is cascaded
    have hnone := memoryByKey_eq_none.1 hk
    have hmem : (s.deleteMemories fun r => r.key = key).memories = s.memories :=
      Table.deleteWhere_eq_self fun r hr => decide_eq_false (hnone r hr)
    have hturn : (s.deleteMemories fun r => r.key = key).turnMembers = s.turnMembers := by
      refine Table.deleteWhere_eq_self fun m _ => ?_
      rw [List.any_eq_false]
      intro r hr
      simp [hnone r hr]
    exact ⟨hmem.symm, rfl, rfl, rfl, hturn.symm⟩
  | some row =>
    dsimp only
    cases row.episodeId with
    | none => exact ⟨rfl, rfl, rfl, rfl, rfl⟩
    | some ep =>
      refine SameTables.trans ?_ (sameTables_settleEpisode now ep _)
      exact ⟨rfl, rfl, rfl, rfl, rfl⟩

variable {s : Store} {now key : String}

/-- A forget of a key without a memory changes nothing. -/
theorem deleteMemoryByKey_of_none (h : s.memoryByKey key = none) :
    (s.deleteMemoryByKey now key).1 = s := by
  unfold deleteMemoryByKey
  rw [h]

theorem deleteMemoryByKey_of_not_existed (h : (s.deleteMemoryByKey now key).2.existed = false) :
    (s.deleteMemoryByKey now key).1 = s := by
  cases hk : s.memoryByKey key with
  | none => exact deleteMemoryByKey_of_none hk
  | some row =>
    unfold deleteMemoryByKey at h
    rw [hk] at h
    cases h

theorem existed_deleteMemoryByKey {r : MemoryRow} (hr : r ∈ s.memories) :
    (s.deleteMemoryByKey now r.key).2.existed = true := by
  unfold deleteMemoryByKey
  rw [memoryByKey_eq_some.2 ⟨hr, rfl⟩]

theorem mem_memories_deleteMemoryByKey {r : MemoryRow} :
    r ∈ (s.deleteMemoryByKey now key).1.memories ↔ r ∈ s.memories ∧ r.key ≠ key := by
  rw [(sameTables_deleteMemoryByKey now key s).memories, memories_deleteMemories]
  simp

@[simp] theorem sharedWingMembers_deleteMemoryByKey :
    (s.deleteMemoryByKey now key).1.sharedWingMembers = s.sharedWingMembers :=
  (sameTables_deleteMemoryByKey now key s).sharedWingMembers

@[simp] theorem syncTombstones_deleteMemoryByKey :
    (s.deleteMemoryByKey now key).1.syncTombstones = s.syncTombstones :=
  (sameTables_deleteMemoryByKey now key s).syncTombstones

end Store

end Spectral
