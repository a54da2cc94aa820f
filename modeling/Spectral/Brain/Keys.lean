import Spectral.Brain.Cascade
import Spectral.Brain.Forget
import Spectral.Consolidation.Chains

/-!
# Rows and their keys

`get_memory_by_key` does not look a key up: it derives the id from the key and reads the row under
that id.  A row that was remembered, or ingested as activity, has the id of its key.  A row that was
imported has the hash of its object for an id, and a key of its own.

* `ingestActivity`, `consolidateWith` — the operations beside `remember` that write a memory.
* `Kept` — what the operations that write no memory do to ids, keys and consolidation edges.
* `ReachedByKey` — every row is found under its key, and a recall with provenance attaches the
  sources of a hit.
* `reachedByKey_iff` — the runs that never leave it: their imports bring no new row.
-/

namespace Spectral

open Spectral.Lib

/-! ## Activity -/

/-- `ActivityEpisode`, with its start as it is printed, and of the metadata what is scored. -/
structure ActivityEpisode where
  id : String
  startedAt : String
  /-- `ended_at - started_at`. -/
  durationMillis : ℤ
  bundleId : String
  appName : String
  windowTitle : Option String := none
  url : Option String := none
  excerpt : Option String := none
  source : String
  sourceEventCount : ℕ
  engagementScore : Option ℚ := none
  deriving DecidableEq

namespace ActivityEpisode

variable (e : ActivityEpisode)

/-- `duration_secs`. -/
def durationSecs : ℚ := e.durationMillis / 1000

/-- `to_content`. -/
def toContent : String :=
  " | ".intercalate (("[" ++ e.appName ++ "] " ++ e.bundleId) ::
    ([e.windowTitle, e.url, e.excerpt].reduceOption).filter fun part => part ≠ "")

/-- `compute_signal_score`. -/
def computeSignalScore : ℚ :=
  let base := 3 / 10
  let durationBonus := min (e.durationSecs / 600) 1 * (3 / 10)
  let eventBonus := min (e.sourceEventCount / 20) 1 * (2 / 10)
  let engagementBonus := (e.engagementScore.map fun s => max 0 (min s 1) * (2 / 10)).getD 0
  min (base + durationBonus + eventBonus + engagementBonus) 1

end ActivityEpisode

/-- The settings of a brain for activity. -/
structure ActivitySetup where
  activityWing : String := "activity"
  /-- `RedactionPolicy::redact`. -/
  redact : ActivityEpisode → Option ActivityEpisode

/-- `IngestActivityStats`. -/
structure IngestActivityStats where
  episodesReceived : ℕ := 0
  episodesInserted : ℕ := 0
  episodesUpdated : ℕ := 0
  episodesRedacted : ℕ := 0
  episodesRejected : ℕ := 0
  deriving DecidableEq

/-- The memory of an episode. -/
def ActivitySetup.memory (A : ActivitySetup) (env : Env) (e : ActivityEpisode) : Memory :=
  { id := env.keyToId e.id, key := e.id, content := e.toContent, wing := some A.activityWing,
    hall := some e.source, signalScore := e.computeSignalScore, source := some e.bundleId,
    createdAt := some e.startedAt }

namespace BrainState

variable {L : WingCache}

section

variable (S : BrainSetup) (A : ActivitySetup) (now : String)

/-- The loop of `ingest_activity`: what is written before an error stays. -/
def ingestEpisodes : List ActivityEpisode → BrainState L → IngestActivityStats →
    BrainState L × Except String IngestActivityStats
  | [], b, stats => (b, .ok stats)
  | episode :: episodes, b, stats =>
    match A.redact episode with
    | none =>
      ingestEpisodes episodes b { stats with episodesRejected := stats.episodesRejected + 1 }
    | some redacted =>
      let altered := redacted.windowTitle ≠ episode.windowTitle ∨ redacted.url ≠ episode.url ∨
        redacted.excerpt ≠ episode.excerpt
      let stats := { stats with
        episodesRedacted := stats.episodesRedacted + if altered then 1 else 0 }
      let memory := A.memory S.env redacted
      match S.env.writeMemoryInTx now b.cached.store memory [] with
      | .error e => (b, .error e)
      | .ok _ =>
        ingestEpisodes episodes (b.applyStore S ⟨.write memory [], now⟩)
          { stats with episodesInserted := stats.episodesInserted + 1 }

/-- `ingest_activity`. -/
def ingestActivity (episodes : List ActivityEpisode) (b : BrainState L) :
    BrainState L × Except String IngestActivityStats :=
  ingestEpisodes S A now episodes b { episodesReceived := episodes.length }

end

/-! ## What derives an id from a key -/

section

variable (S : BrainSetup) (b : BrainState L)

/-- `get_memory_by_key`. -/
def getMemoryByKey (key : String) : Option MemoryRow := b.getMemory (S.env.keyToId key)

/-- The contents `consolidate_with` gathers; what is missing is skipped. -/
def gathered (sourceKeys : List String) : List String :=
  sourceKeys.filterMap fun k => (b.getMemoryByKey S k).map MemoryRow.content

/-- The arguments of `consolidate_with`. -/
structure ConsolidateArgs where
  sourceKeys : List String
  targetKey : String
  tier : CompactionTier
  summarize : List String → String

/-- `consolidate_with`. -/
def consolidateWith (now since : String) (faults : RecognitionFaults) (args : ConsolidateArgs)
    (fingerprints : List Fingerprint) : BrainState L × Except String RememberResult :=
  let contents := b.gathered S args.sourceKeys
  if contents = [] then (b, .error "no valid source memories to consolidate")
  else
    match b.remember S now since faults args.targetKey (args.summarize contents)
      { visibility := .priv, compactionTier := some args.tier } fingerprints with
    | (written, .error e) => (written, .error e)
    | (written, .ok result) =>
      (written.applyStore S ⟨.consolidateInto args.sourceKeys args.targetKey .skipAndReport, now⟩,
        (written.cached.store.consolidateInto args.sourceKeys args.targetKey
          .skipAndReport).map fun _ => result)

end

end BrainState

/-! ## Ids, keys and edges -/

/-- No row has another id or key than a row of before, and no edge has lost its source. -/
structure Store.Kept (s s' : Store) : Prop where
  rows : ∀ r' ∈ s'.memories, ∃ r ∈ s.memories, r'.id = r.id ∧ r'.key = r.key
  rooted : s.Rooted → s'.Rooted

namespace Store

variable {s s' s'' : Store}

theorem Kept.refl : s.Kept s := ⟨fun r hr => ⟨r, hr, rfl, rfl⟩, id⟩

theorem Kept.trans (h : s.Kept s') (h' : s'.Kept s'') : s.Kept s'' where
  rows r hr := by
    obtain ⟨r', hr', hid', hkey'⟩ := h'.rows r hr
    obtain ⟨r'', hr'', hid, hkey⟩ := h.rows r' hr'
    exact ⟨r'', hr'', hid'.trans hid, hkey'.trans hkey⟩
  rooted hs := h'.rooted (h.rooted hs)

/-- The same memories and edges. -/
theorem kept_of_eq (hmemories : s'.memories = s.memories)
    (hedges : s'.consolidationEdges = s.consolidationEdges) : s.Kept s' where
  rows r hr := ⟨r, hmemories ▸ hr, rfl, rfl⟩
  rooted hs := by
    unfold Rooted MergedInto HasKey at hs ⊢
    rwa [hmemories, hedges]

/-- An update of other columns. -/
theorem kept_updateMemories {p : MemoryRow → Bool} {g : MemoryRow → MemoryRow}
    (hg : ∀ r, (g r).id = r.id ∧ (g r).key = r.key) : s.Kept (s.updateMemories p g hg) where
  rows r' hr' := by
    obtain ⟨r, hr, rfl⟩ := mem_memories_updateMemories.1 hr'
    refine ⟨r, hr, ?_⟩
    split
    · exact hg r
    · exact ⟨rfl, rfl⟩
  rooted hs x y hxy := (hasKey_updateMemories x).2 (hs x y hxy)

theorem kept_deleteMemories (p : MemoryRow → Bool) : s.Kept (s.deleteMemories p) where
  rows r hr := by
    rw [memories_deleteMemories, Table.mem_deleteWhere] at hr
    exact ⟨r, hr.1, rfl, rfl⟩
  rooted hs := rooted_deleteMemories hs p

theorem kept_deleteMemoryByKey {now key : String} : s.Kept (s.deleteMemoryByKey now key).1 where
  rows r hr := ⟨r, (mem_memories_deleteMemoryByKey.1 hr).1, rfl, rfl⟩
  rooted := rooted_deleteMemoryByKey

theorem kept_consolidateInto {sources : List String} {target : String}
    {policy : InvalidSourcePolicy} {result : ConsolidationResult}
    (h : s.consolidateInto sources target policy = .ok (s', result)) : s.Kept s' where
  rows := by
    obtain ⟨-, t, skipped, hfold, hs'⟩ := of_consolidateInto_eq_ok h
    have hmemories := (merged_foldlM hfold).memories
    rcases hs' with rfl | ⟨-, score, rfl⟩
    · exact fun r hr => ⟨r, hmemories ▸ hr, rfl, rfl⟩
    · intro r hr
      obtain ⟨r', hr', hsame⟩ := (kept_updateMemories _).rows r hr
      exact ⟨r', hmemories ▸ hr', hsame⟩
  rooted hs := rooted_consolidateInto hs h

/-- Steps that keep, one after the other. -/
theorem kept_foldl {α β : Type} {step : β → α → β} (store : β → Store)
    (h : ∀ b a, (store b).Kept (store (step b a))) (b : β) (xs : List α) :
    (store b).Kept (store (xs.foldl step b)) := by
  induction xs generalizing b with
  | nil => exact .refl
  | cons x xs ih => exact (h b x).trans (ih (step b x))

theorem kept_reinforceBatch {now : String} {keys : List String} {strength : ℚ} :
    s.Kept (s.reinforceBatch now keys strength).1 := by
  refine kept_foldl (Prod.fst : Store × List String × ℕ → Store) (fun acc chunk => ?_) (s, [], 0)
    (keys.toChunks 900)
  dsimp only [reinforceChunk]
  refine kept_updateMemories fun r => ?_
  exact ⟨rfl, rfl⟩

theorem kept_commitTurnOutcomes {occurrenceId committedAt now : String}
    {outcomes : List (String × LedgerOutcome)} {strength : ℚ} :
    s.Kept (applyTurn s
      ⟨.commitTurnOutcomes occurrenceId outcomes strength committedAt, now⟩) := by
  have hone : ∀ (acc : Store × ℕ) report,
      acc.1.Kept (commitOutcome occurrenceId strength now acc report).1 := by
    intro acc report
    unfold commitOutcome
    dsimp only
    split
    · have hset : acc.1.Kept (acc.1.setOutcome occurrenceId report.1 report.2) := kept_of_eq rfl rfl
      refine hset.trans (kept_updateMemories fun r => ?_)
      exact ⟨rfl, rfl⟩
    · exact kept_of_eq rfl rfl
  have hsettle : s.Kept ((outcomes.foldl (commitOutcome occurrenceId strength now) (s, 0)).1.updateTurnEvent
      occurrenceId (fun e => { e with committedAt := some committedAt }) fun _ => rfl) :=
    .trans (kept_foldl Prod.fst hone (s, 0) outcomes) (kept_of_eq rfl rfl)
  unfold applyTurn commitTurnOutcomes
  dsimp only
  cases s.turnEvent occurrenceId with
  | none => exact hsettle
  | some e =>
    dsimp only
    split
    · exact .refl
    · split
      · exact .refl
      · exact hsettle

theorem kept_tombstone {now wingId targetHash : String} :
    s.Kept (s.tombstone now wingId targetHash) := by
  have hrecorded : s.Kept { s with
      syncTombstones := s.syncTombstones.insertOrIgnore { wingId, targetHash, ts := now } } :=
    kept_of_eq rfl rfl
  exact (hrecorded.trans (kept_deleteMemories _)).trans (kept_of_eq rfl rfl)

theorem kept_importTombstone {now wingId : String} {t : Tombstone} :
    s.Kept (s.importTombstone now wingId t) :=
  kept_tombstone.trans (kept_of_eq rfl rfl)

end Store

/-- The operation writes no memory. -/
def CachedOp.Curates : CachedOp → Prop
  | .write .. | .writeBatch .. | .importPack .. | .otherTables .. => False
  | _ => True

theorem CachedStore.kept_apply {L : WingCache} {c : CachedStore L} {env : Env} {pf : Platform}
    {call : CachedCall} (h : call.op.Curates) : c.store.Kept (c.apply env pf call).store := by
  obtain ⟨op, now⟩ := call
  cases op with
  | write | writeBatch | importPack | otherTables => exact h.elim
  | wingSearch wing queryTerms maxResults =>
    show c.store.Kept (c.wingSearch pf.toLowercase wing queryTerms maxResults).1.store
    rw [store_wingSearch]
    exact .refl
  | setHall id hall =>
    show c.store.Kept (pf.setHall c.store id hall).1
    unfold Platform.setHall
    split
    · have hmoved : c.store.Kept (c.store.updateMemories (fun r => r.id = id)
          (fun r => { r with hall := some hall }) fun _ => ⟨rfl, rfl⟩) :=
        Store.kept_updateMemories _
      exact hmoved.trans (Store.kept_of_eq rfl rfl)
    · exact .refl
  | setDescription id description generatedAt =>
    unfold apply Store.setDescription
    dsimp only
    split
    · rename_i s' hs'
      split at hs'
      · cases hs'
        refine Store.kept_updateMemories fun r => ?_
        exact ⟨rfl, rfl⟩
      · cases hs'
    · exact .refl
  | setSignature memoryId sourceBrainId signature =>
    have hset : c.store.Kept (c.store.setSignature memoryId sourceBrainId signature) := by
      refine Store.kept_updateMemories fun r => ?_
      exact ⟨rfl, rfl⟩
    unfold apply
    dsimp only
    split <;> exact hset
  | reinforceBatch keys strength => exact Store.kept_reinforceBatch
  | commitTurnOutcomes => exact Store.kept_commitTurnOutcomes
  | deleteWingMemoriesBefore wing before => exact Store.kept_deleteMemories _
  | deleteMemoryByKey key =>
    unfold apply
    dsimp only
    split <;> exact Store.kept_deleteMemoryByKey
  | prune wing keep =>
    have hprune : c.store.Kept (pf.prune c.store wing keep).1 := by
      rw [pf.prune_eq_deleteMemories]
      exact Store.kept_deleteMemories _
    unfold apply
    dsimp only
    split <;> exact hprune
  | consolidateInto sources target policy =>
    unfold apply
    dsimp only
    split
    · rename_i hmerge
      split <;> exact Store.kept_consolidateInto hmerge
    · exact .refl
  | tombstone wingId targetHash => exact Store.kept_tombstone
  | _ =>
    refine Store.kept_updateMemories fun r => ?_
    exact ⟨rfl, rfl⟩

/-! ## Rows with the ids of their keys -/

/-- Every row has the id of its key. -/
def Store.Addressed (env : Env) (s : Store) : Prop := ∀ r ∈ s.memories, r.id = env.keyToId r.key

namespace Store

variable {env : Env} {now : String} {s s' : Store}

theorem Kept.addressed (h : s.Kept s') (hs : s.Addressed env) : s'.Addressed env := by
  intro r' hr'
  obtain ⟨r, hr, hid, hkey⟩ := h.rows r' hr'
  rw [hid, hkey]
  exact hs r hr

/-- More memories, and the same edges. -/
theorem rooted_of_subset (h : s.Rooted) (hmemories : ∀ r ∈ s.memories, r ∈ s'.memories)
    (hedges : s'.consolidationEdges = s.consolidationEdges) : s'.Rooted := by
  intro x y hxy
  unfold MergedInto at hxy
  rw [hedges] at hxy
  obtain ⟨r, hr, hkey⟩ := h x y hxy
  exact ⟨r, hmemories r hr, hkey⟩

/-- **A write** of a memory that has the id of its key. -/
theorem addressed_write {memory : Memory} {fingerprints : List Fingerprint} {outcome : WriteOutcome}
    (h : s.Addressed env) (hid : memory.id = env.keyToId memory.key)
    (hwrite : env.writeMemoryInTx now s memory fingerprints = .ok (s', outcome)) :
    s'.Addressed env := by
  intro r hr
  rcases ((Env.written_of_writeMemoryInTx hwrite).mem_memories r).1 hr with ⟨hr, -⟩ | rfl
  · exact h r hr
  · rw [Env.key_writtenRow, ← hid]
    exact Env.id_writtenRow fun r hr hkey => by rw [h r hr, hkey, hid]

theorem rooted_writeMemoryInTx {memory : Memory} {fingerprints : List Fingerprint}
    {outcome : WriteOutcome} (h : s.Rooted)
    (hwrite : env.writeMemoryInTx now s memory fingerprints = .ok (s', outcome)) : s'.Rooted := by
  have hrooted : (env.write now s memory fingerprints).Rooted := rooted_write h
  unfold Env.write at hrooted
  rwa [hwrite] at hrooted

/-! ## Imports -/

/-- The pack brings no row: what is new to the store has a key that is taken. -/
def BringsNothing (env : Env) (policy : ImportPolicy) (pack : Pack) (s : Store) : Prop :=
  ∀ o ∈ (env.incoming policy pack s pack.objects).rows, env.Arrives s o → s.HasKey (env.localKey o)

instance (policy : ImportPolicy) (pack : Pack) : Decidable (BringsNothing env policy pack s) :=
  inferInstanceAs (Decidable (∀ o ∈ (env.incoming policy pack s pack.objects).rows, _))

/-- The hash of an object is no id of a key: it is longer. -/
theorem objectHash_ne_keyToId (o : MemoryObject) (key : String) :
    env.objectHash o ≠ env.keyToId key := by
  intro h
  have hlength := congrArg (fun text => text.toList.length) h
  have hhash : (env.objectHash o).toList.length = 64 := env.length_toList_hashHex _
  have hkey : (env.keyToId key).toList.length = 16 := by
    rw [Env.keyToId, length_toList_toHex, List.length_take, Vector.length_toList]
    omega
  omega

/-- **An import** leaves every row with the id of its key exactly when it brings none. -/
theorem addressed_import_iff {policy : ImportPolicy} {pack : Pack} (h : s.Addressed env) :
    (env.importPackWithPolicy now s pack policy).1.Addressed env ↔
      BringsNothing env policy pack s := by
  constructor
  · intro himport o ho harrives
    by_contra hkey
    have hnone : s.memoryByKey (env.localKey o) = none :=
      memoryByKey_eq_none.2 fun r hr hrkey => hkey ⟨r, hr, hrkey⟩
    cases harrival : env.arrival policy pack s pack.objects (env.localKey o) with
    | none => exact Table.find?_eq_none.1 harrival o ho (by simp [harrives])
    | some o' =>
      -- the first of the objects with this key has become a row
      have hkey' : env.localKey o' = env.localKey o := (Env.arrival_eq_some harrival).2.2
      have hrow := himport (env.importedRow now o')
        (Env.mem_memories_import.2 (Or.inr ⟨o', by rwa [← hkey'] at hnone,
          by rwa [← hkey'] at harrival, rfl⟩))
      exact objectHash_ne_keyToId o' _ hrow
  · intro hnothing r hr
    rcases Env.mem_memories_import.1 hr with ⟨hr, -⟩ | ⟨o, hnone, harrival, rfl⟩
    · exact h r hr
    · obtain ⟨ho, harrives, hkey⟩ := Env.arrival_eq_some harrival
      obtain ⟨r, hr, hrkey⟩ := hnothing o ho harrives
      exact absurd (hrkey.trans hkey) (memoryByKey_eq_none.1 hnone r hr)

theorem rooted_import {policy : ImportPolicy} {pack : Pack} (h : s.Rooted) :
    (env.importPackWithPolicy now s pack policy).1.Rooted := by
  have hobjects : ∀ (objects : List MemoryObject) (acc : Store × ImportOutcome), acc.1.Rooted →
      (objects.foldl (env.importObject policy pack.wingId (env.packRetracted policy pack) now)
        acc).1.Rooted := by
    intro objects
    induction objects with
    | nil => exact fun acc hacc => hacc
    | cons o objects ih =>
      intro acc hacc
      refine ih _ ?_
      unfold Env.importObject
      dsimp only
      split
      · exact hacc
      · split
        · exact hacc
        · split
          · exact rooted_of_subset hacc (fun r hr => hr) rfl
          · exact rooted_of_subset hacc (fun r hr => Table.mem_insertOrIgnore.2 (Or.inl hr)) rfl
  have hretracted : ∀ s : Store, s.Kept ((env.admittedTombstones policy pack).foldl
      (importTombstone now pack.wingId) s) := fun s =>
    kept_foldl id (fun _ _ => kept_importTombstone) s _
  exact (hretracted _).rooted (hobjects pack.objects _ h)

end Store

/-! ## The calls of a brain -/

namespace BrainState

variable {L : WingCache} {S : BrainSetup} {A : ActivitySetup} {now since : String}
  {faults : RecognitionFaults} {b b' : BrainState L}

theorem kept_signStored {memoryId : String} :
    b.cached.store.Kept (b.signStored S now memoryId).1.cached.store := by
  unfold signStored
  split
  · rw [store_signAs]
    refine Store.kept_updateMemories fun r => ?_
    exact ⟨rfl, rfl⟩
  · exact .refl
  · exact .refl

theorem kept_feedRecurrence {memoryId content : String} {outcome : WriteOutcome} :
    b.cached.store.Kept (b.feedRecurrence S now faults memoryId content outcome).1.cached.store := by
  unfold feedRecurrence
  split
  · dsimp only
    split
    · split
      · split
        · refine Store.kept_updateMemories fun r => ?_
          exact ⟨rfl, rfl⟩
        · exact .refl
      · exact .refl
    · exact .refl
  · exact .refl

theorem kept_deriveFields {memory : Memory} {content : String} {outcome : WriteOutcome}
    {fingerprints : List Fingerprint} :
    b.cached.store.Kept
      (b.deriveFields S now faults memory content outcome fingerprints).1.cached.store := by
  unfold deriveFields deriveIndex
  dsimp only
  rw [cached_drainEnrolmentRetries, cached_enrollStored]
  have hdense : b.cached.store.Kept (b.applyStore S
      ⟨.setDeclarativeDensity memory.id (S.declarativeDensity content), now⟩).cached.store := by
    refine Store.kept_updateMemories fun r => ?_
    exact ⟨rfl, rfl⟩
  exact (hdense.trans kept_signStored).trans kept_feedRecurrence

theorem kept_associateSession {memoryId : String} {sessionId : Option String}
    (h : b.associateSession memoryId sessionId = .ok b') : b.cached.store.Kept b'.cached.store := by
  have hbump : ∀ (t : Store) (x y : String),
      (t.bumpPair x y).consolidationEdges = t.consolidationEdges := by
    intro t x y
    unfold Store.bumpPair
    split <;> rfl
  have hpairs : ∀ (id : String) (peers : List String) (t : Store), (peers.foldl (fun s peer =>
      if id < peer then s.bumpPair id peer else s.bumpPair peer id) t).consolidationEdges =
        t.consolidationEdges := by
    intro id peers
    induction peers with
    | nil => exact fun t => rfl
    | cons peer peers ih =>
      intro t
      rw [List.foldl_cons, ih]
      split <;> exact hbump _ _ _
  unfold associateSession at h
  split at h
  · cases h
    exact .refl
  · rename_i id _
    cases hjoin : b.cached.store.associateMemorySession memoryId id with
    | error e => rw [hjoin] at h; cases h
    | ok p =>
      rw [hjoin] at h
      cases h
      refine Store.kept_of_eq (Store.memories_associateMemorySession hjoin) ?_
      unfold Store.associateMemorySession at hjoin
      split at hjoin
      · cases hjoin
        rfl
      · split at hjoin
        · cases hjoin
          exact hpairs _ _ _
        · cases hjoin

/-- **The row write** of a memory under the id of its key. -/
theorem addressed_ingest {key content : String} {opts : RememberOpts}
    {fingerprints : List Fingerprint} (hrooted : b.cached.store.Rooted)
    (h : b.cached.store.Addressed S.env) :
    (b.ingest S now since (S.env.keyToId key) key content opts
        fingerprints).1.cached.store.Rooted ∧
      (b.ingest S now since (S.env.keyToId key) key content opts
        fingerprints).1.cached.store.Addressed S.env := by
  have hprepared : b.cached.store.Kept (S.env.prepareIngest S.en.isWhitespace now since
      b.cached.store (S.env.keyToId key) key content "core" (visibilityToStr opts.visibility)
      opts.ingest).1 := by
    unfold Env.prepareIngest
    refine Store.kept_of_eq (Store.memories_resolveEpisode _ _ _ _ _ _ _ _) ?_
    unfold Store.resolveEpisode
    dsimp only
    split <;> split <;> first | rfl | (split <;> rfl)
  unfold ingest
  dsimp only
  split
  · rename_i s' outcome hwrite
    unfold applyStore CachedStore.apply
    dsimp only [withStore, CachedStore.kept]
    rw [hwrite]
    exact ⟨Store.rooted_writeMemoryInTx (hprepared.rooted hrooted) hwrite,
      Store.addressed_write (hprepared.addressed h) rfl hwrite⟩
  · exact ⟨hprepared.rooted hrooted, hprepared.addressed h⟩

/-- **One `remember`.** -/
theorem addressed_remember {key content : String} {opts : RememberOpts}
    {fingerprints : List Fingerprint} (hrooted : b.cached.store.Rooted)
    (h : b.cached.store.Addressed S.env) :
    (b.remember S now since faults key content opts fingerprints).1.cached.store.Rooted ∧
      (b.remember S now since faults key content opts
        fingerprints).1.cached.store.Addressed S.env := by
  have hingest := @addressed_ingest L S now since b key content opts fingerprints hrooted h
  unfold remember
  split
  · rename_i written e hwritten
    rw [hwritten] at hingest
    exact hingest
  · rename_i written memory outcome hwritten
    rw [hwritten] at hingest
    split
    · exact hingest
    · rename_i joined hjoin
      have hkept := (kept_associateSession hjoin).trans (@kept_deriveFields L S now faults joined
        memory content outcome fingerprints)
      exact ⟨hkept.rooted hingest.1, hkept.addressed hingest.2⟩

/-- **Activity.** -/
theorem addressed_ingestEpisodes {episodes : List ActivityEpisode} {stats : IngestActivityStats}
    (hrooted : b.cached.store.Rooted) (h : b.cached.store.Addressed S.env) :
    (ingestEpisodes S A now episodes b stats).1.cached.store.Rooted ∧
      (ingestEpisodes S A now episodes b stats).1.cached.store.Addressed S.env := by
  induction episodes generalizing b stats with
  | nil => exact ⟨hrooted, h⟩
  | cons episode episodes ih =>
    unfold ingestEpisodes
    split
    · exact ih hrooted h
    · rename_i redacted _
      dsimp only
      split
      · exact ⟨hrooted, h⟩
      · rename_i p hwrite
        obtain ⟨s', outcome⟩ := p
        have hstore : (b.applyStore S ⟨.write (A.memory S.env redacted) [], now⟩).cached.store =
            s' := by
          unfold applyStore CachedStore.apply
          dsimp only
          rw [hwrite]
          rfl
        refine ih ?_ ?_
        · rw [hstore]
          exact Store.rooted_writeMemoryInTx hrooted hwrite
        · rw [hstore]
          exact Store.addressed_write h rfl hwrite

/-- A recall touches no edge. -/
theorem consolidationEdges_recallTopkFts {query : String} {k fetchMult : ℕ} {visibility : Visibility} :
    (b.recallTopkFts S query k fetchMult visibility).1.cached.store.consolidationEdges =
      b.cached.store.consolidationEdges := by
  unfold recallTopkFts
  dsimp only
  split
  · rfl
  · split <;> rfl

theorem kept_recallTopkFts {query : String} {k fetchMult : ℕ} {visibility : Visibility} :
    b.cached.store.Kept (b.recallTopkFts S query k fetchMult visibility).1.cached.store :=
  Store.kept_of_eq memories_recallTopkFts consolidationEdges_recallTopkFts

theorem kept_forget {recallFault : Option String} {key : String} :
    b.cached.store.Kept (b.forget S now faults recallFault key).1.cached.store := by
  have herase : b.cached.store.Kept (b.erase S now faults key).cached.store := by
    have hdeleted : b.cached.store.Kept (b.applyStore S ⟨.deleteMemoryByKey key, now⟩).cached.store :=
      CachedStore.kept_apply trivial
    unfold erase
    dsimp only
    split <;> exact hdeleted
  unfold forget
  dsimp only
  split
  · exact herase
  · unfold probeRecall
    cases recallFault with
    | some e => exact herase
    | none => exact herase.trans kept_recallTopkFts

end BrainState

/-! ## Runs -/

/-- A call of a brain. -/
inductive KeyedCall where
  | remember (now since : String) (faults : RecognitionFaults) (key content : String)
      (opts : RememberOpts) (fingerprints : List Fingerprint)
  | ingestActivity (now : String) (episodes : List ActivityEpisode)
  | importPack (now : String) (pack : Pack) (policy : ImportPolicy)
  | consolidateWith (now since : String) (faults : RecognitionFaults)
      (args : BrainState.ConsolidateArgs) (fingerprints : List Fingerprint)
  | recallTopkFts (query : String) (k fetchMult : ℕ) (visibility : Visibility)
  | forget (now : String) (faults : RecognitionFaults) (recallFault : Option String) (key : String)
  | curate (call : CachedCall) (h : call.op.Curates)

/-- The sources of a hit, by their keys: the existing ones that the context admits, the first
`maxSources` of them. -/
def Store.firstSources (s : Store) (order : Shuffle ConsolidationEdge) (visibility : Visibility)
    (maxSources : ℕ) (hit : MemoryHit) : List MemoryHit :=
  let edges := order.run (s.consolidationEdges.rows.filter fun e => e.targetKey = hit.key)
  let existing := edges.filterMap fun e => s.memoryByKey e.sourceKey
  ((existing.filter fun m => (strToVis m.visibility).allows visibility).take maxSources).map
    (memoryHitFromRow 0)

/-- The contents of the memories under some keys. -/
def Store.contentsUnder (s : Store) (keys : List String) : List String :=
  keys.filterMap fun k => (s.memoryByKey k).map MemoryRow.content

namespace BrainState

variable {L : WingCache}

section

variable (S : BrainSetup) (A : ActivitySetup)

/-- What a call leaves. -/
def performKeyed (b : BrainState L) : KeyedCall → BrainState L
  | .remember now since faults key content opts fingerprints =>
    (b.remember S now since faults key content opts fingerprints).1
  | .ingestActivity now episodes => (ingestActivity S A now episodes b).1
  | .importPack now pack policy => b.applyStore S ⟨.importPack pack policy, now⟩
  | .consolidateWith now since faults args fingerprints =>
    (b.consolidateWith S now since faults args fingerprints).1
  | .recallTopkFts query k fetchMult visibility => (b.recallTopkFts S query k fetchMult visibility).1
  | .forget now faults recallFault key => (b.forget S now faults recallFault key).1
  | .curate call _ => b.applyStore S call

variable (b : BrainState L)

/-- **Every row is found under its key**, and a recall with provenance attaches to each hit its
first sources. -/
structure ReachedByKey : Prop where
  rows : ∀ r ∈ b.cached.store.memories, b.getMemoryByKey S r.key = some r
  sources : ∀ order query k fetchMult visibility maxSources,
    (b.recallWithProvenance S order query k fetchMult visibility maxSources).2 =
      (b.recallTopkFts S query k fetchMult visibility).2.map fun hit =>
        (hit, b.cached.store.firstSources order visibility maxSources hit)

/-- A consolidation uses the contents of the sources that exist. -/
def UsesSources : KeyedCall → Prop
  | .consolidateWith _ _ _ args _ =>
    b.gathered S args.sourceKeys = b.cached.store.contentsUnder args.sourceKeys
  | _ => True

/-- **The condition.**  An import brings no row, and no source that is missing has the id of a
row. -/
def KeepsKeys : KeyedCall → Prop
  | .importPack _ pack policy => Store.BringsNothing S.env policy pack b.cached.store
  | .consolidateWith _ _ _ args _ => ∀ k ∈ args.sourceKeys,
    ¬ b.cached.store.HasKey k → ¬ b.cached.store.HasMemory (S.env.keyToId k)
  | _ => True

end

variable {S : BrainSetup} {A : ActivitySetup} {b : BrainState L}

theorem getMemoryByKey_eq_some {key : String} {r : MemoryRow} :
    b.getMemoryByKey S key = some r ↔ r ∈ b.cached.store.memories ∧ r.id = S.env.keyToId key :=
  Store.getMemory_eq_some

/-- A key that has a row is looked up well. -/
theorem getMemoryByKey_of_hasKey (h : b.cached.store.Addressed S.env) {key : String}
    (hkey : b.cached.store.HasKey key) :
    b.getMemoryByKey S key = b.cached.store.memoryByKey key := by
  obtain ⟨r, hr, rfl⟩ := hkey
  rw [Store.memoryByKey_eq_some.2 ⟨hr, rfl⟩]
  exact getMemoryByKey_eq_some.2 ⟨hr, h r hr⟩

/-- **Rows with the ids of their keys are reached by their keys.** -/
theorem reachedByKey_iff_addressed (hrooted : b.cached.store.Rooted) :
    b.ReachedByKey S ↔ b.cached.store.Addressed S.env := by
  constructor
  · intro h r hr
    exact (getMemoryByKey_eq_some.1 (h.rows r hr)).2
  · intro h
    refine ⟨fun r hr => getMemoryByKey_eq_some.2 ⟨hr, h r hr⟩, ?_⟩
    intro order query k fetchMult visibility maxSources
    have hmemories := @memories_recallTopkFts L S b visibility query k fetchMult
    have hedges := @consolidationEdges_recallTopkFts L S b query k fetchMult visibility
    unfold recallWithProvenance
    dsimp only
    refine List.map_congr_left fun hit _ => Prod.ext rfl ?_
    dsimp only
    unfold sourcesOf Store.firstSources getMemory Store.getMemory
    rw [hmemories, hedges, List.map_take, List.filter_filterMap, List.map_filterMap]
    refine congrArg (List.take maxSources) (List.filterMap_congr fun e he => ?_)
    -- the source of an edge has a row
    have hedge := (List.mem_filter.1 ((order.perm _).mem_iff.1 he)).1
    have hsource := getMemoryByKey_of_hasKey h (hrooted e.sourceKey e.targetKey ⟨e, hedge, rfl, rfl⟩)
    rw [← hsource]
    rfl

/-- Two lookups of which one finds what the other finds, and maybe more, find the same in a list
exactly when they agree on it. -/
theorem filterMap_eq_filterMap_iff {α β : Type} {f g : α → Option β} {l : List α}
    (h : ∀ x ∈ l, (g x).isSome → f x = g x) :
    l.filterMap f = l.filterMap g ↔ ∀ x ∈ l, g x = none → f x = none := by
  have hlength : ∀ l : List α, (∀ x ∈ l, (g x).isSome → f x = g x) →
      (l.filterMap g).length ≤ (l.filterMap f).length := by
    intro l
    induction l with
    | nil => simp
    | cons x l ih =>
      intro h
      have hrest := ih fun y hy => h y (List.mem_cons_of_mem _ hy)
      cases hg : g x with
      | none =>
        rw [List.filterMap_cons_none hg]
        cases hf : f x with
        | none => rwa [List.filterMap_cons_none hf]
        | some y =>
          rw [List.filterMap_cons_some hf, List.length_cons]
          omega
      | some y =>
        have hf : f x = some y := by rw [h x List.mem_cons_self (by simp [hg]), hg]
        rw [List.filterMap_cons_some hg, List.filterMap_cons_some hf]
        simpa using hrest
  induction l with
  | nil => simp
  | cons x l ih =>
    have htail : ∀ y ∈ l, (g y).isSome → f y = g y := fun y hy => h y (List.mem_cons_of_mem _ hy)
    rw [List.forall_mem_cons]
    cases hg : g x with
    | some y =>
      have hf : f x = some y := by rw [h x List.mem_cons_self (by simp [hg]), hg]
      rw [List.filterMap_cons_some hg, List.filterMap_cons_some hf, List.cons_inj_right]
      refine (ih htail).trans ?_
      simp
    | none =>
      rw [List.filterMap_cons_none hg, forall_prop_of_true rfl]
      cases hf : f x with
      | none =>
        rw [List.filterMap_cons_none hf]
        refine (ih htail).trans ?_
        simp
      | some y =>
        -- one more is found
        refine iff_of_false (fun heq => ?_) fun hall => absurd hall.1 (by simp)
        have hle := hlength l htail
        rw [List.filterMap_cons_some hf] at heq
        have := congrArg List.length heq
        rw [List.length_cons] at this
        omega

/-- **What a consolidation uses.** -/
theorem gathered_eq_contentsUnder_iff (h : b.cached.store.Addressed S.env) {keys : List String} :
    b.gathered S keys = b.cached.store.contentsUnder keys ↔
      ∀ k ∈ keys, ¬ b.cached.store.HasKey k → ¬ b.cached.store.HasMemory (S.env.keyToId k) := by
  have hkey : ∀ k, b.cached.store.memoryByKey k = none ↔ ¬ b.cached.store.HasKey k := by
    intro k
    rw [Store.memoryByKey_eq_none]
    exact ⟨fun hnone ⟨r, hr, hrk⟩ => hnone r hr hrk, fun hno r hr hrk => hno ⟨r, hr, hrk⟩⟩
  have hid : ∀ k, b.getMemoryByKey S k = none ↔ ¬ b.cached.store.HasMemory (S.env.keyToId k) := by
    intro k
    rw [Option.eq_none_iff_forall_not_mem]
    constructor
    · rintro hnone ⟨r, hr, hrk⟩
      exact hnone r (getMemoryByKey_eq_some.2 ⟨hr, hrk⟩)
    · intro hno r hr
      exact hno ⟨r, getMemoryByKey_eq_some.1 hr⟩
  unfold gathered Store.contentsUnder
  rw [filterMap_eq_filterMap_iff]
  · simp only [Option.map_eq_none_iff, hkey, hid]
  · intro k _ hsome
    rw [getMemoryByKey_of_hasKey h]
    by_contra hno
    rw [Option.isSome_map, (hkey k).2 hno] at hsome
    cases hsome

/-- **One consolidation.** -/
theorem addressed_consolidateWith {args : ConsolidateArgs} {fingerprints : List Fingerprint}
    (hrooted : b.cached.store.Rooted) (h : b.cached.store.Addressed S.env) :
    (b.consolidateWith S now since faults args fingerprints).1.cached.store.Rooted ∧
      (b.consolidateWith S now since faults args fingerprints).1.cached.store.Addressed S.env := by
  unfold consolidateWith
  dsimp only
  split
  · exact ⟨hrooted, h⟩
  · have hwritten := @addressed_remember L S now since faults b args.targetKey
      (args.summarize (b.gathered S args.sourceKeys))
      { visibility := .priv, compactionTier := some args.tier } fingerprints hrooted h
    split
    · rename_i written e hremember
      rw [hremember] at hwritten
      exact hwritten
    · rename_i written result hremember
      rw [hremember] at hwritten
      have hmerged : written.cached.store.Kept (written.applyStore S
          ⟨.consolidateInto args.sourceKeys args.targetKey .skipAndReport, now⟩).cached.store :=
        CachedStore.kept_apply trivial
      exact ⟨hmerged.rooted hwritten.1, hmerged.addressed hwritten.2⟩

/-- **One call** leaves every edge with its source. -/
theorem rooted_performKeyed (hrooted : b.cached.store.Rooted) (h : b.cached.store.Addressed S.env)
    (call : KeyedCall) : (b.performKeyed S A call).cached.store.Rooted := by
  cases call with
  | remember now since faults key content opts fingerprints =>
    exact (addressed_remember hrooted h).1
  | ingestActivity now episodes => exact (addressed_ingestEpisodes hrooted h).1
  | importPack now pack policy => exact Store.rooted_import hrooted
  | consolidateWith now since faults args fingerprints =>
    exact (addressed_consolidateWith hrooted h).1
  | recallTopkFts query k fetchMult visibility => exact kept_recallTopkFts.rooted hrooted
  | forget now faults recallFault key => exact kept_forget.rooted hrooted
  | curate call hcall => exact (CachedStore.kept_apply hcall).rooted hrooted

/-- **One call** leaves every row with the id of its key, and uses what it should, exactly when it
meets the condition. -/
theorem keepsKeys_iff (hrooted : b.cached.store.Rooted) (h : b.cached.store.Addressed S.env)
    (call : KeyedCall) :
    b.KeepsKeys S call ↔
      (b.performKeyed S A call).cached.store.Addressed S.env ∧ b.UsesSources S call := by
  cases call with
  | remember now since faults key content opts fingerprints =>
    exact iff_of_true trivial ⟨(addressed_remember hrooted h).2, trivial⟩
  | ingestActivity now episodes =>
    exact iff_of_true trivial ⟨(addressed_ingestEpisodes hrooted h).2, trivial⟩
  | importPack now pack policy =>
    have himport : (b.performKeyed S A (.importPack now pack policy)).cached.store.Addressed S.env ↔
        Store.BringsNothing S.env policy pack b.cached.store := Store.addressed_import_iff h
    exact himport.symm.trans (and_iff_left trivial).symm
  | consolidateWith now since faults args fingerprints =>
    have hkept : (b.performKeyed S A
        (.consolidateWith now since faults args fingerprints)).cached.store.Addressed S.env :=
      (addressed_consolidateWith hrooted h).2
    exact (gathered_eq_contentsUnder_iff h).symm.trans (and_iff_right hkept).symm
  | recallTopkFts query k fetchMult visibility =>
    exact iff_of_true trivial ⟨kept_recallTopkFts.addressed h, trivial⟩
  | forget now faults recallFault key =>
    exact iff_of_true trivial ⟨kept_forget.addressed h, trivial⟩
  | curate call hcall =>
    exact iff_of_true trivial ⟨(CachedStore.kept_apply hcall).addressed h, trivial⟩

/-- **Reached by key**, all along a run of a new brain, exactly when no import brings a row and no
consolidation is given a key without a row that has the id of one. -/
theorem reachedByKey_iff (S : BrainSetup) (A : ActivitySetup) (L : WingCache)
    (calls : List KeyedCall) :
    AllSteps (performKeyed S A) (KeepsKeys S) (opened L) calls ↔
      (∀ past, past <+: calls → (run (performKeyed S A) (opened L) past).ReachedByKey S) ∧
        AllSteps (performKeyed S A) (UsesSources S) (opened L) calls := by
  have hrooted : (opened L).cached.store.Rooted := Store.rooted_empty
  have hreached : (opened L).ReachedByKey S :=
    (reachedByKey_iff_addressed hrooted).2 fun r hr => absurd hr (Table.not_mem_empty r)
  refine allSteps_iff_forall_past_and (J := fun b : BrainState L => b.cached.store.Rooted)
    (I := ReachedByKey S) (fun b call hb h => ?_) (fun b call hb h => ?_) hrooted hreached
  · exact rooted_performKeyed hb ((reachedByKey_iff_addressed hb).1 h) call
  · have haddressed := (reachedByKey_iff_addressed hb).1 h
    rw [reachedByKey_iff_addressed (rooted_performKeyed hb haddressed call)]
    exact keepsKeys_iff hb haddressed call

/-! ## An imported note -/

/-- Activity as it comes. -/
def verbatimActivity : ActivitySetup := { redact := some }

/-- A peer that is asked for single words. -/
def wordPeer : BrainSetup := { peer with ftsQueryWords := fun query => [query] }

/-- The peer imports the signed note, writes the week's note and merges the one into the other. -/
def mergedImport : List KeyedCall :=
  [.importPack "2026-01-02 10:00:00" { wingId := "team", objects := [signedNote] }
      (.requireSigned keyring),
    .remember "2026-01-02 11:00:00" "2026-01-02 10:30:00" {} "week" note.content {} [],
    .curate ⟨.consolidateInto [importedKey] "week" .skipAndReport, "2026-01-02 11:05:00"⟩ trivial]

/-- **An imported note** is a row that its key does not lead to.  It cannot be summed up, and what
was summed up from it has no source. -/
theorem imported_note_unreached :
    let b := run (performKeyed wordPeer verbatimActivity) (opened wingCache) mergedImport
    (∃ r ∈ b.cached.store.memories.rows, r.key = importedKey ∧ r.content = note.content) ∧
      b.getMemoryByKey wordPeer importedKey = none ∧
      ((b.consolidateWith wordPeer "2026-01-02 12:00:00" "2026-01-02 11:30:00" {}
        ⟨[importedKey], "month", .weeklyRollup, String.join⟩ []).2.toOption.isNone ∧
        b.cached.store.contentsUnder [importedKey] = [note.content]) ∧
      (b.recallWithProvenance wordPeer .inOrder "monday" 5 3 .priv 3).2.map
        (fun p => (p.1.key, p.2.map MemoryHit.key)) = [("week", [])] ∧
      (b.recallTopkFts wordPeer "monday" 5 3 .priv).2.map (fun hit =>
        (hit.key, (b.cached.store.firstSources .inOrder .priv 3 hit).map MemoryHit.key)) =
        [("week", [importedKey])] := by
  decide +kernel

end BrainState

end Spectral
