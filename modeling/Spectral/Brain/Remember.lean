import Spectral.Brain.State
import Mathlib.Logic.Relation

/-!
# Remember

`Brain::remember_with` writes a memory and then derives from it: its session, its density, its
signature, its place in the recognition index.  The write commits first, and each of the others
in a transaction of its own; a failure of the index is a warning, and the id is queued for the
next writes to enroll.

* `remember` — the whole call; `RecognitionFaults` are the index operations that fail in it.
* `Move` — what single steps of a brain do to the store, its cache and the index.
* `moves_remember` — a call is a sequence of moves, so it keeps what every move keeps.
* `marked_moves` — what is in the index has its marker.
-/

namespace Spectral

open Spectral.Lib

/-! ## Sessions -/

namespace Store

/-- The upsert of a pair. -/
def bumpPair (s : Store) (a b : String) : Store :=
  if s.coRetrievalPairs.Clashes ⟨a, b, 1⟩ then
    { s with
      coRetrievalPairs := s.coRetrievalPairs.update
        (fun p => if p.memoryIdA = a ∧ p.memoryIdB = b then { p with coCount := p.coCount + 1 } else p)
        (by intro p q h; unfold SameKey at h ⊢; split at h <;> split at h <;> exact h) }
  else { s with coRetrievalPairs := s.coRetrievalPairs.insertOrIgnore ⟨a, b, 1⟩ }

/-- `associate_memory_session`: pairs the memory with the others of a session it is new to. -/
def associateMemorySession (s : Store) (memoryId sessionId : String) : Except String (Store × ℕ) :=
  if s.memorySessions.Clashes ⟨memoryId, sessionId⟩ then .ok (s, 0)
  else if s.HasMemory memoryId then
    let peers := (s.memorySessions.rows.filter fun m =>
      m.sessionId = sessionId && decide (m.memoryId ≠ memoryId)).map MemorySession.memoryId
    let joined := { s with memorySessions := s.memorySessions.insertOrIgnore ⟨memoryId, sessionId⟩ }
    .ok (peers.foldl (fun s peer =>
      if memoryId < peer then s.bumpPair memoryId peer else s.bumpPair peer memoryId) joined,
      peers.length)
  else .error "FOREIGN KEY constraint failed"

theorem memories_bumpPair (s : Store) (a b : String) : (s.bumpPair a b).memories = s.memories := by
  unfold bumpPair
  split <;> rfl

/-- A session touches no memory. -/
theorem memories_associateMemorySession {s s' : Store} {memoryId sessionId : String} {n : ℕ}
    (h : s.associateMemorySession memoryId sessionId = .ok (s', n)) : s'.memories = s.memories := by
  unfold associateMemorySession at h
  split at h
  · cases h
    rfl
  · have hpairs : ∀ (peers : List String) (t : Store), (peers.foldl (fun s peer =>
        if memoryId < peer then s.bumpPair memoryId peer else s.bumpPair peer memoryId) t).memories =
          t.memories := by
      intro peers
      induction peers with
      | nil => exact fun t => rfl
      | cons peer peers ih =>
        intro t
        rw [List.foldl_cons, ih]
        split <;> exact memories_bumpPair _ _ _
    split at h
    · cases h
      exact hpairs _ _
    · cases h

end Store

/-! ## The call -/

/-- `RememberOpts`, with the creation time as it is printed. -/
structure RememberOpts where
  source : Option String := none
  deviceId : Option Bytes32 := none
  confidence : Option ℚ := none
  visibility : Visibility := .priv
  createdAt : Option String := none
  episodeId : Option String := none
  sessionId : Option String := none
  compactionTier : Option CompactionTier := none
  wing : Option String := none
  hall : Option String := none
  deriving DecidableEq

/-- The options of the pipeline. -/
def RememberOpts.ingest (opts : RememberOpts) : IngestOpts :=
  { source := opts.source, deviceId := opts.deviceId, confidence := opts.confidence,
    createdAt := opts.createdAt, episodeId := opts.episodeId,
    compactionTier := opts.compactionTier, wing := opts.wing, hall := opts.hall }

/-- `Recurrence`. -/
structure Recurrence where
  matchedMemoryId : String
  familiarity : ℚ
  deriving DecidableEq

/-- `RememberResult`. -/
structure RememberResult where
  memoryId : String
  wing : Option String
  hall : Option String
  signalScore : ℚ
  fingerprintsCreated : ℕ
  source : Option String
  deviceId : Option Bytes32
  confidence : ℚ
  writeOutcome : WriteOutcome
  recurrence : Option Recurrence
  derivationWarnings : List String
  deriving DecidableEq

/-- What `remember` returns of a memory it has written. -/
def Memory.rememberResult (memory : Memory) (outcome : WriteOutcome) (fingerprintsCreated : ℕ)
    (recurrence : Option Recurrence) (derivationWarnings : List String) : RememberResult :=
  { memoryId := memory.id, wing := memory.wing, hall := memory.hall,
    signalScore := memory.signalScore, fingerprintsCreated, source := memory.source,
    deviceId := memory.deviceId, confidence := memory.confidence, writeOutcome := outcome,
    recurrence, derivationWarnings }

/-- What a signature covers of a row. -/
structure SignedFields where
  key : String
  contentHash : String
  createdAt : String
  visibility : String
  deriving DecidableEq

/-- The fields of a row, if it has a content hash. -/
def MemoryRow.signedFields (r : MemoryRow) : Option SignedFields :=
  r.contentHash.map fun contentHash => ⟨r.key, contentHash, r.createdAt, r.visibility⟩

/-- The signature of this brain over some fields. -/
def BrainSetup.signature (S : BrainSetup) (fields : SignedFields) : Signature :=
  S.identity.signMemory S.env fields.key fields.contentHash fields.createdAt fields.visibility

/-- The operations of the recognition index that fail, a poisoned lock included. -/
structure RecognitionFaults where
  enroll : String → Option EnrollFault := fun _ => none
  markPending : Option String := none
  pendingIds : Bool := false
  clearPending : Bool := false
  forget : String → Bool := fun _ => false
  enrolledIds : Bool := false
  recognize : Option String := none
  isEnrolled : Option String := none

/-- `ENROLMENT_RETRY_BATCH`. -/
def enrolmentRetryBatch : ℕ := 4

/-- `RECURRENCE_MIN_FAMILIARITY`. -/
def recurrenceMinFamiliarity : ℚ := 60 / 100

/-- `RECURRENCE_STRENGTH`. -/
def recurrenceStrength : ℚ := 5 / 100

namespace BrainState

variable {L : WingCache}

section

variable (S : BrainSetup) (now since : String) (faults : RecognitionFaults) (b : BrainState L)

/-- The pipeline call.  When the write fails the episode stays. -/
def ingest (memoryId key content : String) (opts : RememberOpts)
    (fingerprints : List Fingerprint) : BrainState L × Except String (Memory × WriteOutcome) :=
  let prepared := S.env.prepareIngest S.en.isWhitespace now since b.cached.store memoryId key content
    "core" (visibilityToStr opts.visibility) opts.ingest
  match S.env.writeMemoryInTx now prepared.1 prepared.2 fingerprints with
  | .ok (_, outcome) =>
    ((b.withStore prepared.1).applyStore S ⟨.write prepared.2 fingerprints, now⟩,
      .ok (prepared.2, outcome))
  | .error e => (b.withStore prepared.1, .error e)

/-- The session of a memory; an empty id is none. -/
def associateSession (memoryId : String) (sessionId : Option String) :
    Except String (BrainState L) :=
  match sessionId.filter fun id => id ≠ "" with
  | none => .ok b
  | some id => (b.cached.store.associateMemorySession memoryId id).map fun p => b.withStore p.1

/-- The read-back of the stored row, for what is signed of it. -/
def readBack (memoryId : String) : Except String (Option SignedFields) :=
  match b.getMemory memoryId with
  | some stored => .ok stored.signedFields
  | none => .error "signed provenance: stored memory could not be read"

/-- The write of a signature. -/
def signAs (memoryId : String) (fields : SignedFields) : BrainState L :=
  b.applyStore S
    ⟨.setSignature memoryId (S.identity.brainId S.env) (S.signature fields).toList, now⟩

/-- The signature over the stored row. -/
def signStored (memoryId : String) : BrainState L × List String :=
  match b.readBack memoryId with
  | .ok (some fields) => (b.signAs S now memoryId fields, [])
  | .ok none => (b, [])
  | .error e => (b, [e])

/-- The recurrence feedback: a new memory that is recognized strengthens the one it is
recognized as. -/
def feedRecurrence (memoryId content : String) (outcome : WriteOutcome) :
    BrainState L × Option Recurrence :=
  if S.recurrenceFeedback = true ∧ outcome = .inserted ∧ faults.recognize = none then
    let recognition := b.index.recognize S.rc content
    match recognition.verdict, recognition.traces.head? with
    | .recognized _, some top =>
      if recurrenceMinFamiliarity ≤ recognition.familiarity ∧ top.memoryId ≠ memoryId then
        let recurrence := some ⟨top.memoryId, recognition.familiarity⟩
        match b.getMemory top.memoryId with
        | some prior =>
          (b.applyStore S ⟨.reinforceMemory prior.key recurrenceStrength, now⟩, recurrence)
        | none => (b, recurrence)
      else (b, none)
    | _, _ => (b, none)
  else (b, none)

/-- The enrolment, which is queued when it fails. -/
def enrollStored (memoryId content : String) : BrainState L × List String :=
  match b.index.enroll S.rc (faults.enroll memoryId) memoryId content with
  | (index, .ok _) => ({ b with index }, [])
  | (index, .error e) =>
    match faults.markPending with
    | none => ({ b with index := index.markPending now memoryId }, ["recognition enrollment: " ++ e])
    | some e' => ({ b with index },
        ["recognition enrollment: " ++ e, "enrolment retry not queued: " ++ e'])

/-- One id of the retry queue.  The second component counts the ids that were enrolled. -/
def retryOne (acc : RecognitionIndex × ℕ) (id : String) : RecognitionIndex × ℕ :=
  let cleared (index : RecognitionIndex) : RecognitionIndex :=
    if faults.clearPending = true then index else index.clearPending id
  match b.getMemory id with
  | none => (cleared acc.1, acc.2)
  | some memory =>
    match acc.1.enroll S.rc (faults.enroll id) id memory.content with
    | (index, .ok _) => (cleared index, acc.2 + 1)
    | (index, .error _) => (index, acc.2)

/-- `drain_enrolment_retries`. -/
def drainEnrolmentRetries (batch : ℕ) : BrainState L × ℕ :=
  if faults.pendingIds = true then (b, 0)
  else
    let (index, healed) := (b.index.pendingIds batch).foldl (b.retryOne S faults) (b.index, 0)
    ({ b with index }, healed)

/-- What `remember` does once the memory is signed, and what it returns. -/
def deriveIndex (memory : Memory) (content : String) (outcome : WriteOutcome)
    (fingerprints : List Fingerprint) (warnings : List String) : BrainState L × RememberResult :=
  let fed := b.feedRecurrence S now faults memory.id content outcome
  let enrolled := fed.1.enrollStored S now faults memory.id content
  ((enrolled.1.drainEnrolmentRetries S faults enrolmentRetryBatch).1,
    memory.rememberResult outcome fingerprints.length fed.2 (warnings ++ enrolled.2))

/-- What `remember` does once the memory is written and has its session. -/
def deriveFields (memory : Memory) (content : String) (outcome : WriteOutcome)
    (fingerprints : List Fingerprint) : BrainState L × RememberResult :=
  let dense := b.applyStore S
    ⟨.setDeclarativeDensity memory.id (S.declarativeDensity content), now⟩
  let signed := dense.signStored S now memory.id
  signed.1.deriveIndex S now faults memory content outcome fingerprints signed.2

/-- `remember_with`. -/
def remember (key content : String) (opts : RememberOpts) (fingerprints : List Fingerprint) :
    BrainState L × Except String RememberResult :=
  match b.ingest S now since (S.env.keyToId key) key content opts fingerprints with
  | (written, .error e) => (written, .error e)
  | (written, .ok (memory, outcome)) =>
    match written.associateSession memory.id opts.sessionId with
    | .error e => (written, .error ("persist memory session: " ++ e))
    | .ok joined =>
      let derived := joined.deriveFields S now faults memory content outcome fingerprints
      (derived.1, .ok derived.2)

end

/-! ## The row write and the signature write -/

section

variable {S : BrainSetup} {now since : String} {b b' : BrainState L}

/-- **The signature write** sets the signature, whatever it does to the cache. -/
theorem store_signAs {memoryId : String} {fields : SignedFields} :
    (b.signAs S now memoryId fields).cached.store =
      b.cached.store.setSignature memoryId (S.identity.brainId S.env)
        (S.signature fields).toList := by
  unfold signAs applyStore CachedStore.apply
  dsimp only
  split <;> rfl

/-- **The row write**: the memory has the id it is given, and the store is written. -/
theorem exists_written_of_ingest {memoryId key content : String} {memory : Memory}
    {outcome : WriteOutcome} {opts : RememberOpts} {fingerprints : List Fingerprint}
    (h : b.ingest S now since memoryId key content opts fingerprints =
      (b', .ok (memory, outcome))) :
    memory.id = memoryId ∧ memory.key = key ∧
      ∃ s, s.memories = b.cached.store.memories ∧ S.env.Written now memory s b'.cached.store := by
  have hmemories : (S.env.prepareIngest S.en.isWhitespace now since b.cached.store memoryId key
      content "core" (visibilityToStr opts.visibility) opts.ingest).1.memories =
        b.cached.store.memories := by
    unfold Env.prepareIngest
    exact Store.memories_resolveEpisode _ _ _ _ _ _ _ _
  unfold ingest at h
  dsimp only at h
  split at h
  · rename_i s' outcome' hwrite
    cases h
    refine ⟨rfl, rfl, _, hmemories, ?_⟩
    unfold applyStore CachedStore.apply
    dsimp only [withStore, CachedStore.kept]
    rw [hwrite]
    exact Env.written_of_writeMemoryInTx hwrite
  · cases h

/-- A session touches no memory. -/
theorem memories_of_associateSession {memoryId : String} {sessionId : Option String}
    (h : b.associateSession memoryId sessionId = .ok b') :
    b'.cached.store.memories = b.cached.store.memories := by
  unfold associateSession at h
  split at h
  · cases h
    rfl
  · rename_i id _
    cases hjoin : b.cached.store.associateMemorySession memoryId id with
    | error e => rw [hjoin] at h; cases h
    | ok p =>
      rw [hjoin] at h
      cases h
      exact Store.memories_associateMemorySession hjoin

theorem memories_of_ingest_error {memoryId key content e : String} {opts : RememberOpts}
    {fingerprints : List Fingerprint} (h : b.ingest S now since memoryId key content opts fingerprints = (b', .error e)) :
    b'.cached.store.memories = b.cached.store.memories := by
  unfold ingest at h
  dsimp only at h
  split at h
  · cases h
  · cases h
    unfold Env.prepareIngest
    exact Store.memories_resolveEpisode _ _ _ _ _ _ _ _

end

/-! ## Moves -/

/-- What a step of the brain does. -/
inductive Move (S : BrainSetup) : BrainState L → BrainState L → Prop
  | applyStore {b : BrainState L} (call : CachedCall) : Move S b (b.applyStore S call)
  | withStore {b : BrainState L} (s : Store) : Move S b (b.withStore s)
  | enroll {b : BrainState L} (fault : Option EnrollFault) (id content : String) :
    Move S b { b with index := (b.index.enroll S.rc fault id content).1 }
  | forget {b : BrainState L} (id : String) : Move S b { b with index := (b.index.forget id).1 }
  | queue {b : BrainState L} (pending : Table PendingRow (SameKey PendingRow.memoryId)) :
    Move S b { b with index := { b.index with pending } }

/-- Some moves, one after the other. -/
abbrev Moves (S : BrainSetup) : BrainState L → BrainState L → Prop := Relation.ReflTransGen (Move S)

variable {S : BrainSetup} {now since : String} {faults : RecognitionFaults} {b b' : BrainState L}

/-- **Every move keeps the markers.** -/
theorem marked_move (h : b.index.Marked) (hmove : Move S b b') : b'.index.Marked := by
  cases hmove with
  | applyStore call => exact h
  | withStore s => exact h
  | enroll fault id content => exact RecognitionIndex.marked_enroll h fault
  | forget id => exact RecognitionIndex.marked_forget h
  | queue pending => exact RecognitionIndex.marked_of_pending h

theorem marked_moves (h : b.index.Marked) (hmoves : Moves S b b') : b'.index.Marked := by
  induction hmoves with
  | refl => exact h
  | tail _ hmove ih => exact marked_move ih hmove

theorem moves_ingest (S : BrainSetup) (now since : String) (b : BrainState L)
    (memoryId key content : String) (opts : RememberOpts) (fingerprints : List Fingerprint) :
    Moves S b (b.ingest S now since memoryId key content opts fingerprints).1 := by
  unfold ingest
  dsimp only
  split
  · exact (Relation.ReflTransGen.single (.withStore _)).tail (.applyStore _)
  · exact Relation.ReflTransGen.single (.withStore _)

theorem moves_associateSession {memoryId : String} {sessionId : Option String}
    (h : b.associateSession memoryId sessionId = .ok b') : Moves S b b' := by
  unfold associateSession at h
  split at h
  · cases h
    exact .refl
  · rename_i id _
    cases hjoin : b.cached.store.associateMemorySession memoryId id with
    | error e => rw [hjoin] at h; cases h
    | ok p =>
      rw [hjoin] at h
      cases h
      exact .single (.withStore _)

theorem moves_signStored {memoryId : String} : Moves S b (b.signStored S now memoryId).1 := by
  unfold signStored
  split
  · exact .single (.applyStore _)
  · exact .refl
  · exact .refl

theorem moves_feedRecurrence {memoryId content : String} {outcome : WriteOutcome} :
    Moves S b (b.feedRecurrence S now faults memoryId content outcome).1 := by
  unfold feedRecurrence
  split
  · dsimp only
    split
    · split
      · split
        · exact .single (.applyStore _)
        · exact .refl
      · exact .refl
    · exact .refl
  · exact .refl

theorem moves_enrollStored {memoryId content : String} :
    Moves S b (b.enrollStored S now faults memoryId content).1 := by
  have hmove : Move S b _ := .enroll (faults.enroll memoryId) memoryId content
  unfold enrollStored
  split
  · rename_i index _ henroll
    rw [henroll] at hmove
    exact .single hmove
  · rename_i index e henroll
    rw [henroll] at hmove
    split
    · exact (Relation.ReflTransGen.single hmove).tail (.queue _)
    · exact .single hmove

theorem moves_retryOne {index : RecognitionIndex} {healed : ℕ} {id : String} :
    Moves S { b with index } { b with index := (b.retryOne S faults (index, healed) id).1 } := by
  have hcleared : ∀ i : RecognitionIndex, Moves S { b with index := i }
      { b with index := if faults.clearPending = true then i else i.clearPending id } := by
    intro i
    split
    · exact .refl
    · exact .single (.queue (S := S) (b := { b with index := i }) _)
  unfold retryOne
  dsimp only
  split
  · exact hcleared index
  · rename_i memory _
    have hmove : Move S { b with index } _ := .enroll (faults.enroll id) id memory.content
    split
    · rename_i index' _ henroll
      dsimp only at hmove
      rw [henroll] at hmove
      exact (Relation.ReflTransGen.single hmove).trans (hcleared index')
    · rename_i index' e henroll
      dsimp only at hmove
      rw [henroll] at hmove
      exact .single hmove

theorem moves_drainEnrolmentRetries {batch : ℕ} :
    Moves S b (b.drainEnrolmentRetries S faults batch).1 := by
  unfold drainEnrolmentRetries
  split
  · exact .refl
  · dsimp only
    generalize b.index.pendingIds batch = ids
    -- along the queue, from its end
    induction ids using List.reverseRecOn with
    | nil => exact .refl
    | append_singleton ids id ih =>
      rw [List.foldl_append, List.foldl_cons, List.foldl_nil]
      exact ih.trans moves_retryOne

/-- **One `remember`** is a sequence of moves. -/
theorem moves_remember {key content : String} {opts : RememberOpts}
    {fingerprints : List Fingerprint} :
    Moves S b (b.remember S now since faults key content opts fingerprints).1 := by
  have hingest := moves_ingest S now since b (S.env.keyToId key) key content opts fingerprints
  unfold remember
  split
  · rename_i written e hwritten
    rw [hwritten] at hingest
    exact hingest
  · rename_i written memory outcome hwritten
    rw [hwritten] at hingest
    split
    · exact hingest
    · rename_i joined hjoined
      refine (hingest.trans (moves_associateSession hjoined)).trans ?_
      unfold deriveFields deriveIndex
      dsimp only
      have hdense : Moves S joined _ := .single (.applyStore
        ⟨.setDeclarativeDensity memory.id (S.declarativeDensity content), now⟩)
      exact (((hdense.trans moves_signStored).trans moves_feedRecurrence).trans
        moves_enrollStored).trans moves_drainEnrolmentRetries

end BrainState

end Spectral
