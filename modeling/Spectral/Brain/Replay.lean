import Spectral.Brain.Enrolment

/-!
# A write that comes again

`remember_with` decides in the row write that there is nothing to write, and takes all of its other
steps again: the episode, the session, the density, the signature, the enrolment and the retries.

* `Settled` — what a write leaves of its memory: the hash of its text, the session, the density, the
  signature over the row as it is, and the marker in the index.
* `settled_of_remember` — a write that returns without a warning leaves it so.
* `replay_of_settled` — from there the write reports that it did nothing, and all of the store but
  the episodes is as it was; the index is what the retries make of it.
* `replayed_note` — an episode is counted again, and a memory that was queued is enrolled.
-/

namespace Spectral

open Spectral.Lib

/-! ## Rows but for their scores -/

/-- The row without what a reinforcement changes. -/
def MemoryRow.unscored (r : MemoryRow) : MemoryRow :=
  { r with signalScore := 0, lastReinforcedAt := none, updatedAt := "" }

namespace Store

/-- The rows without their scores. -/
def unscored (s : Store) : List MemoryRow := s.memories.rows.map MemoryRow.unscored

variable {s s' : Store}

/-- A store with the same rows but for their scores. -/
theorem exists_of_unscored (h : s'.unscored = s.unscored) {r' : MemoryRow} (hr' : r' ∈ s'.memories) :
    ∃ r ∈ s.memories, r.unscored = r'.unscored := by
  have hmem : r'.unscored ∈ s'.unscored := List.mem_map_of_mem hr'
  rw [h] at hmem
  exact List.mem_map.1 hmem

theorem unscored_reinforceMemory {now key : String} {strength : ℚ} :
    (s.reinforceMemory now key strength).1.unscored = s.unscored := by
  unfold unscored reinforceMemory updateMemories Table.update
  dsimp only
  rw [List.map_map]
  refine List.map_congr_left fun r _ => ?_
  rw [Function.comp_apply]
  split
  · rfl
  · rfl

/-- A density that is stored already. -/
theorem setDeclarativeDensity_eq_self {memoryId : String} {density : ℚ}
    (h : ∀ r ∈ s.memories, r.id = memoryId → r.declarativeDensity = some density) :
    s.setDeclarativeDensity memoryId density = s := by
  unfold setDeclarativeDensity
  refine updateMemories_eq_self fun r hr hid => ?_
  rw [← h r hr (of_decide_eq_true hid)]

/-- A signature that is stored already. -/
theorem setSignature_eq_self {memoryId : String} {source : Bytes32} {signature : List UInt8}
    (h : ∀ r ∈ s.memories, r.id = memoryId →
      r.sourceBrainId = some source ∧ r.signature = some signature) :
    s.setSignature memoryId source signature = s := by
  unfold setSignature
  refine updateMemories_eq_self fun r hr hid => ?_
  obtain ⟨hsource, hsignature⟩ := h r hr (of_decide_eq_true hid)
  rw [← hsource, ← hsignature]

/-- A session that a memory is new to, or not, is one that it has. -/
theorem clashes_of_associateMemorySession {memoryId sessionId : String} {n : ℕ}
    (h : s.associateMemorySession memoryId sessionId = .ok (s', n)) :
    s'.memorySessions.Clashes ⟨memoryId, sessionId⟩ := by
  have hpairs : ∀ (peers : List String) (t : Store), (peers.foldl (fun s peer =>
      if memoryId < peer then s.bumpPair memoryId peer else s.bumpPair peer memoryId)
        t).memorySessions = t.memorySessions := by
    intro peers
    induction peers with
    | nil => exact fun t => rfl
    | cons peer peers ih =>
      intro t
      rw [List.foldl_cons, ih]
      split <;> (unfold bumpPair; split <;> rfl)
  unfold associateMemorySession at h
  split at h
  · rename_i hthere
    cases h
    exact hthere
  · split at h
    · cases h
      rw [hpairs]
      rcases Table.exists_clash_or_mem_insertOrIgnore s.memorySessions ⟨memoryId, sessionId⟩ with
        ⟨m, hm, hclash⟩ | hm
      · exact ⟨m, Table.mem_insertOrIgnore_of_mem hm, hclash⟩
      · exact ⟨_, hm, rfl⟩
    · cases h

end Store

/-- The hash of the written row is that of the text that came in. -/
theorem Env.contentHash_writtenRow_eq {env : Env} {now : String} {s : Store} {memory : Memory} :
    (env.writtenRow now s memory).contentHash = some (env.contentHash memory.content) := by
  unfold writtenRow
  cases s.memoryByKey memory.key with
  | none => rfl
  | some r =>
    dsimp only
    split
    · rename_i hsame
      unfold effectiveHash at hsame
      cases hc : r.contentHash with
      | none => rfl
      | some c =>
        rw [hc, Option.getD_some] at hsame
        simp [hsame]
    · rfl

/-! ## What a write settles -/

namespace BrainState

variable {L : WingCache}

/-- What a write without a warning leaves of its memory, in a brain. -/
structure Settled (S : BrainSetup) (b : BrainState L) (key content : String)
    (sessionId : Option String) : Prop where
  hashed : ∃ r ∈ b.cached.store.memories, r.key = key ∧
    r.contentHash = some (S.env.contentHash (cleanMemoryContextPrefixes S.en.isWhitespace content))
  stored : b.cached.store.HasMemory (S.env.keyToId key)
  session : ∀ id ∈ sessionId.filter fun id => id ≠ "",
    b.cached.store.memorySessions.Clashes ⟨S.env.keyToId key, id⟩
  dense : ∀ r ∈ b.cached.store.memories, r.id = S.env.keyToId key →
    r.declarativeDensity = some (S.declarativeDensity content)
  signed : ∀ r ∈ b.cached.store.memories, r.id = S.env.keyToId key → ∀ fields ∈ r.signedFields,
    r.sourceBrainId = some (S.identity.brainId S.env) ∧
      r.signature = some (S.signature fields).toList
  enrolled : S.env.keyToId key ∈ b.index.enrolled

variable {S : BrainSetup} {now since : String} {faults : RecognitionFaults} {b b' : BrainState L}
  {key content memoryId : String} {opts : RememberOpts} {fingerprints : List Fingerprint}

/-- What is settled stays so where the rows keep all but their scores. -/
theorem Settled.congr {sessionId : Option String} (h : b.Settled S key content sessionId)
    (hrows : b'.cached.store.unscored = b.cached.store.unscored)
    (hsessions : b'.cached.store.memorySessions = b.cached.store.memorySessions)
    (henrolled : ∀ id ∈ b.index.enrolled, id ∈ b'.index.enrolled) :
    b'.Settled S key content sessionId where
  hashed := by
    obtain ⟨r, hr, hkey, hhash⟩ := h.hashed
    obtain ⟨r', hr', hsame⟩ := Store.exists_of_unscored hrows.symm hr
    refine ⟨r', hr', ?_, ?_⟩
    · exact (congrArg MemoryRow.key hsame).trans hkey
    · exact (congrArg MemoryRow.contentHash hsame).trans hhash
  stored := by
    obtain ⟨r, hr, hid⟩ := h.stored
    obtain ⟨r', hr', hsame⟩ := Store.exists_of_unscored hrows.symm hr
    exact ⟨r', hr', (congrArg MemoryRow.id hsame).trans hid⟩
  session id hid := hsessions ▸ h.session id hid
  dense r' hr' hid := by
    obtain ⟨r, hr, hsame⟩ := Store.exists_of_unscored hrows hr'
    rw [← h.dense r hr ((congrArg MemoryRow.id hsame).trans hid)]
    exact (congrArg MemoryRow.declarativeDensity hsame).symm
  signed r' hr' hid fields hfields := by
    obtain ⟨r, hr, hsame⟩ := Store.exists_of_unscored hrows hr'
    have hsameFields : r.unscored.signedFields = r'.unscored.signedFields := by rw [hsame]
    obtain ⟨hsource, hsignature⟩ := h.signed r hr ((congrArg MemoryRow.id hsame).trans hid) fields
      (hsameFields.trans hfields)
    exact ⟨(congrArg MemoryRow.sourceBrainId hsame).symm.trans hsource,
      (congrArg MemoryRow.signature hsame).symm.trans hsignature⟩
  enrolled := henrolled _ h.enrolled

/-- A memory has its session afterwards. -/
theorem clashes_of_associateSession {sessionId : Option String}
    (h : b.associateSession memoryId sessionId = .ok b') :
    ∀ id ∈ sessionId.filter fun id => id ≠ "",
      b'.cached.store.memorySessions.Clashes ⟨memoryId, id⟩ := by
  unfold associateSession at h
  intro id hid
  split at h
  · rename_i hnone
    rw [hnone] at hid
    cases hid
  · rename_i id' hsome
    rw [hsome] at hid
    cases hid
    cases hjoin : b.cached.store.associateMemorySession memoryId id with
    | error e => rw [hjoin] at h; cases h
    | ok p =>
      rw [hjoin] at h
      cases h
      exact Store.clashes_of_associateMemorySession hjoin

/-- The feedback reinforces a memory at most. -/
theorem unscored_feedRecurrence {outcome : WriteOutcome} :
    (b.feedRecurrence S now faults memoryId content outcome).1.cached.store.unscored =
        b.cached.store.unscored ∧
      (b.feedRecurrence S now faults memoryId content outcome).1.cached.store.memorySessions =
        b.cached.store.memorySessions ∧
      (b.feedRecurrence S now faults memoryId content outcome).1.index = b.index := by
  have hsame : b.cached.store.unscored = b.cached.store.unscored ∧
      b.cached.store.memorySessions = b.cached.store.memorySessions ∧ b.index = b.index :=
    ⟨rfl, rfl, rfl⟩
  unfold feedRecurrence
  split
  · dsimp only
    split
    · split
      · split
        · exact ⟨Store.unscored_reinforceMemory, rfl, rfl⟩
        · exact hsame
      · exact hsame
    · exact hsame
  · exact hsame

/-- An enrolment without a warning leaves its marker, and none is lost. -/
theorem enrolled_enrollStored :
    (∀ id ∈ b.index.enrolled, id ∈ (b.enrollStored S now faults memoryId content).1.index.enrolled) ∧
      ((b.enrollStored S now faults memoryId content).2 = [] →
        memoryId ∈ (b.enrollStored S now faults memoryId content).1.index.enrolled) := by
  have hmem := fun id' => @RecognitionIndex.mem_enrolled_enroll S.rc b.index memoryId id' content
    (faults.enroll memoryId)
  unfold enrollStored
  split
  · rename_i index u henroll
    rw [henroll] at hmem
    exact ⟨fun id hid => (hmem id).2 (Or.inl hid), fun _ => (hmem memoryId).2 (Or.inr ⟨rfl, rfl⟩)⟩
  · rename_i index e henroll
    rw [henroll] at hmem
    split
    · exact ⟨fun id hid => (hmem id).2 (Or.inl hid), nofun⟩
    · exact ⟨fun id hid => (hmem id).2 (Or.inl hid), nofun⟩

/-- The retries lose no marker. -/
theorem enrolled_drainEnrolmentRetries (S : BrainSetup) (faults : RecognitionFaults) (batch : ℕ)
    {id : String} (h : id ∈ b.index.enrolled) :
    id ∈ (b.drainEnrolmentRetries S faults batch).1.index.enrolled := by
  have hone : ∀ (acc : RecognitionIndex × ℕ) (id' : String), id ∈ acc.1.enrolled →
      id ∈ (b.retryOne S faults acc id').1.enrolled := by
    intro acc id' hid
    unfold retryOne
    dsimp only
    split
    · split <;> exact hid
    · rename_i memory _
      have hmem := (@RecognitionIndex.mem_enrolled_enroll S.rc acc.1 id' id memory.content
        (faults.enroll id')).2 (Or.inl hid)
      split
      · rename_i index u henroll
        rw [henroll] at hmem
        dsimp only
        split <;> exact hmem
      · rename_i index e henroll
        rw [henroll] at hmem
        exact hmem
  have hfold : ∀ (ids : List String) (acc : RecognitionIndex × ℕ), id ∈ acc.1.enrolled →
      id ∈ (ids.foldl (b.retryOne S faults) acc).1.enrolled := by
    intro ids
    induction ids with
    | nil => exact fun acc hid => hid
    | cons id' ids ih => exact fun acc hid => ih _ (hone acc id' hid)
  unfold drainEnrolmentRetries
  split
  · exact h
  · exact hfold _ (b.index, 0) h

/-- **A signature** without a warning is over the row as it is, and touches neither keys nor hashes
nor densities. -/
theorem signs_of_signStored (h : (b.signStored S now memoryId).2 = []) :
    (b.signStored S now memoryId).1.cached.store.HasMemory memoryId ∧
      (b.signStored S now memoryId).1.cached.store.memorySessions =
        b.cached.store.memorySessions ∧
      (∀ r ∈ b.cached.store.memories, ∃ r' ∈ (b.signStored S now memoryId).1.cached.store.memories,
        r'.key = r.key ∧ r'.contentHash = r.contentHash) ∧
      ∀ r' ∈ (b.signStored S now memoryId).1.cached.store.memories,
        (∃ r ∈ b.cached.store.memories, r.id = r'.id ∧
          r.declarativeDensity = r'.declarativeDensity) ∧
        (r'.id = memoryId → ∀ fields ∈ r'.signedFields,
          r'.sourceBrainId = some (S.identity.brainId S.env) ∧
            r'.signature = some (S.signature fields).toList) := by
  unfold signStored at h ⊢
  cases hread : b.getMemory memoryId with
  | none =>
    unfold readBack at h
    rw [hread] at h
    cases h
  | some stored =>
    obtain ⟨hstored, hid⟩ := Store.getMemory_eq_some.1 hread
    unfold readBack
    rw [hread]
    dsimp only
    cases hfields : stored.signedFields with
    | none =>
      refine ⟨⟨stored, hstored, hid⟩, rfl, fun r hr => ⟨r, hr, rfl, rfl⟩,
        fun r hr => ⟨⟨r, hr, rfl, rfl⟩, ?_⟩⟩
      intro hrid fields hrfields
      obtain rfl : r = stored := Store.eq_of_id hr hstored (hrid.trans hid.symm)
      rw [hfields] at hrfields
      cases hrfields
    | some fields =>
      dsimp only
      rw [store_signAs]
      refine ⟨⟨_, Store.mem_memories_setSignature.2 ⟨stored, hstored, rfl⟩, ?_⟩, rfl, ?_, ?_⟩
      · rw [if_pos hid]
        exact hid
      · intro r hr
        refine ⟨_, Store.mem_memories_setSignature.2 ⟨r, hr, rfl⟩, ?_⟩
        split <;> exact ⟨rfl, rfl⟩
      · intro r' hr'
        obtain ⟨r, hr, rfl⟩ := Store.mem_memories_setSignature.1 hr'
        by_cases hrid : r.id = memoryId
        · -- it is the row that was read back
          obtain rfl : r = stored := Store.eq_of_id hr hstored (hrid.trans hid.symm)
          rw [if_pos hrid]
          refine ⟨⟨r, hr, rfl, rfl⟩, fun _ fields' hfields' => ?_⟩
          obtain rfl : fields = fields' := Option.some.inj (hfields.symm.trans hfields')
          exact ⟨rfl, rfl⟩
        · rw [if_neg hrid]
          exact ⟨⟨r, hr, rfl, rfl⟩, fun hid' => absurd hid' hrid⟩

/-- **Density and signature** settle a memory with its hash and its session, for every index that
has it. -/
theorem settled_signStored {sessionId : Option String} {ix : RecognitionIndex}
    (hhashed : ∃ r ∈ b.cached.store.memories, r.key = key ∧ r.contentHash =
      some (S.env.contentHash (cleanMemoryContextPrefixes S.en.isWhitespace content)))
    (hsession : ∀ id ∈ sessionId.filter fun id => id ≠ "",
      b.cached.store.memorySessions.Clashes ⟨S.env.keyToId key, id⟩)
    (hwarnings : ((b.applyStore S ⟨.setDeclarativeDensity (S.env.keyToId key)
      (S.declarativeDensity content), now⟩).signStored S now (S.env.keyToId key)).2 = [])
    (henrolled : S.env.keyToId key ∈ ix.enrolled) :
    Settled S { ((b.applyStore S ⟨.setDeclarativeDensity (S.env.keyToId key)
      (S.declarativeDensity content), now⟩).signStored S now (S.env.keyToId key)).1 with index := ix }
        key content sessionId := by
  obtain ⟨hstored, hsessions, hforward, hback⟩ := signs_of_signStored hwarnings
  refine ⟨?_, hstored, fun id hid => ?_, ?_, fun r' hr' => (hback r' hr').2, henrolled⟩
  · obtain ⟨r, hr, hkey, hhash⟩ := hhashed
    have hdense := (@Store.mem_memories_setDeclarativeDensity b.cached.store (S.env.keyToId key)
      (S.declarativeDensity content) _).2 ⟨r, hr, rfl⟩
    obtain ⟨r', hr', hkey', hhash'⟩ := hforward _ hdense
    refine ⟨r', hr', hkey'.trans ?_, hhash'.trans ?_⟩
    · split <;> exact hkey
    · split <;> exact hhash
  · dsimp only
    rw [hsessions]
    exact hsession id hid
  · intro r' hr' hid'
    obtain ⟨⟨r, hr, hid, hdensity⟩, -⟩ := hback r' hr'
    obtain ⟨r, -, rfl⟩ := Store.mem_memories_setDeclarativeDensity.1 hr
    rw [← hdensity]
    by_cases hrid : r.id = S.env.keyToId key
    · rw [if_pos hrid]
    · rw [if_neg hrid] at hid
      exact absurd (hid.trans hid') hrid

/-- **Feedback, enrolment and retries** keep what is settled, and the enrolment leaves the marker. -/
theorem settled_deriveIndex {memory : Memory} {outcome : WriteOutcome} {warnings : List String}
    {sessionId : Option String} (hid : memory.id = S.env.keyToId key)
    (h : ∀ ix : RecognitionIndex, S.env.keyToId key ∈ ix.enrolled →
      Settled S { b with index := ix } key content sessionId)
    (hwarnings : (b.deriveIndex S now faults memory content outcome fingerprints
      warnings).2.derivationWarnings = []) :
    (b.deriveIndex S now faults memory content outcome fingerprints warnings).1.Settled S key content
      sessionId := by
  unfold deriveIndex at hwarnings ⊢
  dsimp only at hwarnings ⊢
  rw [hid] at hwarnings ⊢
  obtain ⟨hrows, hsessions, -⟩ := @unscored_feedRecurrence L S now faults b content
    (S.env.keyToId key) outcome
  generalize (b.feedRecurrence S now faults (S.env.keyToId key) content outcome).1 = fed at *
  have hmarked := enrolled_drainEnrolmentRetries S faults enrolmentRetryBatch
    (enrolled_enrollStored.2 (List.append_eq_nil_iff.1 hwarnings).2)
  refine (h _ hmarked).congr ?_ ?_ fun id hid => hid
  · rw [cached_drainEnrolmentRetries, cached_enrollStored]
    exact hrows
  · rw [cached_drainEnrolmentRetries, cached_enrollStored]
    exact hsessions

/-- **A write** that returns without a warning leaves its memory settled. -/
theorem settled_of_remember {result : RememberResult}
    (h : b.remember S now since faults key content opts fingerprints = (b', .ok result))
    (hwarnings : result.derivationWarnings = []) : b'.Settled S key content opts.sessionId := by
  unfold remember at h
  split at h
  · cases h
  · rename_i written memory outcome hwritten
    split at h
    · cases h
    · rename_i joined hjoin
      obtain ⟨hid, hkey, s, -, hrows⟩ := exists_written_of_ingest hwritten
      have hsession := clashes_of_associateSession hjoin
      rw [hid] at hsession
      have hhashed : ∃ r ∈ joined.cached.store.memories, r.key = key ∧ r.contentHash =
          some (S.env.contentHash (cleanMemoryContextPrefixes S.en.isWhitespace content)) := by
        rw [memories_of_associateSession hjoin]
        refine ⟨_, (hrows.mem_memories _).2 (Or.inr rfl), ?_, ?_⟩
        · rw [Env.key_writtenRow, hkey]
        · rw [Env.contentHash_writtenRow_eq, content_of_ingest hwritten]
      obtain ⟨rfl, hresult⟩ := Prod.mk.inj h
      obtain rfl := Except.ok.inj hresult
      have hsigned : ((joined.applyStore S ⟨.setDeclarativeDensity (S.env.keyToId key)
          (S.declarativeDensity content), now⟩).signStored S now (S.env.keyToId key)).2 = [] := by
        rw [← hid]
        exact (List.append_eq_nil_iff.1 hwarnings).1
      refine settled_deriveIndex hid (fun ix hix => ?_) hwarnings
      rw [hid]
      exact settled_signStored hhashed hsession hsigned hix

/-! ## The replay -/

/-- A write of a text whose hash is stored writes nothing. -/
theorem writeMemoryInTx_of_hashed {env : Env} {s : Store} {memory : Memory}
    (h : ∃ r ∈ s.memories, r.key = memory.key ∧
      r.contentHash = some (env.contentHash memory.content)) :
    env.writeMemoryInTx now s memory fingerprints = .ok (s, .noOp) := by
  obtain ⟨r, hr, hkey, hhash⟩ := h
  have hsame : env.effectiveHash r = env.contentHash memory.content := by
    unfold Env.effectiveHash
    rw [hhash, Option.getD_some]
  unfold Env.writeMemoryInTx
  rw [Store.memoryByKey_eq_some.2 ⟨hr, hkey⟩]
  dsimp only
  rw [if_pos hsame, Store.updateMemories_eq_self]
  intro r' hr' hboth
  -- no row under the key is without a hash
  simp only [Bool.and_eq_true, decide_eq_true_iff] at hboth
  rw [Store.eq_of_key hr' hr (hboth.1.trans hkey.symm), hhash] at hboth
  cases hboth.2

/-- The pipeline touches the episodes only. -/
theorem exists_episodes_prepareIngest (S : BrainSetup) (now since : String) (s : Store)
    (id key content category visibility : String) (opts : IngestOpts) :
    ∃ episodes, (S.env.prepareIngest S.en.isWhitespace now since s id key content category visibility
      opts).1 = { s with episodes } := by
  unfold Env.prepareIngest Store.resolveEpisode
  dsimp only
  split <;> split <;> first | exact ⟨_, rfl⟩ | (split <;> exact ⟨_, rfl⟩)

/-- **The row write** of a settled memory changes the episodes. -/
theorem ingest_of_settled {sessionId : Option String} (h : b.Settled S key content sessionId) :
    ∃ written memory, b.ingest S now since (S.env.keyToId key) key content opts fingerprints =
        (written, .ok (memory, .noOp)) ∧
      memory.id = S.env.keyToId key ∧ written.index = b.index ∧
      ∃ episodes, written.cached.store = { b.cached.store with episodes } := by
  obtain ⟨episodes, hprepared⟩ := exists_episodes_prepareIngest S now since b.cached.store
    (S.env.keyToId key) key content "core" (visibilityToStr opts.visibility) opts.ingest
  have hcontent := @Env.content_prepareIngest S.env S.en.isWhitespace now since (S.env.keyToId key)
    key content "core" (visibilityToStr opts.visibility) b.cached.store opts.ingest
  have hwrite := @writeMemoryInTx_of_hashed now fingerprints S.env
    (S.env.prepareIngest S.en.isWhitespace now since b.cached.store (S.env.keyToId key) key content
      "core" (visibilityToStr opts.visibility) opts.ingest).1
    (S.env.prepareIngest S.en.isWhitespace now since b.cached.store (S.env.keyToId key) key content
      "core" (visibilityToStr opts.visibility) opts.ingest).2 (by
        rw [hprepared, hcontent]
        exact h.hashed)
  unfold ingest
  dsimp only
  rw [hwrite]
  refine ⟨_, _, rfl, rfl, rfl, episodes, ?_⟩
  unfold applyStore CachedStore.apply
  dsimp only [withStore, CachedStore.kept]
  rw [hwrite]
  exact hprepared

/-- A memory that has its session gets it again. -/
theorem associateSession_of_clashes {sessionId : Option String}
    (h : ∀ id ∈ sessionId.filter fun id => id ≠ "",
      b.cached.store.memorySessions.Clashes ⟨memoryId, id⟩) :
    ∃ joined, b.associateSession memoryId sessionId = .ok joined ∧
      joined.cached.store = b.cached.store ∧ joined.index = b.index := by
  unfold associateSession
  cases hid : sessionId.filter fun id => id ≠ "" with
  | none => exact ⟨b, rfl, rfl, rfl⟩
  | some id =>
    dsimp only
    unfold Store.associateMemorySession
    rw [if_pos (h id hid)]
    exact ⟨_, rfl, rfl, rfl⟩

/-- The retries go by the memories and the index. -/
theorem index_drainEnrolmentRetries_congr {batch : ℕ}
    (hmemories : b'.cached.store.memories = b.cached.store.memories) (hindex : b'.index = b.index) :
    (b'.drainEnrolmentRetries S faults batch).1.index =
      (b.drainEnrolmentRetries S faults batch).1.index := by
  have hone : b'.retryOne S faults = b.retryOne S faults := by
    funext acc id
    unfold retryOne getMemory Store.getMemory
    rw [hmemories]
  unfold drainEnrolmentRetries
  rw [hone, hindex]
  split
  · exact hindex
  · rfl

/-- An enrolment without a warning changes nothing where the marker is. -/
theorem index_enrollStored_of_enrolled (h : memoryId ∈ b.index.enrolled)
    (hwarnings : (b.enrollStored S now faults memoryId content).2 = []) :
    (b.enrollStored S now faults memoryId content).1.index = b.index := by
  unfold enrollStored RecognitionIndex.enroll at hwarnings ⊢
  rw [show b.index.isEnrolled memoryId = true from decide_eq_true h] at hwarnings ⊢
  cases hfault : faults.enroll memoryId with
  | none => rfl
  | some fault =>
    cases fault with
    | minhash => rfl
    | index e =>
      -- the queue is told, or it is not: there is a warning in both cases
      rw [hfault] at hwarnings
      dsimp only at hwarnings
      split at hwarnings <;> cases hwarnings

/-- **Density, signature and enrolment** of a settled memory, again. -/
theorem deriveFields_of_settled {sessionId : Option String} (h : b.Settled S key content sessionId)
    {memory : Memory} (hid : memory.id = S.env.keyToId key) :
    (b.deriveFields S now faults memory content .noOp fingerprints).1.cached.store =
        b.cached.store ∧
      (b.deriveFields S now faults memory content .noOp fingerprints).2.writeOutcome = .noOp ∧
      ((b.deriveFields S now faults memory content .noOp fingerprints).2.derivationWarnings = [] →
        (b.deriveFields S now faults memory content .noOp fingerprints).1.index =
          (b.drainEnrolmentRetries S faults enrolmentRetryBatch).1.index) := by
  have hdense : (b.applyStore S ⟨.setDeclarativeDensity (S.env.keyToId key)
      (S.declarativeDensity content), now⟩).cached.store = b.cached.store :=
    Store.setDeclarativeDensity_eq_self h.dense
  unfold deriveFields
  rw [hid]
  dsimp only
  generalize hdenseBrain : b.applyStore S ⟨.setDeclarativeDensity (S.env.keyToId key)
    (S.declarativeDensity content), now⟩ = dense
  have hindex : dense.index = b.index := by
    rw [← hdenseBrain]
    rfl
  rw [hdenseBrain] at hdense
  have hsigned : (dense.signStored S now (S.env.keyToId key)).1.cached.store = b.cached.store ∧
      (dense.signStored S now (S.env.keyToId key)).1.index = b.index := by
    unfold signStored
    split
    · rename_i fields hread
      refine ⟨?_, hindex⟩
      rw [store_signAs, hdense]
      refine Store.setSignature_eq_self fun r hr hrid => h.signed r hr hrid fields ?_
      -- the row with the id is the one that was read back
      unfold readBack at hread
      have hrow : dense.getMemory (S.env.keyToId key) = some r := by
        unfold getMemory
        rw [hdense]
        exact Store.getMemory_eq_some.2 ⟨hr, hrid⟩
      rw [hrow] at hread
      exact Except.ok.inj hread
    · exact ⟨hdense, hindex⟩
    · exact ⟨hdense, hindex⟩
  generalize dense.signStored S now (S.env.keyToId key) = signed at *
  have hfed : (signed.1.feedRecurrence S now faults (S.env.keyToId key) content .noOp) =
      (signed.1, none) := by
    unfold feedRecurrence
    rw [if_neg]
    exact fun hinserted => nomatch hinserted.2.1
  unfold deriveIndex
  dsimp only
  rw [hid, hfed]
  refine ⟨?_, rfl, fun hwarnings => ?_⟩
  · rw [cached_drainEnrolmentRetries, cached_enrollStored]
    exact hsigned.1
  · refine index_drainEnrolmentRetries_congr ?_ ?_
    · rw [cached_enrollStored, hsigned.1]
    · rw [index_enrollStored_of_enrolled _ (List.append_eq_nil_iff.1 hwarnings).2, hsigned.2]
      rw [hsigned.2]
      exact h.enrolled

/-- **The call again**, for a settled memory. -/
theorem replay_of_settled (h : b.Settled S key content opts.sessionId) :
    ∃ b' result, b.remember S now since faults key content opts fingerprints = (b', .ok result) ∧
      result.writeOutcome = .noOp ∧
      (∃ episodes, b'.cached.store = { b.cached.store with episodes }) ∧
      (result.derivationWarnings = [] →
        b'.index = (b.drainEnrolmentRetries S faults enrolmentRetryBatch).1.index) := by
  obtain ⟨written, memory, hwritten, hid, hindex, episodes, hstore⟩ :=
    @ingest_of_settled L S now since b key content opts fingerprints opts.sessionId h
  have hsettled : written.Settled S key content opts.sessionId := by
    refine h.congr ?_ ?_ fun id hmem => by rwa [hindex]
    · rw [hstore]
      rfl
    · rw [hstore]
  obtain ⟨joined, hjoin, hjoinStore, hjoinIndex⟩ := associateSession_of_clashes hsettled.session
  have hjoined : joined.Settled S key content opts.sessionId :=
    hsettled.congr (by rw [hjoinStore]) (by rw [hjoinStore]) fun id hmem => by rwa [hjoinIndex]
  obtain ⟨hderived, houtcome, hretried⟩ := @deriveFields_of_settled L S now faults joined key content
    fingerprints opts.sessionId hjoined memory hid
  refine ⟨(joined.deriveFields S now faults memory content .noOp fingerprints).1, _, ?_, houtcome,
    ⟨episodes, ?_⟩, fun hwarnings => ?_⟩
  · unfold remember
    rw [hwritten]
    dsimp only
    rw [hid, hjoin]
  · rw [hderived, hjoinStore, hstore]
  · rw [hretried hwarnings]
    refine index_drainEnrolmentRetries_congr ?_ (hjoinIndex.trans hindex)
    rw [hjoinStore, hstore]

/-- The call returned, and without a warning. -/
def Unwarned (returned : BrainState L × Except String RememberResult) : Prop :=
  returned.2.toOption.map RememberResult.derivationWarnings = some []

instance unwarnedDecidable (returned : BrainState L × Except String RememberResult) :
    Decidable (Unwarned returned) := inferInstanceAs (Decidable (_ = some []))

/-- **A write that comes again** reports that it did nothing.  All of the store but the episodes is
as it was, and the index is what the retries of the queue make of it. -/
theorem remember_again (S : BrainSetup) (b : BrainState L) (key content : String)
    (opts : RememberOpts) (now since : String) (faults : RecognitionFaults)
    (fingerprints : List Fingerprint)
    (h : Unwarned (b.remember S now since faults key content opts fingerprints))
    (now' since' : String) (faults' : RecognitionFaults) (fingerprints' : List Fingerprint) :
    let b' := (b.remember S now since faults key content opts fingerprints).1
    let again := b'.remember S now' since' faults' key content opts fingerprints'
    again.2.toOption.map RememberResult.writeOutcome = some .noOp ∧
      again.1.cached.store = { b'.cached.store with episodes := again.1.cached.store.episodes } ∧
      (Unwarned again →
        again.1.index = (b'.drainEnrolmentRetries S faults' enrolmentRetryBatch).1.index ∧
          (b'.index.pending.rows = [] → again.1.index = b'.index)) := by
  intro b' again
  obtain ⟨result, hresult, hwarnings⟩ := Option.map_eq_some_iff.1 h
  have hok : b.remember S now since faults key content opts fingerprints = (b', .ok result) := by
    refine Prod.ext rfl ?_
    cases hreturned : (b.remember S now since faults key content opts fingerprints).2 with
    | error e =>
      rw [hreturned] at hresult
      cases hresult
    | ok result' =>
      rw [hreturned] at hresult
      cases hresult
      rfl
  obtain ⟨b'', result', hagain, houtcome, ⟨episodes, hstore⟩, hindex⟩ :=
    @replay_of_settled L S now' since' faults' b' key content opts fingerprints'
      (settled_of_remember hok hwarnings)
  have hpair : again = (b'', .ok result') := hagain
  clear_value again
  subst hpair
  refine ⟨congrArg some houtcome, ?_, fun hunwarned => ?_⟩
  · dsimp only
    rw [hstore]
  · have hretried := hindex (Option.some.inj hunwarned)
    refine ⟨hretried, fun hpending => hretried.trans ?_⟩
    exact index_drainEnrolmentRetries hpending

/-! ## A note that is sent twice -/

/-- The digests of two keys and two texts. -/
def leaseEnv : Env := .ofRecords
  [(utf8 "relocation", 0xe588c15ed29d453f1a155b478503a4e144b56713fa3ee539388115e89b11ea34),
    (utf8 "I moved to Berlin.", 0x35893d04c9e2da05c38d768ae7a1a69088cc0506abad6bffefc293c9b0de813e),
    (utf8 "lease", 0xfc55f449ecb2ba9302df69e72d20802b6ba25e4f58b3b083de3b48955ac599da),
    (utf8 "The lease starts in May.",
      0x1e534a963d071340491ea0d65bcdc16af2ad8b75ce5f13afe3224b308f177f0d)] []

/-- A brain that knows them. -/
def leaseBrain : BrainSetup := { peer with env := leaseEnv }

/-- The first note cannot be enrolled. -/
def relocationFault : RecognitionFaults where
  enroll id := if id = leaseEnv.keyToId "relocation" then some (.index "disk full") else none

theorem remember_again_lease :
    let b' := ((opened wingCache).remember leaseBrain "2026-01-02 09:00:00" "2026-01-02 08:30:00" {}
      "lease" "The lease starts in May." {} []).1
    let again := b'.remember leaseBrain "2026-01-02 09:10:00" "2026-01-02 08:40:00" {} "lease"
      "The lease starts in May." {} []
    again.2.toOption.map RememberResult.writeOutcome = some .noOp ∧
      again.1.cached.store = { b'.cached.store with episodes := again.1.cached.store.episodes } ∧
      (Unwarned again →
        again.1.index = (b'.drainEnrolmentRetries leaseBrain {} enrolmentRetryBatch).1.index ∧
          (b'.index.pending.rows = [] → again.1.index = b'.index)) :=
  remember_again leaseBrain (opened wingCache) "lease" "The lease starts in May." {}
    "2026-01-02 09:00:00" "2026-01-02 08:30:00" {} [] (by decide +kernel) "2026-01-02 09:10:00"
    "2026-01-02 08:40:00" {} []

/-- **A note that is sent twice** is counted twice in its episode, which ends later, and the second
time a memory is enrolled whose enrolment had failed. -/
theorem replayed_note :
    let b := ((opened wingCache).remember leaseBrain "2026-01-02 08:50:00" "2026-01-02 08:20:00"
      relocationFault "relocation" "I moved to Berlin." {} []).1
    let first := b.remember leaseBrain "2026-01-02 09:00:00" "2026-01-02 08:30:00" relocationFault
      "lease" "The lease starts in May." {} []
    let again := first.1.remember leaseBrain "2026-01-02 09:10:00" "2026-01-02 08:40:00" {} "lease"
      "The lease starts in May." {} []
    Unwarned first ∧ Unwarned again ∧
      again.2.toOption.map RememberResult.writeOutcome = some .noOp ∧
      (first.1.cached.store.episodes.rows.map fun e => (e.memoryCount, e.endedAt)) =
        [(2, "2026-01-02 09:00:00")] ∧
      (again.1.cached.store.episodes.rows.map fun e => (e.memoryCount, e.endedAt)) =
        [(3, "2026-01-02 09:10:00")] ∧
      first.1.index.enrolled.rows = [leaseEnv.keyToId "lease"] ∧
      again.1.index.enrolled.rows = [leaseEnv.keyToId "lease", leaseEnv.keyToId "relocation"] := by
  decide +kernel

end BrainState

end Spectral
