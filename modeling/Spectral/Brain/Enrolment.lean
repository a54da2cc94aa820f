import Spectral.Recognition.History
import Spectral.Brain.Signing

/-!
# The recognition index and the memories

The index is to have the fingerprints of every memory, under its id, and nothing else.  An
enrolment is idempotent for each id, though, and the content of a memory is not final.

* `Recognizer.SamePrints` — two texts the index has the same rows for; an index that is right for
  the one is right for the other exactly then (`RecognitionIndex.holds_replaced_iff`).
* `BrainState.Enrolled` — the index is that of the ids and contents of the store.
* `KeepsEnrolled` — the calls that keep it so; `enrolled_iff` — a run has an index that is right
  throughout exactly when all of its calls are of this kind.
* `edited_note_stays_enrolled` — a note that is edited is recognized by its old text.

No operation of the index fails in these runs.
-/

namespace Spectral

open Spectral.Lib

/-! ## Texts with the same fingerprints -/

/-- The index has the same rows for both texts. -/
structure Recognizer.SamePrints (rc : Recognizer) (c c' : String) : Prop where
  pairs : ∀ f, f ∈ (rc.fingerprintStimulus c).pairHashes ↔ f ∈ (rc.fingerprintStimulus c').pairHashes
  grams : ∀ f, f ∈ (rc.fingerprintStimulus c).gramHashes ↔ f ∈ (rc.fingerprintStimulus c').gramHashes
  shingles : 0 < rc.minhashWeight → rc.shingleSet c = rc.shingleSet c'

theorem Recognizer.SamePrints.refl (rc : Recognizer) (c : String) : rc.SamePrints c c :=
  ⟨fun _ => Iff.rfl, fun _ => Iff.rfl, fun _ => rfl⟩

namespace RecognitionIndex

variable {rc : Recognizer} {ix : RecognitionIndex} {e e' : Enrolment} {id c c' : String}

/-- An enrolment without faults is that of the engine. -/
theorem enroll_none : (ix.enroll rc none id c).1 = RecognitionEngine.enroll rc ix id c := by
  unfold enroll RecognitionEngine.enroll
  dsimp only
  by_cases hid : ix.isEnrolled id = true
  · rw [if_pos hid]
    exact (if_pos hid).symm
  · rw [if_neg hid]
    refine Eq.trans ?_ (if_neg hid).symm
    by_cases hweight : 0 < rc.minhashWeight
    · rw [if_pos ⟨hweight, rfl⟩, if_pos hweight]
      rfl
    · rw [if_neg fun h => hweight h.1, if_neg hweight]
      rfl

theorem pending_enroll : (RecognitionEngine.enroll rc ix id c).pending = ix.pending := by
  unfold RecognitionEngine.enroll
  dsimp only
  split
  · rfl
  · split <;> rfl

/-- An id is enrolled with one text. -/
theorem eq_of_nodup_ids (h : (e.map Prod.fst).Nodup) (hc : (id, c) ∈ e) (hc' : (id, c') ∈ e) :
    c = c' :=
  (Prod.mk.inj (List.inj_on_of_nodup_map h hc hc' rfl)).2

/-- The rows of an enrolled text. -/
theorem RowsOf.mem_iff {hashesOf : String → List (UInt64 × String)}
    {t : Table FeatureRow (SameKey fun r => r)} (h : RowsOf hashesOf e t)
    (hnodup : (e.map Prod.fst).Nodup) (hc : (id, c) ∈ e) (f : UInt64 × String) :
    ⟨f.1, id, f.2⟩ ∈ t ↔ f ∈ hashesOf c := by
  rw [h]
  constructor
  · rintro ⟨⟨id', c'⟩, hp, rfl, hf⟩
    rwa [eq_of_nodup_ids hnodup hc hp]
  · exact fun hf => ⟨(id, c), hc, rfl, hf⟩

theorem mem_enrolledIds : id ∈ ix.enrolledIds ↔ id ∈ ix.enrolled := List.mem_insertionSort _

/-- An enrolment without faults leaves the marker. -/
theorem mem_enrolled_enroll_none {id' : String} :
    id' ∈ (ix.enroll rc none id c).1.enrolled ↔ id' ∈ ix.enrolled ∨ id' = id := by
  have hok : (ix.enroll rc none id c).2 = .ok () := by
    cases henroll : (ix.enroll rc none id c).2 with
    | ok _ => rfl
    | error e => cases enroll_eq_error_iff.1 henroll
  rw [mem_enrolled_enroll, hok]
  simp

/-- An id that is enrolled stays as it is. -/
theorem enroll_eq_self (h : Holds rc ix e) (hid : id ∈ e.map Prod.fst) :
    RecognitionEngine.enroll rc ix id c = ix :=
  if_pos (decide_eq_true ((h.enrolled id).2 hid))

/-- The same pairs. -/
theorem Holds.congr (h : Holds rc ix e) (hnodup : (e'.map Prod.fst).Nodup)
    (hsame : ∀ p, p ∈ e ↔ p ∈ e') : Holds rc ix e' where
  nodup := hnodup
  enrolled id := by
    rw [h.enrolled]
    simp only [List.mem_map, hsame]
  pairs r := by
    rw [h.pairs]
    simp only [hsame]
  grams r := by
    rw [h.grams]
    simp only [hsame]
  minhashSig r := by
    rw [h.minhashSig]
    simp only [hsame]
  minhashBands r := by
    rw [h.minhashBands]
    simp only [hsame]

/-- Two enrolments that an index is right for give an id texts with the same fingerprints. -/
theorem Holds.samePrints (h : Holds rc ix e) (h' : Holds rc ix e') (hc : (id, c) ∈ e)
    (hc' : (id, c') ∈ e') : rc.SamePrints c c' where
  pairs f := by rw [← h.pairs.mem_iff h.nodup hc f, ← h'.pairs.mem_iff h'.nodup hc' f]
  grams f := by rw [← h.grams.mem_iff h.nodup hc f, ← h'.grams.mem_iff h'.nodup hc' f]
  shingles hweight := by
    have hsig : ⟨id, rc.shingleSet c⟩ ∈ ix.minhashSig :=
      (h.minhashSig _).2 ⟨hweight, (id, c), hc, rfl, rfl⟩
    obtain ⟨-, ⟨id', c''⟩, hp, rfl, heq⟩ := (h'.minhashSig _).1 hsig
    rw [← eq_of_nodup_ids h'.nodup hp hc']
    exact heq.symm

/-- One text in place of another, of which the same is true. -/
theorem exists_replaced_iff {P : String → Prop} (hnodup : (e.map Prod.fst).Nodup)
    (hnodup' : (e'.map Prod.fst).Nodup) (hc : (id, c) ∈ e) (hc' : (id, c') ∈ e')
    (hsame : ∀ p : String × String, p.1 ≠ id → (p ∈ e ↔ p ∈ e')) (hP : P c ↔ P c') (id' : String) :
    (∃ p ∈ e, p.1 = id' ∧ P p.2) ↔ ∃ p ∈ e', p.1 = id' ∧ P p.2 := by
  by_cases hid : id' = id
  · subst hid
    constructor
    · rintro ⟨⟨_, c₀⟩, hp, rfl, hc₀⟩
      exact ⟨_, hc', rfl, hP.1 (eq_of_nodup_ids hnodup hp hc ▸ hc₀)⟩
    · rintro ⟨⟨_, c₀⟩, hp, rfl, hc₀⟩
      exact ⟨_, hc, rfl, hP.2 (eq_of_nodup_ids hnodup' hp hc' ▸ hc₀)⟩
  · refine exists_congr fun p => and_congr_left fun ⟨hp, _⟩ => hsame p ?_
    rw [hp]
    exact hid

/-- An index that is right for an enrolment is right for one that differs in one text exactly when
both texts have the same fingerprints. -/
theorem holds_replaced_iff (h : Holds rc ix e) (hnodup' : (e'.map Prod.fst).Nodup)
    (hc : (id, c) ∈ e) (hc' : (id, c') ∈ e')
    (hsame : ∀ p : String × String, p.1 ≠ id → (p ∈ e ↔ p ∈ e')) :
    Holds rc ix e' ↔ rc.SamePrints c c' := by
  refine ⟨fun h' => h.samePrints h' hc hc', fun hprints => ?_⟩
  have hreplaced : ∀ {P : String → Prop}, (P c ↔ P c') → ∀ id',
      (∃ p ∈ e, p.1 = id' ∧ P p.2) ↔ ∃ p ∈ e', p.1 = id' ∧ P p.2 := fun hP =>
    exists_replaced_iff h.nodup hnodup' hc hc' hsame hP
  refine ⟨hnodup', fun id' => ?_, fun r => ?_, fun r => ?_, fun r => ?_, fun r => ?_⟩
  · have hids := hreplaced (P := fun _ => True) Iff.rfl id'
    rw [h.enrolled]
    simpa only [List.mem_map, and_true] using hids
  · rw [h.pairs]
    exact hreplaced (P := fun c => (r.hash, r.label) ∈ (rc.fingerprintStimulus c).pairHashes)
      (hprints.pairs _) r.memoryId
  · rw [h.grams]
    exact hreplaced (P := fun c => (r.hash, r.label) ∈ (rc.fingerprintStimulus c).gramHashes)
      (hprints.grams _) r.memoryId
  · rw [h.minhashSig]
    exact and_congr_right fun hweight => hreplaced
      (P := fun c => rc.shingleSet c = r.sig) (by rw [hprints.shingles hweight]) r.memoryId
  · rw [h.minhashBands]
    exact and_congr_right fun hweight => hreplaced
      (P := fun c => r.bandHash ∈ rc.shingleSet c) (by rw [hprints.shingles hweight]) r.memoryId

end RecognitionIndex

/-! ## Ids, keys and contents -/

/-- The id, the key and the content of a row. -/
def MemoryRow.text (r : MemoryRow) : String × String × String := (r.id, r.key, r.content)

namespace Store

/-- The ids, keys and contents of the memories. -/
def texts (s : Store) : List (String × String × String) := s.memories.rows.map MemoryRow.text

/-- What is to be enrolled: every memory, with its content. -/
def contents (s : Store) : Enrolment := s.memories.rows.map fun r => (r.id, r.content)

variable {s s' : Store}

theorem contents_eq_of_texts (h : s'.texts = s.texts) : s'.contents = s.contents := by
  have hproj : ∀ s : Store, s.contents = s.texts.map fun t => (t.1, t.2.2) := by
    intro s
    simp [contents, texts, MemoryRow.text]
  rw [hproj, hproj, h]

theorem texts_of_memories_eq (h : s'.memories = s.memories) : s'.texts = s.texts := by
  rw [texts, texts, h]

/-- An update of other columns. -/
theorem texts_updateMemories {p : MemoryRow → Bool} {g : MemoryRow → MemoryRow}
    {hg : ∀ r, (g r).id = r.id ∧ (g r).key = r.key} (hcontent : ∀ r, (g r).content = r.content) :
    (s.updateMemories p g hg).texts = s.texts := by
  show (s.memories.rows.map _).map MemoryRow.text = _
  rw [List.map_map]
  refine List.map_congr_left fun r _ => ?_
  show MemoryRow.text (if p r then g r else r) = r.text
  split
  · simp [MemoryRow.text, (hg r).1, (hg r).2, hcontent r]
  · rfl

theorem mem_texts {id key content : String} : (id, key, content) ∈ s.texts ↔
    ∃ r ∈ s.memories, r.id = id ∧ r.key = key ∧ r.content = content := by
  simp [texts, MemoryRow.text]

theorem mem_contents {p : String × String} :
    p ∈ s.contents ↔ ∃ r ∈ s.memories, (r.id, r.content) = p := by
  simp [contents]

theorem mem_ids_contents {id : String} :
    id ∈ s.contents.map Prod.fst ↔ ∃ r ∈ s.memories, r.id = id := by
  simp [contents]

theorem nodup_contents (s : Store) : (s.contents.map Prod.fst).Nodup := by
  rw [contents, List.map_map, List.Nodup, List.pairwise_map]
  exact s.memories.unique.imp fun h heq => h (Or.inl heq)

end Store

/-! ## What the calls do -/

/-- The index is right for the memories: it has their ids and no others, and under each id the
fingerprints of the content. -/
def BrainState.Enrolled {L : WingCache} (S : BrainSetup) (b : BrainState L) : Prop :=
  RecognitionIndex.Holds S.rc b.index b.cached.store.contents

/-- What holds whatever the index has: the ids are made from the keys, and nothing is queued. -/
structure BrainState.Orderly {L : WingCache} (S : BrainSetup) (b : BrainState L) : Prop where
  ids : ∀ r ∈ b.cached.store.memories, r.id = S.env.keyToId r.key
  pending : b.index.pending.rows = []

namespace BrainState

variable {L : WingCache} {S : BrainSetup} {now since : String} {b b' : BrainState L}
  {key content memoryId : String}

/-- A step that leaves ids, keys and contents, and the queue. -/
structure Spares (b b' : BrainState L) : Prop where
  texts : b'.cached.store.texts = b.cached.store.texts
  index : b'.index = b.index

theorem Spares.refl (b : BrainState L) : Spares b b := ⟨rfl, rfl⟩

theorem Spares.trans {b'' : BrainState L} (h : Spares b b') (h' : Spares b' b'') : Spares b b'' :=
  ⟨h'.texts.trans h.texts, h'.index.trans h.index⟩

theorem orderly_of_texts (h : b.Orderly S) (htexts : b'.cached.store.texts = b.cached.store.texts)
    (hpending : b'.index.pending = b.index.pending) : b'.Orderly S := by
  refine ⟨fun r hr => ?_, by rw [hpending, h.pending]⟩
  have hmem : (r.id, r.key, r.content) ∈ b.cached.store.texts :=
    htexts ▸ Store.mem_texts.2 ⟨r, hr, rfl, rfl, rfl⟩
  obtain ⟨r', hr', hid, hkey, -⟩ := Store.mem_texts.1 hmem
  rw [← hid, ← hkey]
  exact h.ids r' hr'

theorem spares_density {density : ℚ} :
    Spares b (b.applyStore S ⟨.setDeclarativeDensity memoryId density, now⟩) := by
  refine ⟨?_, rfl⟩
  show (b.cached.store.setDeclarativeDensity memoryId density).texts = _
  refine Store.texts_updateMemories fun r => ?_
  rfl

theorem spares_signAs {fields : SignedFields} : Spares b (b.signAs S now memoryId fields) := by
  refine ⟨?_, rfl⟩
  rw [store_signAs]
  refine Store.texts_updateMemories fun r => ?_
  rfl

theorem spares_signStored : Spares b (b.signStored S now memoryId).1 := by
  unfold signStored
  split
  · exact spares_signAs
  · exact .refl b
  · exact .refl b

theorem spares_feedRecurrence {outcome : WriteOutcome} {faults : RecognitionFaults} :
    Spares b (b.feedRecurrence S now faults memoryId content outcome).1 := by
  have hreinforce : ∀ priorKey strength,
      Spares b (b.applyStore S ⟨.reinforceMemory priorKey strength, now⟩) := by
    intro priorKey strength
    refine ⟨?_, rfl⟩
    show ((b.cached.store.reinforceMemory now priorKey strength).1).texts = _
    dsimp only [Store.reinforceMemory]
    refine Store.texts_updateMemories fun r => ?_
    rfl
  unfold feedRecurrence
  split
  · dsimp only
    split
    · split
      · split
        · exact hreinforce _ _
        · exact .refl b
      · exact .refl b
    · exact .refl b
  · exact .refl b

theorem index_enrollStored : (b.enrollStored S now {} memoryId content).1.index =
    RecognitionEngine.enroll S.rc b.index memoryId content := by
  have herror := @RecognitionIndex.enroll_eq_error_iff S.rc b.index memoryId content none
  unfold enrollStored
  rw [← RecognitionIndex.enroll_none]
  split
  · rename_i index _ henroll
    rw [henroll]
  · rename_i index e henroll
    rw [henroll] at herror
    exact absurd (herror.1 rfl) nofun

/-- With an empty queue there is nothing to retry. -/
theorem index_drainEnrolmentRetries (h : b.index.pending.rows = []) {faults : RecognitionFaults}
    {batch : ℕ} : (b.drainEnrolmentRetries S faults batch).1.index = b.index := by
  have hnone : b.index.pendingIds batch = [] := by simp [RecognitionIndex.pendingIds, h]
  unfold drainEnrolmentRetries
  rw [hnone]
  split <;> rfl

/-- The enrolment of the written memory. -/
theorem deriveFields_enrolls (h : b.index.pending.rows = []) {memory : Memory}
    {outcome : WriteOutcome} {fingerprints : List Fingerprint} :
    (b.deriveFields S now {} memory content outcome fingerprints).1.cached.store.texts =
        b.cached.store.texts ∧
      (b.deriveFields S now {} memory content outcome fingerprints).1.index =
        RecognitionEngine.enroll S.rc b.index memory.id content := by
  unfold deriveFields deriveIndex
  dsimp only
  generalize hfed : ((b.applyStore S ⟨.setDeclarativeDensity memory.id
    (S.declarativeDensity content), now⟩).signStored S now memory.id).1.feedRecurrence S now {}
      memory.id content outcome = fed
  have hspares : Spares b fed.1 :=
    hfed ▸ (spares_density.trans spares_signStored).trans spares_feedRecurrence
  refine ⟨?_, ?_⟩
  · rw [cached_drainEnrolmentRetries, cached_enrollStored, hspares.texts]
  · have hpending : fed.1.index.pending.rows = [] := by rw [hspares.index, h]
    rw [index_drainEnrolmentRetries, index_enrollStored, hspares.index]
    rw [index_enrollStored, RecognitionIndex.pending_enroll]
    exact hpending

/-! ## The calls -/

end BrainState

/-- A write, a forget or a repair, no operation of the index failing. -/
inductive EnrolmentCall where
  | remember (now since key content : String) (opts : RememberOpts)
    (fingerprints : List Fingerprint)
  | forget (now : String) (recallFault : Option String) (key : String)
  | repairDerivations (now : String) (limit : ℕ)

namespace BrainState

section

variable {L : WingCache} (S : BrainSetup) (b : BrainState L)

/-- What one call leaves. -/
def perform : EnrolmentCall → BrainState L
  | .remember now since key content opts fingerprints =>
    (b.remember S now since {} key content opts fingerprints).1
  | .forget now recallFault key => (b.forget S now {} recallFault key).1
  | .repairDerivations now limit => (b.repairDerivations S now {} limit).1

/-- The text that is enrolled under the id of the key after a write: the one that comes in under a
new key, and the one that is there under another. -/
def enrolledText (key content : String) : String :=
  match b.cached.store.memoryByKey key with
  | none => content
  | some r => r.content

/-- The text that is stored under the key after a write. -/
def storedText (key content : String) : String :=
  let cleaned := cleanMemoryContextPrefixes S.en.isWhitespace content
  match b.cached.store.memoryByKey key with
  | none => cleaned
  | some r => if S.env.effectiveHash r = S.env.contentHash cleaned then r.content else cleaned

/-- **The condition.**  A write enrolls what it stores; a forget finds no memory of another key
under the id of its key; and a repair that prunes has walked over every memory. -/
def KeepsEnrolled : EnrolmentCall → Prop
  | .remember now since key content opts fingerprints =>
    (b.ingest S now since (S.env.keyToId key) key content opts fingerprints).2.isOk = true →
      S.rc.SamePrints (b.enrolledText key content) (b.storedText S key content)
  | .forget _ _ key => ∀ r ∈ b.cached.store.memories, r.id = S.env.keyToId key → r.key = key
  | .repairDerivations _ limit =>
    (b.cached.store.memories.countWhere fun r => decide (0 ≤ r.signalScore)) < limit →
      ∀ r ∈ b.cached.store.memories, 0 ≤ r.signalScore

end

variable {L : WingCache} {S : BrainSetup} {now since : String} {b b' : BrainState L}
  {key content : String} {opts : RememberOpts} {fingerprints : List Fingerprint}

/-! ## A write -/

/-- The memory of the pipeline has the cleaned text. -/
theorem content_of_ingest {memoryId : String} {memory : Memory} {outcome : WriteOutcome}
    (h : b.ingest S now since memoryId key content opts fingerprints =
      (b', .ok (memory, outcome))) :
    memory.content = cleanMemoryContextPrefixes S.en.isWhitespace content := by
  unfold ingest at h
  dsimp only at h
  split at h
  · cases h
    exact Env.content_prepareIngest
  · cases h

theorem index_of_ingest {memoryId : String} :
    (b.ingest S now since memoryId key content opts fingerprints).1.index = b.index := by
  unfold ingest
  dsimp only
  split
  · dsimp only [applyStore, withStore]
  · dsimp only [withStore]

theorem spares_associateSession {memoryId : String} {sessionId : Option String}
    (h : b.associateSession memoryId sessionId = .ok b') : Spares b b' := by
  unfold associateSession at h
  split at h
  · cases h
    exact .refl b
  · rename_i id _
    cases hjoin : b.cached.store.associateMemorySession memoryId id with
    | error e =>
      rw [hjoin] at h
      cases h
    | ok p =>
      rw [hjoin] at h
      cases h
      exact ⟨Store.texts_of_memories_eq (Store.memories_associateMemorySession hjoin), rfl⟩

/-- The session of a memory that is stored. -/
theorem exists_associated {memoryId : String} (h : b.cached.store.HasMemory memoryId)
    (sessionId : Option String) :
    ∃ joined : BrainState L, b.associateSession memoryId sessionId = .ok joined ∧
      Spares b joined := by
  cases hjoined : b.associateSession memoryId sessionId with
  | ok joined => exact ⟨joined, rfl, spares_associateSession hjoined⟩
  | error e =>
    unfold associateSession at hjoined
    split at hjoined
    · cases hjoined
    · unfold Store.associateMemorySession at hjoined
      rw [if_pos h] at hjoined
      split at hjoined <;> cases hjoined

/-- **One write**, of a memory that is stored: the store has what the pipeline leaves, and the
index the enrolment. -/
theorem remember_of_ingest {memory : Memory} {outcome : WriteOutcome}
    (hpending : b.index.pending.rows = [])
    (h : b.ingest S now since (S.env.keyToId key) key content opts fingerprints =
      (b', .ok (memory, outcome))) (hstored : b'.cached.store.HasMemory memory.id) :
    (b.remember S now since {} key content opts fingerprints).1.cached.store.texts =
        b'.cached.store.texts ∧
      (b.remember S now since {} key content opts fingerprints).1.index =
        RecognitionEngine.enroll S.rc b.index memory.id content := by
  have hindex : b'.index = b.index := by
    rw [← index_of_ingest (S := S) (b := b), h]
  obtain ⟨joined, hjoined, hspares⟩ := exists_associated hstored opts.sessionId
  have hqueue : joined.index.pending.rows = [] := by rw [hspares.index, hindex, hpending]
  obtain ⟨htexts, henrolled⟩ :=
    @deriveFields_enrolls L S now joined content hqueue memory outcome fingerprints
  unfold remember
  rw [h]
  dsimp only
  rw [hjoined]
  dsimp only
  rw [htexts, henrolled, hspares.texts, hspares.index, hindex]
  exact ⟨rfl, rfl⟩

/-- A write that fails keeps texts and index. -/
theorem remember_of_ingest_error {e : String}
    (h : b.ingest S now since (S.env.keyToId key) key content opts fingerprints =
      (b', .error e)) :
    Spares b (b.remember S now since {} key content opts fingerprints).1 := by
  unfold remember
  rw [h]
  dsimp only
  refine ⟨Store.texts_of_memories_eq (memories_of_ingest_error h), ?_⟩
  rw [← index_of_ingest (S := S) (b := b), h]

/-- The text the written row has. -/
theorem content_writtenRow {s : Store} {memory : Memory}
    (hmemories : s.memories = b.cached.store.memories) (hkey : memory.key = key)
    (hcontent : memory.content = cleanMemoryContextPrefixes S.en.isWhitespace content) :
    (S.env.writtenRow now s memory).content = b.storedText S key content := by
  have hrow : s.memoryByKey memory.key = b.cached.store.memoryByKey key := by
    rw [Store.memoryByKey, Store.memoryByKey, hmemories, hkey]
  unfold Env.writtenRow storedText
  rw [hrow, ← hcontent]
  cases b.cached.store.memoryByKey key with
  | none => rfl
  | some r =>
    dsimp only
    split <;> rfl

/-- What the pipeline does to the ids and contents: the text under the id of the key. -/
structure Stores (S : BrainSetup) (b b' : BrainState L) (key content : String) : Prop where
  text : (S.env.keyToId key, b.storedText S key content) ∈ b'.cached.store.contents
  others : ∀ p : String × String, p.1 ≠ S.env.keyToId key →
    (p ∈ b.cached.store.contents ↔ p ∈ b'.cached.store.contents)
  fresh : b.cached.store.memoryByKey key = none →
    S.env.keyToId key ∉ b.cached.store.contents.map Prod.fst

/-- The written row has the id of its key. -/
theorem id_of_ingest (now : String) (hids : b.Orderly S) {memory : Memory} {s : Store}
    (hmemories : s.memories = b.cached.store.memories) (hid : memory.id = S.env.keyToId key)
    (hkey : memory.key = key) : (S.env.writtenRow now s memory).id = S.env.keyToId key := by
  rw [← hid]
  refine Env.id_writtenRow fun r hr hrkey => ?_
  rw [hids.ids r (hmemories ▸ hr), hrkey, hkey, hid]

theorem stores_of_ingest (hids : b.Orderly S) {memory : Memory} {outcome : WriteOutcome}
    (h : b.ingest S now since (S.env.keyToId key) key content opts fingerprints =
      (b', .ok (memory, outcome))) : Stores S b b' key content := by
  obtain ⟨hid, hkey, s, hmemories, hwritten⟩ := exists_written_of_ingest h
  have hrowid := id_of_ingest now hids hmemories hid hkey
  have hrow := (hwritten.mem_memories _).2 (Or.inr rfl)
  have hkept : ∀ r ∈ b.cached.store.memories, r.key ≠ key → r ∈ b'.cached.store.memories :=
    fun r hr hne => (hwritten.mem_memories r).2 (Or.inl ⟨hmemories ▸ hr, hkey ▸ hne⟩)
  -- a row under another key has another id than the written one
  have hother : ∀ r ∈ b.cached.store.memories, r.key ≠ key → r.id ≠ S.env.keyToId key := by
    intro r hr hne heq
    have hsame := Store.eq_of_id (hkept r hr hne) hrow (heq.trans hrowid.symm)
    exact hne ((congrArg MemoryRow.key hsame).trans ((Env.key_writtenRow ..).trans hkey))
  refine ⟨Store.mem_contents.2 ⟨_, hrow, ?_⟩, fun p hp => ?_, fun hnone hmem => ?_⟩
  · rw [hrowid, content_writtenRow hmemories hkey (content_of_ingest h)]
  · rw [Store.mem_contents, Store.mem_contents]
    constructor
    · rintro ⟨r, hr, rfl⟩
      refine ⟨r, hkept r hr fun heq => hp ?_, rfl⟩
      exact (hids.ids r hr).trans (congrArg _ heq)
    · rintro ⟨r, hr, rfl⟩
      rcases (hwritten.mem_memories r).1 hr with ⟨hr, -⟩ | rfl
      · exact ⟨r, hmemories ▸ hr, rfl⟩
      · exact absurd hrowid hp
  · obtain ⟨r, hr, hrid⟩ := Store.mem_ids_contents.1 hmem
    exact hother r hr (Store.memoryByKey_eq_none.1 hnone r hr) hrid

/-- The enrolment of a write: one text for the id, and the others as they were. -/
theorem exists_holds_enroll (hids : b.Orderly S) (h : b.Enrolled S)
    (hstores : Stores S b b' key content) :
    ∃ e, RecognitionIndex.Holds S.rc
        (RecognitionEngine.enroll S.rc b.index (S.env.keyToId key) content) e ∧
      (S.env.keyToId key, b.enrolledText key content) ∈ e ∧
      ∀ p : String × String, p.1 ≠ S.env.keyToId key →
        (p ∈ e ↔ p ∈ b'.cached.store.contents) := by
  unfold enrolledText
  cases hk : b.cached.store.memoryByKey key with
  | none =>
    refine ⟨_, RecognitionIndex.holds_enroll h (hstores.fresh hk) content, by simp, ?_⟩
    intro p hp
    rw [← hstores.others p hp, List.mem_append, List.mem_singleton, or_iff_left]
    rintro rfl
    exact hp rfl
  | some r =>
    obtain ⟨hr, hkey⟩ := Store.memoryByKey_eq_some.1 hk
    have hid : r.id = S.env.keyToId key := (hids.ids r hr).trans (congrArg _ hkey)
    have hmem : (S.env.keyToId key, r.content) ∈ b.cached.store.contents :=
      Store.mem_contents.2 ⟨r, hr, by rw [hid]⟩
    refine ⟨b.cached.store.contents, ?_, hmem, hstores.others⟩
    rw [RecognitionIndex.enroll_eq_self h (List.mem_map_of_mem hmem)]
    exact h

/-- **One write**: what is enrolled afterwards and what is stored differ at most in the text under
the id of the key. -/
theorem enrolled_remember_iff (hids : b.Orderly S) (h : b.Enrolled S) :
    (b.remember S now since {} key content opts fingerprints).1.Enrolled S ↔
      b.KeepsEnrolled S (.remember now since key content opts fingerprints) := by
  unfold KeepsEnrolled Enrolled
  dsimp only
  cases hingest : b.ingest S now since (S.env.keyToId key) key content opts fingerprints with
  | mk written result =>
    cases result with
    | error e =>
      have hspares := remember_of_ingest_error hingest
      rw [hspares.index, Store.contents_eq_of_texts hspares.texts]
      exact iff_of_true h fun hok => absurd hok Bool.false_ne_true
    | ok p =>
      obtain ⟨memory, outcome⟩ := p
      obtain ⟨hid, hkey, s, hmemories, hwritten⟩ := exists_written_of_ingest hingest
      have hstored : written.cached.store.HasMemory memory.id :=
        ⟨_, (hwritten.mem_memories _).2 (Or.inr rfl),
          (id_of_ingest now hids hmemories hid hkey).trans hid.symm⟩
      obtain ⟨htexts, hindex⟩ := remember_of_ingest hids.pending hingest hstored
      have hstores := stores_of_ingest hids hingest
      obtain ⟨e, hholds, htext, hothers⟩ := exists_holds_enroll hids h hstores
      rw [hindex, Store.contents_eq_of_texts htexts, hid, RecognitionIndex.holds_replaced_iff hholds
        (Store.nodup_contents _) htext hstores.text hothers]
      exact ⟨fun hprints _ => hprints, fun hprints => hprints rfl⟩

/-! ## A forget -/

theorem index_forget {recallFault : Option String} :
    (b.forget S now {} recallFault key).1.index = (b.index.forget (S.env.keyToId key)).1 := by
  rw [forget_spares.2, index_erase]
  exact if_neg Bool.false_ne_true

theorem mem_memories_forget {recallFault : Option String} {r : MemoryRow} :
    r ∈ (b.forget S now {} recallFault key).1.cached.store.memories ↔
      r ∈ b.cached.store.memories ∧ r.key ≠ key := by
  rw [forget_spares.1, Store.mem_memories_deleteMemoryByKey]

/-- **One forget** drops the entry under the id of the key, and the memory under the key. -/
theorem enrolled_forget_iff {recallFault : Option String} (hids : b.Orderly S)
    (h : b.Enrolled S) : (b.forget S now {} recallFault key).1.Enrolled S ↔
      b.KeepsEnrolled S (.forget now recallFault key) := by
  have hdropped := RecognitionIndex.holds_forget h (S.env.keyToId key)
  unfold Enrolled KeepsEnrolled
  rw [index_forget]
  constructor
  · intro hafter r hr hid
    by_contra hkey
    have hlive : r.id ∈
        (b.forget S now {} recallFault key).1.cached.store.contents.map Prod.fst :=
      Store.mem_ids_contents.2 ⟨r, mem_memories_forget.2 ⟨hr, hkey⟩, rfl⟩
    have hkept := (hdropped.enrolled r.id).1 ((hafter.enrolled r.id).2 hlive)
    exact (mem_ids_kept.1 hkept).2 hid
  · intro honly
    refine hdropped.congr (Store.nodup_contents _) fun p => ?_
    rw [List.mem_filter, Store.mem_contents, Store.mem_contents, decide_eq_true_iff]
    constructor
    · rintro ⟨⟨r, hr, rfl⟩, hid⟩
      refine ⟨r, mem_memories_forget.2 ⟨hr, fun hkey => hid ?_⟩, rfl⟩
      exact (hids.ids r hr).trans (congrArg _ hkey)
    · rintro ⟨r, hr, rfl⟩
      obtain ⟨hr, hkey⟩ := mem_memories_forget.1 hr
      exact ⟨⟨r, hr, rfl⟩, fun hid => hkey (honly r hr hid)⟩

/-! ## A repair -/

theorem spares_repairDensity {report : DerivationRepairReport} {memory : MemoryRow} :
    Spares b (b.repairDensity S now report memory).1 := by
  unfold repairDensity
  split
  · exact spares_density
  · exact .refl b

theorem spares_repairSignature {report : DerivationRepairReport} {memory : MemoryRow} :
    Spares b (b.repairSignature S now report memory).1 := by
  unfold repairSignature
  split
  · exact spares_signAs
  · exact .refl b

/-- **One memory** of the walk is enrolled already. -/
theorem exists_repairOne (now : String) (report : DerivationRepairReport) {memory : MemoryRow}
    (h : b.Enrolled S) (hmem : memory.id ∈ b.cached.store.contents.map Prod.fst) :
    ∃ b' report', b.repairOne S now {} report memory = (b', .ok report') ∧ Spares b b' ∧
      report'.scanned = report.scanned := by
  unfold repairOne
  dsimp only
  have hspares : Spares b ((b.repairDensity S now report memory).1.repairSignature S now
      (b.repairDensity S now report memory).2 memory).1 :=
    spares_repairDensity.trans spares_repairSignature
  have hscanned : ((b.repairDensity S now report memory).1.repairSignature S now
      (b.repairDensity S now report memory).2 memory).2.scanned = report.scanned :=
    scanned_repairSignature.trans scanned_repairDensity
  generalize (b.repairDensity S now report memory).1.repairSignature S now
    (b.repairDensity S now report memory).2 memory = signed at hspares hscanned ⊢
  have hindex : (signed.1.index.enroll S.rc none memory.id memory.content).1 = b.index := by
    rw [RecognitionIndex.enroll_none, hspares.index, RecognitionIndex.enroll_eq_self h hmem]
  have herror := @RecognitionIndex.enroll_eq_error_iff S.rc signed.1.index memory.id memory.content
    none
  split
  · rename_i index _ henroll
    rw [henroll] at hindex
    exact ⟨_, _, rfl, ⟨hspares.texts, hindex⟩, hscanned⟩
  · rename_i index e henroll
    rw [henroll] at herror
    exact absurd (herror.1 rfl) nofun

/-- **The walk** leaves texts and index. -/
theorem exists_repairWalk (now : String) (report : DerivationRepairReport)
    {memories : List MemoryRow} (h : b.Enrolled S)
    (hmem : ∀ memory ∈ memories, memory.id ∈ b.cached.store.contents.map Prod.fst) :
    ∃ b' report', b.repairWalk S now {} report memories = (b', .ok report') ∧ Spares b b' ∧
      report'.scanned = report.scanned := by
  induction memories generalizing b report with
  | nil => exact ⟨b, report, rfl, .refl b, rfl⟩
  | cons memory memories ih =>
    obtain ⟨hfirst, hrest⟩ := List.forall_mem_cons.1 hmem
    obtain ⟨b₁, report₁, hone, hspares, hscanned⟩ := exists_repairOne now report h hfirst
    have hcontents := Store.contents_eq_of_texts hspares.texts
    have hstill : b₁.Enrolled S := by
      unfold Enrolled
      rw [hspares.index, hcontents]
      exact h
    obtain ⟨b₂, report₂, hwalk, hspares', hscanned'⟩ := ih report₁ hstill (hcontents ▸ hrest)
    unfold repairWalk
    rw [hone]
    exact ⟨b₂, report₂, hwalk, hspares.trans hspares', hscanned'.trans hscanned⟩

/-- **The prune** keeps the entries of the ids that are live. -/
theorem holds_pruneOrphans {report : DerivationRepairReport} {live : List String} {e : Enrolment}
    (h : RecognitionIndex.Holds S.rc b.index e) :
    RecognitionIndex.Holds S.rc (b.pruneOrphans {} report live).1.index
      (e.filter fun p => decide (p.1 ∈ live)) := by
  have hfold : ∀ ids : List String,
      RecognitionIndex.Holds S.rc (ids.foldl pruneOne (b, report)).1.index
        (e.filter fun p => decide (p.1 ∉ ids)) := by
    intro ids
    induction ids using List.reverseRecOn with
    | nil => simpa using h
    | append_singleton ids id ih =>
      rw [List.foldl_append, List.foldl_cons, List.foldl_nil]
      have hone := RecognitionIndex.holds_forget ih id
      rw [List.filter_filter] at hone
      simpa [pruneOne, not_or, and_comm] using hone
  refine (hfold _).congr ?_ fun p => ?_
  · exact h.nodup.sublist (List.filter_sublist.map _)
  · have hin : p ∈ e → p.1 ∈ b.index.enrolledIds := fun hp =>
      (List.mem_insertionSort _).2 ((h.enrolled p.1).2 (List.mem_map_of_mem hp))
    simp only [List.mem_filter, decide_eq_true_iff, Bool.false_eq_true, if_false, Bool.not_false,
      Bool.and_true]
    grind

variable {limit : ℕ}

/-- The walk takes in every memory that scores, unless the limit cuts it short. -/
theorem mem_ids_repairScan (h : (b.repairScan S now limit).length < limit) {id : String} :
    id ∈ (b.repairScan S now limit).map MemoryRow.id ↔
      ∃ r ∈ b.cached.store.memories, 0 ≤ r.signalScore ∧ r.id = id := by
  have hids : (b.repairScan S now limit).map MemoryRow.id =
      (b.cached.store.listMemoriesBySignal 0 limit).map MemoryRow.id := by
    rw [repairScan_eq, List.map_map]
    refine List.map_congr_left fun r _ => ?_
    show MemoryRow.id (if r.contentHash = none then _ else r) = r.id
    split <;> rfl
  rw [repairScan_eq, List.length_map] at h
  rw [hids]
  simp only [List.mem_map, Store.mem_listMemoriesBySignal h, and_assoc]

theorem length_repairScan_lt_iff (now : String) : (b.repairScan S now limit).length < limit ↔
    (b.cached.store.memories.countWhere fun r => decide (0 ≤ r.signalScore)) < limit := by
  rw [repairScan_eq, List.length_map, Store.length_listMemoriesBySignal_lt_iff]

/-- A repair is its walk, and then its prune when the walk was not cut short. -/
theorem exists_repairDerivations (now : String) (limit : ℕ) (h : b.Enrolled S) :
    ∃ b' report, Spares b b' ∧ (b.repairDerivations S now {} limit).1 =
      if (b.repairScan S now limit).length < limit then
        (b'.pruneOrphans {} report ((b.repairScan S now limit).map MemoryRow.id)).1
      else b' := by
  have hhashed : Spares b (b.applyStore S ⟨.backfillContentHashes, now⟩) := by
    refine ⟨?_, rfl⟩
    show (b.cached.store.backfillContentHashes S.env).texts = _
    refine Store.texts_updateMemories fun r => ?_
    rfl
  have hcontents := Store.contents_eq_of_texts hhashed.texts
  have henrolled : (b.applyStore S ⟨.backfillContentHashes, now⟩).Enrolled S := by
    unfold Enrolled
    rw [hcontents]
    exact h
  have hscan : ∀ memory ∈ b.repairScan S now limit, memory.id ∈
      (b.applyStore S ⟨.backfillContentHashes, now⟩).cached.store.contents.map Prod.fst :=
    fun memory hmemory => Store.mem_ids_contents.2
      ⟨memory, Store.mem_of_mem_listMemoriesBySignal hmemory, rfl⟩
  obtain ⟨b', report, hwalk, hspares, hscanned⟩ := exists_repairWalk now
    { scanned := (b.repairScan S now limit).length
      contentHashesRepaired := b.cached.store.memories.countWhere fun r => r.contentHash = none }
    henrolled hscan
  refine ⟨b', report, hhashed.trans hspares, ?_⟩
  unfold repairDerivations
  dsimp only
  rw [hwalk]
  dsimp only
  rw [hscanned]
  split <;> rfl

/-- **One repair**: the prune leaves the entries of the memories the walk has seen. -/
theorem enrolled_repairDerivations_iff (h : b.Enrolled S) :
    (b.repairDerivations S now {} limit).1.Enrolled S ↔
      b.KeepsEnrolled S (.repairDerivations now limit) := by
  obtain ⟨b', report, hspares, hrepaired⟩ := exists_repairDerivations now limit h
  have hcontents := Store.contents_eq_of_texts hspares.texts
  unfold KeepsEnrolled Enrolled
  dsimp only
  rw [hrepaired, ← length_repairScan_lt_iff now]
  by_cases hlt : (b.repairScan S now limit).length < limit
  · rw [if_pos hlt, store_pruneOrphans, hcontents]
    have hwalked : RecognitionIndex.Holds S.rc b'.index b.cached.store.contents := by
      rw [hspares.index]
      exact h
    have hpruned := @holds_pruneOrphans L S b' report
      ((b.repairScan S now limit).map MemoryRow.id) _ hwalked
    constructor
    · intro hafter _ r hr
      have hstored : r.id ∈ b.cached.store.contents.map Prod.fst :=
        Store.mem_ids_contents.2 ⟨r, hr, rfl⟩
      have hkept := (hpruned.enrolled r.id).1 ((hafter.enrolled r.id).2 hstored)
      obtain ⟨p, hp, hid⟩ := List.mem_map.1 hkept
      have hlive := of_decide_eq_true (List.mem_filter.1 hp).2
      obtain ⟨r', hr', hscore, hid'⟩ := (mem_ids_repairScan hlt).1 hlive
      rwa [Store.eq_of_id hr' hr (hid'.trans hid)] at hscore
    · intro hall
      refine hpruned.congr (Store.nodup_contents _) fun p => ?_
      rw [List.mem_filter, decide_eq_true_iff, mem_ids_repairScan hlt, and_iff_left_iff_imp]
      intro hp
      obtain ⟨r, hr, rfl⟩ := Store.mem_contents.1 hp
      exact ⟨r, hr, hall hlt r hr, rfl⟩
  · rw [if_neg hlt, hspares.index, hcontents]
    exact iff_of_true h fun hlt' => absurd hlt' hlt

theorem pending_pruneOrphans {report : DerivationRepairReport} {live : List String} :
    (b.pruneOrphans {} report live).1.index.pending = b.index.pending := by
  unfold pruneOrphans
  generalize (if false = true then [] else b.index.enrolledIds).filter _ = ids
  induction ids using List.reverseRecOn with
  | nil => rfl
  | append_singleton ids id ih =>
    rw [List.foldl_append, List.foldl_cons, List.foldl_nil]
    exact ih

/-! ## Runs -/

theorem orderly_remember (hids : b.Orderly S) :
    (b.remember S now since {} key content opts fingerprints).1.Orderly S := by
  cases hingest : b.ingest S now since (S.env.keyToId key) key content opts fingerprints with
  | mk written result =>
    cases result with
    | error e =>
      have hspares := remember_of_ingest_error hingest
      exact orderly_of_texts hids hspares.texts (congrArg _ hspares.index)
    | ok p =>
      obtain ⟨memory, outcome⟩ := p
      obtain ⟨hid, hkey, s, hmemories, hwritten⟩ := exists_written_of_ingest hingest
      have hrowid := id_of_ingest now hids hmemories hid hkey
      have hindex : written.index = b.index := by
        rw [← index_of_ingest (S := S) (b := b), hingest]
      have hstored : written.cached.store.HasMemory memory.id :=
        ⟨_, (hwritten.mem_memories _).2 (Or.inr rfl), hrowid.trans hid.symm⟩
      obtain ⟨htexts, henrolled⟩ := remember_of_ingest hids.pending hingest hstored
      have hwrittenIds : written.Orderly S := by
        refine ⟨fun r hr => ?_, by rw [hindex, hids.pending]⟩
        rcases (hwritten.mem_memories r).1 hr with ⟨hr, -⟩ | rfl
        · exact hids.ids r (hmemories ▸ hr)
        · rw [hrowid, Env.key_writtenRow, hkey]
      refine orderly_of_texts hwrittenIds htexts ?_
      rw [henrolled, RecognitionIndex.pending_enroll, hindex]

theorem orderly_perform (hids : b.Orderly S) (h : b.Enrolled S) (call : EnrolmentCall) :
    (b.perform S call).Orderly S := by
  cases call with
  | remember now since key content opts fingerprints => exact orderly_remember hids
  | forget now recallFault key =>
    refine ⟨fun r hr => hids.ids r (mem_memories_forget.1 hr).1, ?_⟩
    show (b.forget S now {} recallFault key).1.index.pending.rows = []
    rw [index_forget]
    exact hids.pending
  | repairDerivations now limit =>
    obtain ⟨b', report, hspares, hrepaired⟩ := exists_repairDerivations now limit h
    show (b.repairDerivations S now {} limit).1.Orderly S
    rw [hrepaired]
    split
    · refine orderly_of_texts hids ?_ (pending_pruneOrphans.trans (congrArg _ hspares.index))
      rw [store_pruneOrphans, hspares.texts]
    · exact orderly_of_texts hids hspares.texts (congrArg _ hspares.index)

/-- **One call.** -/
theorem enrolled_perform_iff (hids : b.Orderly S) (h : b.Enrolled S) (call : EnrolmentCall) :
    (b.perform S call).Enrolled S ↔ b.KeepsEnrolled S call := by
  cases call with
  | remember now since key content opts fingerprints => exact enrolled_remember_iff hids h
  | forget now recallFault key => exact enrolled_forget_iff hids h
  | repairDerivations now limit => exact enrolled_repairDerivations_iff h

/-- **A run of calls** has an index that is right for the memories in every state it reaches exactly
when each of its calls keeps it so. -/
theorem enrolled_iff (S : BrainSetup) (L : WingCache) (calls : List EnrolmentCall) :
    (∀ past, past <+: calls → (run (perform S) (opened L) past).Enrolled S) ↔
      AllSteps (perform S) (KeepsEnrolled S) (opened L) calls := by
  have h0 : (opened L).Orderly S := ⟨fun r hr => absurd hr (Table.not_mem_empty r), rfl⟩
  have h0' : (opened L).Enrolled S := RecognitionIndex.holds_fresh
  exact (allSteps_iff_forall_past_of_invariant (J := Orderly S) (I := Enrolled S)
    (fun _ call hids h => orderly_perform hids h call)
    (fun _ call hids h => enrolled_perform_iff hids h call) h0 h0').symm

/-- The note is written, and edited under its key. -/
def writtenAndEdited : List EnrolmentCall :=
  [.remember "2026-01-03 09:00:00" "2026-01-03 08:30:00" "note" note.content {} [],
    .remember "2026-01-03 09:05:00" "2026-01-03 08:35:00" "note" editedNote.content {} []]

/-- **An edited note** is enrolled with its old text: a stimulus that is the new one is matched with
no feature of it. -/
theorem edited_note_stays_enrolled :
    let b := run (perform authorBrain) (opened wingCache) writtenAndEdited
    (∃ r ∈ b.cached.store.memories.rows, r.key = "note" ∧ r.content = editedNote.content) ∧
      b.index.pairs.rows.map FeatureRow.label = ["pair: monday~ship"] ∧
      ¬ b.Enrolled authorBrain := by
  intro b
  have hrow : ∃ r ∈ b.cached.store.memories.rows, r.key = "note" ∧
      r.content = editedNote.content := by decide +kernel
  have hpairs : b.index.pairs.rows.map FeatureRow.label = ["pair: monday~ship"] := by
    decide +kernel
  clear_value b
  refine ⟨hrow, hpairs, fun h => ?_⟩
  obtain ⟨r, hr, -, hcontent⟩ := hrow
  have hprint : ((0xcb6d2bfc1b0f29b5 : UInt64), "pair: ship~tuesday") ∈
      (authorBrain.rc.fingerprintStimulus r.content).pairHashes := by
    rw [hcontent]
    decide +kernel
  have hindexed : ⟨0xcb6d2bfc1b0f29b5, r.id, "pair: ship~tuesday"⟩ ∈ b.index.pairs :=
    (h.pairs _).2 ⟨(r.id, r.content), Store.mem_contents.2 ⟨r, hr, rfl⟩, rfl, hprint⟩
  have hlabel : "pair: ship~tuesday" ∈ b.index.pairs.rows.map FeatureRow.label :=
    List.mem_map_of_mem (f := FeatureRow.label) hindexed
  rw [hpairs] at hlabel
  simp at hlabel

end BrainState

end Spectral
