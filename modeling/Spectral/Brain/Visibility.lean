import Spectral.Brain.Cascade

/-!
# The visibility of what is remembered

`remember_with` takes a visibility, and a recall a visibility context.  The visibility is that
of a new memory: a write under a key that is there replaces the content of the row at most, and
leaves its other columns, the visibility with them.

* `Labelled` — the row under a key has a label; every step of a `remember` after the row write
  keeps it.
* `remember_visibility` — what the label is, and that no recall whose context it does not admit
  returns the memory.
* `edited_note_stays_visible` — a note for the team that is edited as a private one.
-/

namespace Spectral

open Spectral.Lib

/-- The labels are read back as they are written. -/
@[simp] theorem strToVis_visibilityToStr (v : Visibility) : strToVis (visibilityToStr v) = v := by
  cases v <;> rfl

/-- The label the row under a key has after a write with some visibility. -/
def Store.labelAfter (s : Store) (key : String) (v : Visibility) : String :=
  match s.memoryByKey key with
  | none => visibilityToStr v
  | some row => row.visibility

/-- The row under the key has the label. -/
def Store.Labelled (s : Store) (key label : String) : Prop :=
  ∃ r ∈ s.memories, r.key = key ∧ r.visibility = label

namespace Store

variable {s s' : Store} {key label : String}

theorem Labelled.of_memories_eq (h : s.Labelled key label) (hmemories : s'.memories = s.memories) :
    s'.Labelled key label := by
  obtain ⟨r, hr, hrow⟩ := h
  exact ⟨r, hmemories ▸ hr, hrow⟩

/-- An update of columns other than the visibility. -/
theorem Labelled.updateMemories (h : s.Labelled key label) {p : MemoryRow → Bool}
    {g : MemoryRow → MemoryRow} {hg : ∀ r, (g r).id = r.id ∧ (g r).key = r.key}
    (hvisibility : ∀ r, (g r).visibility = r.visibility) :
    (s.updateMemories p g hg).Labelled key label := by
  obtain ⟨r, hr, hkey, hlabel⟩ := h
  refine ⟨_, mem_memories_updateMemories.2 ⟨r, hr, rfl⟩, ?_, ?_⟩
  · split
    · exact (hg r).2.trans hkey
    · exact hkey
  · split
    · exact (hvisibility r).trans hlabel
    · exact hlabel

theorem Labelled.setDeclarativeDensity (h : s.Labelled key label) {memoryId : String} {density : ℚ} :
    (s.setDeclarativeDensity memoryId density).Labelled key label := by
  refine h.updateMemories fun r => ?_
  rfl

theorem Labelled.setSignature (h : s.Labelled key label) {memoryId : String} {source : Bytes32}
    {signature : List UInt8} : (s.setSignature memoryId source signature).Labelled key label := by
  refine h.updateMemories fun r => ?_
  rfl

theorem Labelled.reinforceMemory (h : s.Labelled key label) {now priorKey : String} {strength : ℚ} :
    (s.reinforceMemory now priorKey strength).1.Labelled key label := by
  dsimp only [Store.reinforceMemory]
  refine h.updateMemories fun r => ?_
  rfl

/-- **What is labelled so is not returned** where the label is not admitted. -/
theorem Labelled.not_admits (h : s.Labelled key label) {visibility : Visibility} {hit : MemoryHit}
    (hlabel : (strToVis label).allows visibility = false) (hadmits : s.Admits visibility hit) :
    hit.key ≠ key := by
  rintro rfl
  obtain ⟨r, hr, hkey, rfl⟩ := h
  obtain ⟨r', hr', -, hkey', -, hallows⟩ := hadmits
  rw [eq_of_key hr' hr (hkey'.symm.trans hkey.symm), hlabel] at hallows
  cases hallows

end Store

namespace BrainState

variable {L : WingCache} {S : BrainSetup} {now since : String} {faults : RecognitionFaults}
  {b b' : BrainState L} {key label memoryId content : String}

/-- The row write: a new row is labelled as asked for, and a row that is there keeps its label. -/
theorem labelled_of_ingest {opts : RememberOpts} {fingerprints : List Fingerprint} {memory : Memory}
    {outcome : WriteOutcome}
    (h : b.ingest S now since memoryId key content opts fingerprints = (b', .ok (memory, outcome))) :
    b'.cached.store.Labelled key (b.cached.store.labelAfter key opts.visibility) := by
  obtain ⟨-, hkey, s, hmemories, hwritten⟩ := exists_written_of_ingest h
  have hvisibility : memory.visibility = visibilityToStr opts.visibility := by
    unfold ingest at h
    dsimp only at h
    split at h
    · cases h
      exact Env.visibility_prepareIngest
    · cases h
  have hsame : s.memoryByKey key = b.cached.store.memoryByKey key := by
    unfold Store.memoryByKey
    rw [hmemories]
  refine ⟨_, (hwritten.mem_memories _).2 (Or.inr rfl), ?_, ?_⟩
  · rw [Env.key_writtenRow, hkey]
  · unfold Env.writtenRow Store.labelAfter
    rw [hkey, hsame]
    cases b.cached.store.memoryByKey key with
    | none => exact hvisibility
    | some row =>
      dsimp only
      split <;> rfl

theorem labelled_associateSession {sessionId : Option String}
    (h : b.cached.store.Labelled key label) (hjoin : b.associateSession memoryId sessionId = .ok b') :
    b'.cached.store.Labelled key label := by
  unfold associateSession at hjoin
  split at hjoin
  · cases hjoin
    exact h
  · rename_i id _
    cases hpairs : b.cached.store.associateMemorySession memoryId id with
    | error e => rw [hpairs] at hjoin; cases hjoin
    | ok p =>
      rw [hpairs] at hjoin
      cases hjoin
      exact h.of_memories_eq (Store.memories_associateMemorySession hpairs)

/-- What a `remember` does after the row write leaves every label, and the cache coherent. -/
structure Derives (b b' : BrainState L) : Prop where
  labelled : ∀ {key label}, b.cached.store.Labelled key label → b'.cached.store.Labelled key label
  coherent : b.cached.Coherent → b'.cached.Coherent

theorem Derives.refl : Derives b b := ⟨id, id⟩

theorem Derives.trans {b'' : BrainState L} (h : Derives b b') (h' : Derives b' b'') :
    Derives b b'' := ⟨fun hl => h'.labelled (h.labelled hl), fun hc => h'.coherent (h.coherent hc)⟩

theorem derives_signStored : Derives b (b.signStored S now memoryId).1 := by
  unfold signStored
  split
  · refine ⟨fun hl => ?_, fun hc => CachedStore.coherent_apply hc trivial⟩
    rw [store_signAs]
    exact hl.setSignature
  · exact .refl
  · exact .refl

theorem derives_feedRecurrence {outcome : WriteOutcome} :
    Derives b (b.feedRecurrence S now faults memoryId content outcome).1 := by
  unfold feedRecurrence
  split
  · dsimp only
    split
    · split
      · split
        · refine ⟨fun hl => ?_, fun hc => CachedStore.coherent_apply hc trivial⟩
          exact hl.reinforceMemory
        · exact .refl
      · exact .refl
    · exact .refl
  · exact .refl

/-- The cache is cleared with the density, and nothing after that spoils it. -/
theorem derives_deriveFields {memory : Memory} {outcome : WriteOutcome}
    {fingerprints : List Fingerprint} (h : b.cached.store.Labelled key label) :
    (b.deriveFields S now faults memory content outcome fingerprints).1.cached.store.Labelled key
        label ∧
      (b.deriveFields S now faults memory content outcome fingerprints).1.cached.Coherent := by
  unfold deriveFields deriveIndex
  dsimp only
  rw [cached_drainEnrolmentRetries, cached_enrollStored]
  generalize hdense : b.applyStore S
    ⟨.setDeclarativeDensity memory.id (S.declarativeDensity content), now⟩ = dense
  have hsigned : Derives dense (dense.signStored S now memory.id).1 := derives_signStored
  have hlabelled : dense.cached.store.Labelled key label := hdense ▸ h.setDeclarativeDensity
  have hcoherent : dense.cached.Coherent := hdense ▸ CachedStore.coherent_cleared
  exact ⟨derives_feedRecurrence.labelled (hsigned.labelled hlabelled),
    derives_feedRecurrence.coherent (hsigned.coherent hcoherent)⟩

/-- **The visibility of what is remembered.**  The memory is there; it has the visibility asked
for if the key is new, and otherwise the one it had; and no recall under a context that does not
admit that visibility returns it. -/
theorem remember_visibility (S : BrainSetup) (b : BrainState L) (now since : String)
    (faults : RecognitionFaults) (key content : String) (opts : RememberOpts)
    (fingerprints : List Fingerprint) {b' : BrainState L} {result : RememberResult}
    (h : b.remember S now since faults key content opts fingerprints = (b', .ok result)) :
    b'.cached.store.Labelled key (b.cached.store.labelAfter key opts.visibility) ∧
      ∀ q : ScopedRecall,
        (strToVis (b.cached.store.labelAfter key opts.visibility)).allows q.boundary = false →
          ∀ hit ∈ b'.recallScoped S q, hit.key ≠ key := by
  unfold remember at h
  split at h
  · cases h
  · rename_i written memory outcome hingest
    split at h
    · cases h
    · rename_i joined hjoin
      cases h
      have hjoined := labelled_associateSession (labelled_of_ingest hingest) hjoin
      obtain ⟨hlabelled, hcoherent⟩ := derives_deriveFields hjoined
      refine ⟨hlabelled, fun q hlabel hit hhit => ?_⟩
      exact hlabelled.not_admits hlabel (admits_of_mem_recallScoped hcoherent hhit)

/-! ## A note that is edited -/

/-- The note is remembered for the team. -/
def teamNote : BrainState wingCache :=
  ((opened wingCache).remember authorBrain "2026-01-03 09:00:00" "2026-01-03 08:30:00" {} "note"
    note.content { visibility := .team } []).1

/-- It is edited with another visibility. -/
def editedTo (v : Visibility) : BrainState wingCache × Except String RememberResult :=
  teamNote.remember authorBrain "2026-01-03 09:05:00" "2026-01-03 08:35:00" {} "note"
    editedNote.content { visibility := v } []

theorem remember_visibility_note :
    (editedTo .pub).1.cached.store.Labelled "note" "team" ∧
      ∀ q : ScopedRecall, (strToVis "team").allows q.boundary = false →
        ∀ hit ∈ (editedTo .pub).1.recallScoped authorBrain q, hit.key ≠ "note" := by
  have hok : (editedTo .pub).2.isOk = true := by decide +kernel
  have hlabel : teamNote.cached.store.labelAfter "note" .pub = "team" := by decide +kernel
  cases hresult : (editedTo .pub).2 with
  | error e => rw [hresult] at hok; cases hok
  | ok result =>
    have hpair : editedTo .pub = ((editedTo .pub).1, .ok result) := Prod.ext rfl hresult
    rw [← hlabel]
    exact remember_visibility authorBrain teamNote _ _ _ _ _ { visibility := .pub } [] hpair

/-- **An edited note stays with the team.**  The edit asks for a private note and succeeds, and
a recall for the team returns the new text. -/
theorem edited_note_stays_visible :
    (editedTo .priv).2.isOk = true ∧ Visibility.priv.allows .team = false ∧
      ∃ hit ∈ (editedTo .priv).1.recallScoped authorBrain
          (.recallAt {} "tuesday" .team "2026-01-03 09:06:00"),
        hit.key = "note" ∧ hit.content = editedNote.content := by
  decide +kernel

end BrainState

end Spectral
