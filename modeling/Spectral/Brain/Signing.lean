import Spectral.Lib.Threads
import Spectral.Brain.Forget

/-!
# Signed provenance under concurrent writes

`remember_with` writes a row, reads it back, and writes its signature over what it has read,
each under the connection lock and none under one with the others.  The state is a brain and
the calls under way; a step is one of these actions of one call.

* `verifyHit` — does the signature of a memory verify?
* `Tracked` — what holds between the steps: a row is signed as it is, or some call is still to
  sign it so, or some call has something to complain about.
* `tracked_step` — every step keeps it, under the condition `Timely` on the signature writes.
* `verifies_of_timely` — so when all calls have returned without a warning, every row verifies.
* `stale_signature_note` — a call that reads back before another one writes, and signs after it
  has signed.

What a call does after its signature is one step: it does not touch what is signed.
-/

namespace Spectral

open Spectral.Lib

/-- `Brain::verify_hit`. -/
def Env.verifyHit (env : Env) (hit : MemoryHit) (pubkey : VerifyingKey) : Bool :=
  match hit.sourceBrainId, hit.signature with
  | some sourceId, some bytes =>
    match toSignature bytes with
    | some sig =>
      env.verifyMemorySignature sourceId pubkey hit.key (env.contentHash hit.content) hit.createdAt
        hit.visibility sig
    | none => false
  | _, _ => false

/-- How far a `remember_with` is. -/
inductive RememberPhase where
  | write
  | associate (memory : Memory) (outcome : WriteOutcome)
  | density (memory : Memory) (outcome : WriteOutcome)
  | readBack (memory : Memory) (outcome : WriteOutcome)
  | sign (memory : Memory) (outcome : WriteOutcome) (fields : SignedFields)
  | finish (memory : Memory) (outcome : WriteOutcome) (warnings : List String)
  | returned (result : Except String RememberResult)

/-- A call of `remember_with`. -/
structure RememberCall where
  key : String
  content : String
  opts : RememberOpts
  fingerprints : List Fingerprint := []
  phase : RememberPhase := .write

/-- A brain shared by concurrent calls. -/
structure SharedBrain (L : WingCache) where
  brain : BrainState L
  calls : List RememberCall := []

/-- One action of one call. -/
inductive RememberStep where
  | remember (key content : String) (opts : RememberOpts) (fingerprints : List Fingerprint)
  | write (call : ℕ) (now since : String)
  | associate (call : ℕ)
  | density (call : ℕ) (now : String)
  | readBack (call : ℕ)
  | sign (call : ℕ) (now : String)
  | finish (call : ℕ) (now : String) (faults : RecognitionFaults)

namespace SharedBrain

section

variable {L : WingCache} (S : BrainSetup) (b : SharedBrain L)

/-- A call moves on, and leaves a brain. -/
def move (call : ℕ) (brain : BrainState L) (phase : RememberPhase) : SharedBrain L :=
  { brain, calls := b.calls.modify call fun c => { c with phase } }

/-- The row write of a call. -/
def write (call : ℕ) (now since : String) : SharedBrain L :=
  match b.calls[call]? with
  | some { key, content, opts, fingerprints, phase := .write } =>
    match b.brain.ingest S now since (S.env.keyToId key) key content opts fingerprints with
    | (brain, .ok (memory, outcome)) => b.move call brain (.associate memory outcome)
    | (brain, .error e) => b.move call brain (.returned (.error e))
  | _ => b

/-- The session of a call. -/
def associate (call : ℕ) : SharedBrain L :=
  match b.calls[call]? with
  | some { opts, phase := .associate memory outcome, .. } =>
    match b.brain.associateSession memory.id opts.sessionId with
    | .ok brain => b.move call brain (.density memory outcome)
    | .error e => b.move call b.brain (.returned (.error ("persist memory session: " ++ e)))
  | _ => b

/-- The density write of a call. -/
def density (call : ℕ) (now : String) : SharedBrain L :=
  match b.calls[call]? with
  | some { content, phase := .density memory outcome, .. } =>
    b.move call (b.brain.applyStore S
      ⟨.setDeclarativeDensity memory.id (S.declarativeDensity content), now⟩)
      (.readBack memory outcome)
  | _ => b

/-- The read-back of a call. -/
def readBack (call : ℕ) : SharedBrain L :=
  match b.calls[call]? with
  | some { phase := .readBack memory outcome, .. } =>
    match b.brain.readBack memory.id with
    | .ok (some fields) => b.move call b.brain (.sign memory outcome fields)
    | .ok none => b.move call b.brain (.finish memory outcome [])
    | .error e => b.move call b.brain (.finish memory outcome [e])
  | _ => b

/-- The signature write of a call. -/
def sign (call : ℕ) (now : String) : SharedBrain L :=
  match b.calls[call]? with
  | some { phase := .sign memory outcome fields, .. } =>
    b.move call (b.brain.signAs S now memory.id fields) (.finish memory outcome [])
  | _ => b

/-- What a call does last, and its return. -/
def finish (call : ℕ) (now : String) (faults : RecognitionFaults) : SharedBrain L :=
  match b.calls[call]? with
  | some { content, fingerprints, phase := .finish memory outcome warnings, .. } =>
    let derived := b.brain.deriveIndex S now faults memory content outcome fingerprints warnings
    b.move call derived.1 (.returned (.ok derived.2))
  | _ => b

/-- One step.  A step that is not enabled changes nothing. -/
def step : RememberStep → SharedBrain L
  | .remember key content opts fingerprints =>
    { b with calls := b.calls ++ [{ key, content, opts, fingerprints }] }
  | .write i now since => b.write S i now since
  | .associate i => b.associate i
  | .density i now => b.density S i now
  | .readBack i => b.readBack i
  | .sign i now => b.sign S i now
  | .finish i now faults => b.finish S i now faults

end

end SharedBrain

/-! ## What is still to come -/

/-- The call is still to sign the row as it is: it has the row to write, or to read back, or it
has read back what the row is. -/
def RememberCall.Covers (S : BrainSetup) (c : RememberCall) (r : MemoryRow) : Prop :=
  match c.phase with
  | .write => S.env.keyToId c.key = r.id
  | .associate memory _ | .density memory _ | .readBack memory _ => memory.id = r.id
  | .sign memory _ fields => memory.id = r.id ∧ r.signedFields = some fields
  | .finish .. | .returned _ => False

instance (S : BrainSetup) (c : RememberCall) (r : MemoryRow) : Decidable (c.Covers S r) := by
  unfold RememberCall.Covers
  split <;> infer_instance

/-- The call has returned an error, or has a warning to return. -/
def RememberCall.Complains (c : RememberCall) : Prop :=
  match c.phase with
  | .finish _ _ warnings => warnings ≠ []
  | .returned (.ok result) => result.derivationWarnings ≠ []
  | .returned (.error _) => True
  | _ => False

/-- The call has returned without a warning. -/
def RememberCall.Clean (c : RememberCall) : Prop :=
  match c.phase with
  | .returned (.ok result) => result.derivationWarnings = []
  | _ => False

instance (c : RememberCall) : Decidable c.Clean := by
  unfold RememberCall.Clean
  split <;> infer_instance

/-- The row has this brain's signature over what it is. -/
def BrainSetup.Signed (S : BrainSetup) (r : MemoryRow) : Prop :=
  r.sourceBrainId = some (S.identity.brainId S.env) ∧
    ∃ fields ∈ r.signedFields, r.signature = some (S.signature fields).toList

namespace SharedBrain

section

variable {L : WingCache} (S : BrainSetup) (b : SharedBrain L)

/-- All calls have returned without a warning. -/
def AllClean : Prop := ∀ c ∈ b.calls, c.Clean

instance : Decidable b.AllClean := inferInstanceAs (Decidable (∀ c ∈ b.calls, c.Clean))

/-- **The condition on a signature write.**  The row is what the call has read back, or another
call is still to sign it as it is. -/
def Timely : RememberStep → Prop
  | .sign call _ => ∀ c ∈ b.calls[call]?,
      match c.phase with
      | .sign memory _ fields => ∀ r ∈ b.brain.cached.store.memories.rows, r.id = memory.id →
          r.signedFields = some fields ∨ ∃ c' ∈ b.calls.eraseIdx call, c'.Covers S r
      | _ => True
  | _ => True

instance (a : RememberStep) : Decidable (b.Timely S a) := by
  cases a with
  | sign call now =>
    have : DecidablePred fun c : RememberCall => (match c.phase with
      | .sign memory _ fields => ∀ r ∈ b.brain.cached.store.memories.rows, r.id = memory.id →
          r.signedFields = some fields ∨ ∃ c' ∈ b.calls.eraseIdx call, c'.Covers S r
      | _ => True) := by
      intro c
      dsimp only
      split <;> infer_instance
    unfold Timely
    infer_instance
  | _ => exact isTrue trivial

/-- **What holds between the steps.**  A row has the id of its key and the hash of its content;
it is signed as it is, or some call is still to sign it so, or some call complains. -/
structure Tracked : Prop where
  ids : ∀ r ∈ b.brain.cached.store.memories, r.id = S.env.keyToId r.key
  hashes : ∀ r ∈ b.brain.cached.store.memories,
    r.contentHash = some (S.env.contentHash r.content)
  signed : ∀ r ∈ b.brain.cached.store.memories,
    S.Signed r ∨ (∃ c ∈ b.calls, c.Covers S r) ∨ ∃ c ∈ b.calls, c.Complains

end

end SharedBrain

/-! ## What is signed of a row -/

/-- The rows are one for a signature, and for who signed what. -/
structure MemoryRow.SameSigned (r r' : MemoryRow) : Prop where
  id : r'.id = r.id
  key : r'.key = r.key
  content : r'.content = r.content
  contentHash : r'.contentHash = r.contentHash
  createdAt : r'.createdAt = r.createdAt
  visibility : r'.visibility = r.visibility
  sourceBrainId : r'.sourceBrainId = r.sourceBrainId
  signature : r'.signature = r.signature

/-- Every row is a row of before, as far as signatures go. -/
def Store.KeepsSigned (s s' : Store) : Prop :=
  ∀ r' ∈ s'.memories, ∃ r ∈ s.memories, r.SameSigned r'

section

variable {S : BrainSetup} {s s' s'' : Store} {r r' : MemoryRow}

theorem MemoryRow.SameSigned.refl : r.SameSigned r := ⟨rfl, rfl, rfl, rfl, rfl, rfl, rfl, rfl⟩

theorem MemoryRow.SameSigned.signedFields (h : r.SameSigned r') :
    r'.signedFields = r.signedFields := by
  unfold MemoryRow.signedFields
  rw [h.key, h.contentHash, h.createdAt, h.visibility]

theorem MemoryRow.SameSigned.signed (h : r.SameSigned r') (hsigned : S.Signed r) : S.Signed r' := by
  unfold BrainSetup.Signed
  rw [h.sourceBrainId, h.signedFields, h.signature]
  exact hsigned

/-- Whether a call covers a row depends on its id and on what is signed of it. -/
theorem RememberCall.Covers.congr {c : RememberCall} (h : c.Covers S r) (hid : r'.id = r.id)
    (hfields : r'.signedFields = r.signedFields) : c.Covers S r' := by
  unfold RememberCall.Covers at h ⊢
  rwa [hid, hfields]

theorem keepsSigned_of_memories_eq (h : s'.memories = s.memories) : s.KeepsSigned s' :=
  fun r hr => ⟨r, h ▸ hr, .refl⟩

theorem Store.KeepsSigned.trans (h : s.KeepsSigned s') (h' : s'.memories = s''.memories) :
    s.KeepsSigned s'' := fun r hr => h r (h' ▸ hr)

/-- An update of other columns. -/
theorem keepsSigned_updateMemories {p : MemoryRow → Bool} {g : MemoryRow → MemoryRow}
    {hg : ∀ r, (g r).id = r.id ∧ (g r).key = r.key} (hsame : ∀ r : MemoryRow, r.SameSigned (g r)) :
    s.KeepsSigned (s.updateMemories p g hg) := by
  intro r' hr'
  obtain ⟨r, hr, rfl⟩ := Store.mem_memories_updateMemories.1 hr'
  refine ⟨r, hr, ?_⟩
  split
  · exact hsame r
  · exact .refl

theorem keepsSigned_reinforceMemory {now key : String} {strength : ℚ} :
    s.KeepsSigned (s.reinforceMemory now key strength).1 := by
  dsimp only [Store.reinforceMemory]
  refine keepsSigned_updateMemories fun r => ?_
  exact ⟨rfl, rfl, rfl, rfl, rfl, rfl, rfl, rfl⟩

theorem keepsSigned_setDeclarativeDensity {memoryId : String} {density : ℚ} :
    s.KeepsSigned (s.setDeclarativeDensity memoryId density) := by
  refine keepsSigned_updateMemories fun r => ?_
  exact ⟨rfl, rfl, rfl, rfl, rfl, rfl, rfl, rfl⟩

end

namespace BrainState

variable {L : WingCache} {S : BrainSetup} {now : String} {faults : RecognitionFaults}
  {b b' : BrainState L} {memoryId content : String} {memory : Memory} {outcome : WriteOutcome}

theorem keepsSigned_associateSession {sessionId : Option String}
    (h : b.associateSession memoryId sessionId = .ok b') :
    b.cached.store.KeepsSigned b'.cached.store := by
  unfold associateSession at h
  split at h
  · cases h
    exact keepsSigned_of_memories_eq rfl
  · rename_i id _
    cases hjoin : b.cached.store.associateMemorySession memoryId id with
    | error e => rw [hjoin] at h; cases h
    | ok p =>
      rw [hjoin] at h
      cases h
      exact keepsSigned_of_memories_eq (Store.memories_associateMemorySession hjoin)

theorem keepsSigned_feedRecurrence :
    b.cached.store.KeepsSigned
      (b.feedRecurrence S now faults memoryId content outcome).1.cached.store := by
  have hsame : b.cached.store.KeepsSigned b.cached.store := keepsSigned_of_memories_eq rfl
  unfold feedRecurrence
  split
  · dsimp only
    split
    · split
      · split
        · exact keepsSigned_reinforceMemory
        · exact hsame
      · exact hsame
    · exact hsame
  · exact hsame

theorem cached_enrollStored :
    (b.enrollStored S now faults memoryId content).1.cached = b.cached := by
  unfold enrollStored
  split
  · rfl
  · split <;> rfl

theorem cached_drainEnrolmentRetries {batch : ℕ} :
    (b.drainEnrolmentRetries S faults batch).1.cached = b.cached := by
  unfold drainEnrolmentRetries
  split <;> rfl

/-- What comes after the signature does not touch what is signed. -/
theorem keepsSigned_deriveIndex {fingerprints : List Fingerprint} {warnings : List String} :
    b.cached.store.KeepsSigned
      (b.deriveIndex S now faults memory content outcome fingerprints warnings).1.cached.store := by
  unfold deriveIndex
  dsimp only
  rw [cached_drainEnrolmentRetries, cached_enrollStored]
  exact keepsSigned_feedRecurrence

end BrainState

/-- **A signed row verifies**, when the key verifies what it signs. -/
theorem verifyHit_of_signed {S : BrainSetup} {r : MemoryRow}
    (hsig : ∀ msg, S.env.verifySig S.identity.verifyingKey msg (S.identity.sign msg) = true)
    (hhash : r.contentHash = some (S.env.contentHash r.content)) (h : S.Signed r) (hits : ℕ) :
    S.env.verifyHit (memoryHitFromRow hits r) S.identity.verifyingKey = true := by
  obtain ⟨hsource, fields, hfields, hsignature⟩ := h
  have hread : fields = ⟨r.key, S.env.contentHash r.content, r.createdAt, r.visibility⟩ := by
    unfold MemoryRow.signedFields at hfields
    rw [hhash] at hfields
    exact (Option.some.inj hfields).symm
  have hverify : S.env.verify (S.identity.brainId S.env) S.identity.verifyingKey
      (memorySigningPayloadV2 (S.identity.brainId S.env) r.key (S.env.contentHash r.content)
        r.createdAt r.visibility) (S.signature fields) = true := by
    unfold Env.verify BrainSetup.signature BrainIdentity.signMemory
    rw [if_neg (fun h => h rfl), hread]
    exact hsig _
  unfold Env.verifyHit memoryHitFromRow
  dsimp only
  rw [hsource, hsignature]
  dsimp only
  rw [toSignature_toList]
  dsimp only
  unfold Env.verifyMemorySignature
  rw [hverify, Bool.true_or]

namespace SharedBrain

variable {L : WingCache} {S : BrainSetup} {now since : String} {b : SharedBrain L}

/-! ## One step -/

/-- What is tracked of one row, when a call has moved on: it is signed, or the call still
covers it or complains, or it is as it was for the other calls. -/
theorem Tracked.of_move {i : ℕ} {c : RememberCall} {brain : BrainState L} {phase : RememberPhase}
    (hi : b.calls[i]? = some c)
    (hids : ∀ r ∈ brain.cached.store.memories, r.id = S.env.keyToId r.key)
    (hhashes : ∀ r ∈ brain.cached.store.memories,
      r.contentHash = some (S.env.contentHash r.content))
    (hsigned : ∀ r ∈ brain.cached.store.memories, S.Signed r ∨
      ({ c with phase } : RememberCall).Covers S r ∨ ({ c with phase } : RememberCall).Complains ∨
        (∃ x ∈ b.calls.eraseIdx i, x.Covers S r) ∨ ∃ x ∈ b.calls.eraseIdx i, x.Complains) :
    (b.move i brain phase).Tracked S where
  ids := hids
  hashes := hhashes
  signed r hr := by
    unfold move
    rw [exists_mem_modify_iff hi, exists_mem_modify_iff hi]
    rcases hsigned r hr with h | h | h | h | h
    · exact Or.inl h
    · exact Or.inr (Or.inl (Or.inl h))
    · exact Or.inr (Or.inr (Or.inl h))
    · exact Or.inr (Or.inl (Or.inr h))
    · exact Or.inr (Or.inr (Or.inr h))

/-- A step that keeps what is signed.  The call that makes it goes on to cover what it covered,
or complains. -/
theorem Tracked.of_keepsSigned (h : b.Tracked S) {i : ℕ} {c : RememberCall} {brain : BrainState L}
    {phase : RememberPhase} (hi : b.calls[i]? = some c)
    (hkeeps : b.brain.cached.store.KeepsSigned brain.cached.store)
    (hcovers : ∀ r ∈ b.brain.cached.store.memories, c.Covers S r →
      ({ c with phase } : RememberCall).Covers S r ∨ ({ c with phase } : RememberCall).Complains)
    (hcomplains : c.Complains → ({ c with phase } : RememberCall).Complains) :
    (b.move i brain phase).Tracked S := by
  refine .of_move hi (fun r' hr' => ?_) (fun r' hr' => ?_) fun r' hr' => ?_
  · obtain ⟨r, hr, hsame⟩ := hkeeps r' hr'
    rw [hsame.id, hsame.key]
    exact h.ids r hr
  · obtain ⟨r, hr, hsame⟩ := hkeeps r' hr'
    rw [hsame.contentHash, hsame.content]
    exact h.hashes r hr
  · obtain ⟨r, hr, hsame⟩ := hkeeps r' hr'
    have hcongr : ∀ x : RememberCall, x.Covers S r → x.Covers S r' :=
      fun x hx => hx.congr hsame.id hsame.signedFields
    rcases h.signed r hr with hsigned | hcov | hcomp
    · exact Or.inl (hsame.signed hsigned)
    · rcases (exists_mem_iff_at hi).1 hcov with hcov | ⟨x, hx, hcov⟩
      · rcases hcovers r hr hcov with hcov | hcomp
        · exact Or.inr (Or.inl (hcongr _ hcov))
        · exact Or.inr (Or.inr (Or.inl hcomp))
      · exact Or.inr (Or.inr (Or.inr (Or.inl ⟨x, hx, hcongr x hcov⟩)))
    · rcases (exists_mem_iff_at hi).1 hcomp with hcomp | hcomp
      · exact Or.inr (Or.inr (Or.inl (hcomplains hcomp)))
      · exact Or.inr (Or.inr (Or.inr (Or.inr hcomp)))

/-- The row write: the call covers the row it has written. -/
theorem tracked_write (h : b.Tracked S) (i : ℕ) (now since : String) :
    (b.write S i now since).Tracked S := by
  unfold write
  split
  · rename_i key content opts fingerprints hi
    split
    · rename_i brain memory outcome hwrite
      obtain ⟨hid, hkey, s, hmemories, hwritten⟩ := BrainState.exists_written_of_ingest hwrite
      have hrowId : (S.env.writtenRow now s memory).id = memory.id := by
        refine Env.id_writtenRow fun r hr hsame => ?_
        rw [hmemories] at hr
        rw [h.ids r hr, hsame, hkey, hid]
      have hrowHash : (S.env.writtenRow now s memory).contentHash =
          some (S.env.contentHash (S.env.writtenRow now s memory).content) :=
        Env.contentHash_writtenRow fun r hr => h.hashes r (hmemories ▸ hr)
      refine .of_move hi (fun r' hr' => ?_) (fun r' hr' => ?_) fun r' hr' => ?_
      all_goals rcases (hwritten.mem_memories r').1 hr' with ⟨hr, hother⟩ | rfl
      · exact h.ids r' (hmemories ▸ hr)
      · rw [hrowId, Env.key_writtenRow, hkey, hid]
      · exact h.hashes r' (hmemories ▸ hr)
      · exact hrowHash
      · rcases h.signed r' (hmemories ▸ hr) with hsigned | hcov | hcomp
        · exact Or.inl hsigned
        · rcases (exists_mem_iff_at hi).1 hcov with hcov | hcov
          · exact Or.inr (Or.inl (hid.trans hcov))
          · exact Or.inr (Or.inr (Or.inr (Or.inl hcov)))
        · rcases (exists_mem_iff_at hi).1 hcomp with hcomp | hcomp
          · exact hcomp.elim
          · exact Or.inr (Or.inr (Or.inr (Or.inr hcomp)))
      · exact Or.inr (Or.inl hrowId.symm)
    · rename_i brain e hwrite
      have hmemories := BrainState.memories_of_ingest_error hwrite
      exact h.of_keepsSigned hi (keepsSigned_of_memories_eq hmemories)
        (fun _ _ _ => Or.inr trivial) fun _ => trivial
  · exact h

theorem tracked_associate (h : b.Tracked S) (i : ℕ) : (b.associate i).Tracked S := by
  unfold associate
  split
  · rename_i hi
    split
    · rename_i brain hjoin
      exact h.of_keepsSigned hi (BrainState.keepsSigned_associateSession hjoin)
        (fun _ _ hcov => Or.inl hcov) id
    · exact h.of_keepsSigned hi (keepsSigned_of_memories_eq rfl) (fun _ _ _ => Or.inr trivial)
        fun _ => trivial
  · exact h

theorem tracked_density (h : b.Tracked S) (i : ℕ) (now : String) :
    (b.density S i now).Tracked S := by
  unfold density
  split
  · rename_i hi
    exact h.of_keepsSigned hi keepsSigned_setDeclarativeDensity (fun _ _ hcov => Or.inl hcov) id
  · exact h

/-- The read-back: what is read is what the row is. -/
theorem tracked_readBack (h : b.Tracked S) (i : ℕ) : (b.readBack i).Tracked S := by
  unfold readBack
  split
  · rename_i memory outcome hi
    have hkeeps : b.brain.cached.store.KeepsSigned b.brain.cached.store :=
      keepsSigned_of_memories_eq rfl
    -- what is read back of a row the call covers
    have hread : ∀ r ∈ b.brain.cached.store.memories, memory.id = r.id →
        b.brain.readBack memory.id = .ok r.signedFields := by
      intro r hr hid
      have hget : b.brain.getMemory memory.id = some r := Store.getMemory_eq_some.2 ⟨hr, hid.symm⟩
      unfold BrainState.readBack
      rw [hget]
    split
    · rename_i fields hfields
      refine h.of_keepsSigned hi hkeeps (fun r hr hcov => Or.inl ⟨hcov, ?_⟩) id
      rw [hread r hr hcov] at hfields
      exact Except.ok.inj hfields
    · rename_i hnone
      refine h.of_keepsSigned hi hkeeps (fun r hr hcov => ?_) False.elim
      rw [hread r hr hcov] at hnone
      have hhash := Except.ok.inj hnone
      unfold MemoryRow.signedFields at hhash
      rw [h.hashes r hr] at hhash
      cases hhash
    · exact h.of_keepsSigned hi hkeeps (fun _ _ _ => Or.inr (List.cons_ne_nil _ _)) False.elim
  · exact h

/-- The rows after a signature write. -/
theorem mem_memories_signAs {b : BrainState L} {memoryId : String} {fields : SignedFields}
    {r' : MemoryRow} :
    r' ∈ (b.signAs S now memoryId fields).cached.store.memories ↔
      ∃ r ∈ b.cached.store.memories, (if r.id = memoryId then
        { r with
          sourceBrainId := some (S.identity.brainId S.env)
          signature := some (S.signature fields).toList } else r) = r' := by
  rw [BrainState.store_signAs]
  exact Store.mem_memories_setSignature

/-- The signature write, which is where the condition is needed. -/
theorem tracked_sign (h : b.Tracked S) {i : ℕ} {now : String} (htimely : b.Timely S (.sign i now)) :
    (b.sign S i now).Tracked S := by
  unfold sign
  split
  · rename_i memory outcome fields hi
    have hrow := htimely _ hi
    dsimp only at hrow
    refine .of_move hi (fun r' hr' => ?_) (fun r' hr' => ?_) fun r' hr' => ?_
    all_goals obtain ⟨r, hr, rfl⟩ := mem_memories_signAs.1 hr'
    · have hid := h.ids r hr
      split <;> exact hid
    · have hhash := h.hashes r hr
      split <;> exact hhash
    · split
      · rename_i hid
        rcases hrow r hr hid with hfields | ⟨x, hx, hcov⟩
        · exact Or.inl ⟨rfl, fields, hfields, rfl⟩
        · exact Or.inr (Or.inr (Or.inr (Or.inl ⟨x, hx, hcov.congr rfl rfl⟩)))
      · rename_i hid
        rcases h.signed r hr with hsigned | hcov | hcomp
        · exact Or.inl hsigned
        · rcases (exists_mem_iff_at hi).1 hcov with hcov | hcov
          · exact absurd hcov.1.symm hid
          · exact Or.inr (Or.inr (Or.inr (Or.inl hcov)))
        · rcases (exists_mem_iff_at hi).1 hcomp with hcomp | hcomp
          · exact hcomp.elim
          · exact Or.inr (Or.inr (Or.inr (Or.inr hcomp)))
  · exact h

/-- The last step passes the warnings on. -/
theorem tracked_finish (h : b.Tracked S) (i : ℕ) (now : String) (faults : RecognitionFaults) :
    (b.finish S i now faults).Tracked S := by
  unfold finish
  split
  · rename_i memory outcome warnings hi
    refine h.of_keepsSigned hi BrainState.keepsSigned_deriveIndex (fun _ _ => False.elim) ?_
    exact fun hwarnings => List.append_ne_nil_of_left_ne_nil hwarnings _
  · exact h

/-- **One step** keeps every row signed, or covered, or some call complaining. -/
theorem tracked_step (h : b.Tracked S) {a : RememberStep} (htimely : b.Timely S a) :
    (b.step S a).Tracked S := by
  cases a with
  | remember key content opts fingerprints =>
    refine ⟨h.ids, h.hashes, fun r hr => (h.signed r hr).imp_right ?_⟩
    refine Or.imp ?_ ?_
    · exact fun ⟨c, hc, hcov⟩ => ⟨c, List.mem_append_left _ hc, hcov⟩
    · exact fun ⟨c, hc, hcomp⟩ => ⟨c, List.mem_append_left _ hc, hcomp⟩
  | write i now since => exact tracked_write h i now since
  | associate i => exact tracked_associate h i
  | density i now => exact tracked_density h i now
  | readBack i => exact tracked_readBack h i
  | sign i now => exact tracked_sign h htimely
  | finish i now faults => exact tracked_finish h i now faults

/-! ## Every interleaving -/

/-- A call that has returned without a warning neither covers nor complains. -/
theorem signed_of_allClean (h : b.Tracked S) (hclean : b.AllClean) :
    ∀ r ∈ b.brain.cached.store.memories, S.Signed r := by
  intro r hr
  have hnone : ∀ c ∈ b.calls, ¬ c.Covers S r ∧ ¬ c.Complains := by
    intro c hc
    have hreturned := hclean c hc
    unfold RememberCall.Clean at hreturned
    unfold RememberCall.Covers RememberCall.Complains
    split at hreturned
    · rename_i hphase
      simp [hphase, hreturned]
    · exact hreturned.elim
  rcases h.signed r hr with hsigned | ⟨c, hc, hcov⟩ | ⟨c, hc, hcomp⟩
  · exact hsigned
  · exact absurd hcov (hnone c hc).1
  · exact absurd hcomp (hnone c hc).2

/-- The steps of one call alone. -/
def alone (now since : String) (faults : RecognitionFaults) : List RememberStep :=
  [.write 0 now since, .associate 0, .density 0 now, .readBack 0, .sign 0 now, .finish 0 now faults]

/-- **A call alone** is `remember`. -/
theorem run_alone (S : BrainSetup) (brain : BrainState L) (now since : String)
    (faults : RecognitionFaults) (key content : String) (opts : RememberOpts)
    (fingerprints : List Fingerprint) :
    run (step S) { brain, calls := [{ key, content, opts, fingerprints }] } (alone now since faults) =
      { brain := (brain.remember S now since faults key content opts fingerprints).1
        calls := [{ key, content, opts, fingerprints
                    phase := .returned
                      (brain.remember S now since faults key content opts fingerprints).2 }] } := by
  unfold alone BrainState.remember
  simp only [run_cons, run_nil, step]
  cases hingest : brain.ingest S now since (S.env.keyToId key) key content opts fingerprints with
  | mk written result =>
    cases result with
    | error e => simp [write, associate, density, readBack, sign, finish, move, hingest]
    | ok p =>
      cases hjoin : written.associateSession p.1.id opts.sessionId with
      | error e => simp [write, associate, density, readBack, sign, finish, move, hingest, hjoin]
      | ok joined =>
        cases hread : (joined.applyStore S
            ⟨.setDeclarativeDensity p.1.id (S.declarativeDensity content), now⟩).readBack p.1.id with
        | error e =>
          simp [write, associate, density, readBack, sign, finish, move, hingest, hjoin, hread,
            BrainState.deriveFields, BrainState.signStored]
        | ok fields =>
          cases fields <;>
            simp [write, associate, density, readBack, sign, finish, move, hingest, hjoin, hread,
              BrainState.deriveFields, BrainState.signStored]

/-- **Every interleaving.**  In every run of any number of calls on a new brain whose signature
writes are all timely: once all calls have returned without a warning, the signature of every
memory verifies. -/
theorem verifies_of_timely (S : BrainSetup) (L : WingCache)
    (hsig : ∀ msg, S.env.verifySig S.identity.verifyingKey msg (S.identity.sign msg) = true)
    (steps : List RememberStep)
    (htimely : AllSteps (step S) (Timely S) { brain := .opened L } steps)
    (hclean : (run (step S) { brain := .opened L } steps).AllClean) :
    ∀ r ∈ (run (step S) { brain := .opened L } steps).brain.cached.store.memories,
      S.env.verifyHit (memoryHitFromRow 0 r) S.identity.verifyingKey = true := by
  have hstart : Tracked S { brain := .opened L } := by
    constructor <;> exact fun r hr => absurd hr (Table.not_mem_empty r)
  have htracked := run_invariant_of_allSteps (I := fun b : SharedBrain L => b.Tracked S)
    (fun _ _ h htimely => tracked_step h htimely) hstart htimely
  intro r hr
  exact verifyHit_of_signed hsig (htracked.hashes r hr) (signed_of_allClean htracked hclean r hr) 0

end SharedBrain

/-! ## Two writers of a note -/

/-- What the author signs of the note with some content. -/
def notePayload (content : String) : List UInt8 :=
  memorySigningPayloadV2 author "note" (noteEnv.contentHash content) note.createdAt "team"

/-- The author's signatures, over the note and over the edited one. -/
def authorSign (msg : List UInt8) : Signature :=
  if msg = notePayload note.content then
    Env.bytesOf 64 (0x22d2ec3d21d8a5e4b8198460bf8f2acd4b87d85b66faab66b91f10621fd5693d * 256 ^ 32 +
      0x320cf2d67b1bc39c919bb62ad62c39f1dcfb79922496288c9654174624eaaa0c)
  else if msg = notePayload editedNote.content then
    Env.bytesOf 64 (0x6ac50b36f30b8efddb8315f6a484ce91926e89dad03ae136bf25ad7f3059cf17 * 256 ^ 32 +
      0xc25319318960cede36d8be2df404ebbbe9f28be8c72affecbd48488a9cf88404)
  else Vector.replicate 64 0

/-- The digests that occur; what verifies is what the author signs. -/
def authorEnv : Env :=
  { Env.ofRecords
      [(utf8 note.content, 0x057df659c1e192df60dbeac39dec966fdceaa8f5e06f90581adb07ff8ec84bd1),
        (utf8 editedNote.content, 0x245bf963a2162f97ab3678c59ade5b66995ad03d8cef2e467d54fb906054cf00),
        (authorKey.bytes.toList, 0x98ba85304ac639f0f55daab01ad6d592be44a125d9b3b65e1efca5b96960baec),
        (utf8 "note", 0x2d98215960d21018a79de0be95eb5e3b2eac5dcfaf880f700d8a8d62769583dd)] [] with
    verifySig := fun vk msg sig => decide (vk = authorKey ∧ sig = authorSign msg) }

/-- The brain of the author. -/
def authorBrain : BrainSetup :=
  { peer with env := authorEnv, identity := { verifyingKey := authorKey, sign := authorSign } }

/-- The author's brain with more keys for the note, and the logarithms of five and of six of them. -/
def diaryBrain : BrainSetup :=
  { authorBrain with
    env := { authorEnv with
      blake3 := fun b =>
        match [(utf8 "note 2", 0x8871364d60e2ce04cf560f9ad90e3515c1d634f048f6822c54c5ea85cce95b41),
          (utf8 "note 3", 0x4fbcce465a76a3801be9b7abcf1d72015db32e39d342718c93f40dd9bcbb828f),
          (utf8 "note 4", 0x94dd1bc2810a263fe08356643803b913556d04d17eaf5ff547a7cb0d496ea86c),
          (utf8 "note 5", 0x7024cc2a6dc0305c8a5d6854dcf9c7e5e29555dfe5d827073e274ead74455c97),
          (utf8 "note 6", 0x0a11b9b8ab7c5d839cac65e9dd1067562809fda85dfeb6b964d8fce533f294fa)].find?
            fun d => d.1 = b with
        | some d => Env.bytesOf 32 d.2
        | none => authorEnv.blake3 b }
    rc := { noteRecognizer with
      numerics :=
        { ln := fun x =>
            if x = 6 then 1.791759469228055
            else if x = 6 / 5 then 0.1823215567939546
            else if x = 7 then 1.9459101490553132
            else if x = 7 / 6 then 0.15415067982725836
            else 0
          twoDecimals := fun x => if x = 1 then "1.00" else "0.00" } } }

theorem verifySig_authorBrain (msg : List UInt8) : authorBrain.env.verifySig
    authorBrain.identity.verifyingKey msg (authorBrain.identity.sign msg) = true :=
  decide_eq_true ⟨rfl, rfl⟩

namespace SharedBrain

/-- Two writes of the note have begun. -/
def twoWriters : List RememberStep :=
  [note, editedNote].map fun o =>
    .remember o.key o.content { visibility := .team, createdAt := some o.createdAt } []

/-- The first call reads back and signs while the second has written and has yet to read back. -/
def timelySigning : List RememberStep :=
  twoWriters ++
    [.write 0 "2026-01-03 09:00:00" "2026-01-03 08:30:00", .associate 0,
      .density 0 "2026-01-03 09:00:00", .readBack 0,
      .write 1 "2026-01-03 09:00:01" "2026-01-03 08:30:01", .sign 0 "2026-01-03 09:00:01",
      .associate 1, .density 1 "2026-01-03 09:00:01", .readBack 1, .sign 1 "2026-01-03 09:00:02",
      .finish 0 "2026-01-03 09:00:02" {}, .finish 1 "2026-01-03 09:00:02" {}]

theorem verifies_of_timely_note :
    let b := run (step authorBrain) { brain := .opened wingCache } timelySigning
    AllSteps (step authorBrain) (Timely authorBrain) { brain := .opened wingCache } timelySigning ∧
      b.AllClean ∧ (∃ r ∈ b.brain.cached.store.memories.rows, r.content = editedNote.content) ∧
      ∀ r ∈ b.brain.cached.store.memories.rows,
        authorBrain.env.verifyHit (memoryHitFromRow 0 r) authorKey = true := by
  have htimely : AllSteps (step authorBrain) (Timely authorBrain)
      { brain := .opened wingCache } timelySigning := by decide +kernel
  have hclean : (run (step authorBrain) { brain := .opened wingCache } timelySigning).AllClean := by
    decide +kernel
  exact ⟨htimely, hclean, by decide +kernel, verifies_of_timely authorBrain wingCache
    verifySig_authorBrain timelySigning htimely hclean⟩

/-- The second call writes, reads back and signs between the read-back and the signature of the
first. -/
def staleSigning : List RememberStep :=
  twoWriters ++
    [.write 0 "2026-01-03 09:00:00" "2026-01-03 08:30:00", .associate 0,
      .density 0 "2026-01-03 09:00:00", .readBack 0,
      .write 1 "2026-01-03 09:00:01" "2026-01-03 08:30:01", .associate 1,
      .density 1 "2026-01-03 09:00:01", .readBack 1, .sign 1 "2026-01-03 09:00:01",
      .sign 0 "2026-01-03 09:00:02", .finish 0 "2026-01-03 09:00:02" {},
      .finish 1 "2026-01-03 09:00:02" {}]

/-- **The stale signature.**  Both calls have returned without a warning, and the row has the
second text and the signature over the first. -/
theorem stale_signature_note :
    let b := run (step authorBrain) { brain := .opened wingCache } staleSigning
    (∀ msg, authorBrain.env.verifySig authorKey msg (authorSign msg) = true) ∧ b.AllClean ∧
      ∃ r ∈ b.brain.cached.store.memories.rows, r.key = "note" ∧ r.content = editedNote.content ∧
        r.signature = some (authorSign (notePayload note.content)).toList ∧
        authorBrain.env.verifyHit (memoryHitFromRow 0 r) authorKey = false :=
  ⟨verifySig_authorBrain, by decide +kernel, by decide +kernel⟩

end SharedBrain

end Spectral
