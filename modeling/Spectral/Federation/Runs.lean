import Spectral.Federation.Import

/-!
# Runs of a store

A run is a list of calls on one store: local writes, signatures and forgets, shares,
imports and retractions, each with the reading of the clock it was made at.  A call that
returns an error leaves the store as it was.

`Records` says which calls put an object on record in a wing;
`exists_records_of_mem_sharedWingMembers` is the history of the manifest: every row was put
there by such a call.
-/

namespace Spectral

open Spectral.Lib

/-- The calls that change a store. -/
inductive StoreOp where
  | write (memory : Memory) (fingerprints : List Fingerprint)
  | setSignature (memoryId : String) (sourceBrainId : Bytes32) (signature : List UInt8)
  | forget (key : String)
  | share (memKey wingId : String)
  | importPack (pack : Pack) (policy : ImportPolicy)
  | tombstone (wingId targetHash : String)

/-- A call and the time it is made at. -/
structure Call where
  op : StoreOp
  now : String

/-- The objects a call handles: the one it shares, or those of the pack it imports. -/
def Store.handled (s : Store) (c : Call) : List MemoryObject :=
  match c.op with
  | .share memKey _ => (s.objectForKey memKey).toList
  | .importPack pack _ => pack.objects
  | _ => []

namespace Env

variable (env : Env)

/-- The store after a call of `share`. -/
def shared (s : Store) (memKey wingId : String) : Store :=
  match env.share s memKey wingId with
  | .ok (s', _) => s'
  | .error _ => s

/-- What a call does to the store. -/
def apply (s : Store) (c : Call) : Store :=
  match c.op with
  | .write memory fingerprints => env.write c.now s memory fingerprints
  | .setSignature memoryId sourceBrainId signature => s.setSignature memoryId sourceBrainId signature
  | .forget key => (s.deleteMemoryByKey c.now key).1
  | .share memKey wingId => env.shared s memKey wingId
  | .importPack pack policy => (env.importPackWithPolicy c.now s pack policy).1
  | .tombstone wingId targetHash => s.tombstone c.now wingId targetHash

/-- The store after the calls, from an empty one. -/
def runCalls (calls : List Call) : Store := run env.apply {} calls

/-- A call puts an object on record in a wing: a share of the memory that is the object, or
an import of a pack for the wing that takes the object in. -/
def Records (s : Store) (c : Call) (wingId : String) (o : MemoryObject) : Prop :=
  match c.op with
  | .share memKey wing => wing = wingId ∧ s.objectForKey memKey = some o
  | .importPack pack policy =>
    pack.wingId = wingId ∧ o ∈ pack.objects ∧ env.Admitted policy pack s o
  | _ => False

/-- The objects handled along a run from `s`. -/
def handledFrom (s : Store) : List Call → List MemoryObject
  | [] => []
  | c :: calls => s.handled c ++ handledFrom (env.apply s c) calls

/-- The objects a store ships, for any wing. -/
def shipped (s : Store) : List MemoryObject :=
  s.sharedWingMembers.rows.flatMap fun m => (env.exportPack s m.wingId).objects

variable {env} {s : Store} {c : Call}

theorem mem_shipped {wingId : String} {o : MemoryObject}
    (h : o ∈ (env.exportPack s wingId).objects) : o ∈ env.shipped s := by
  obtain ⟨m, hm, -, -, hw, -⟩ := mem_objects_exportPack.1 h
  exact List.mem_flatMap.2 ⟨m, hm, hw ▸ h⟩

theorem mem_handled_of_records {wingId : String} {o : MemoryObject}
    (h : env.Records s c wingId o) : o ∈ s.handled c := by
  obtain ⟨op, now⟩ := c
  cases op with
  | share memKey wing => exact Option.mem_toList.2 h.2
  | importPack pack policy => exact h.2.1
  | _ => exact h.elim

/-- Whatever a call of the run puts on record is among the objects the run handles. -/
theorem mem_handledFrom_of_records {past later : List Call} {wingId : String} {o : MemoryObject}
    (h : env.Records (run env.apply s past) c wingId o) :
    o ∈ env.handledFrom s (past ++ c :: later) := by
  induction past generalizing s with
  | nil => exact List.mem_append_left _ (mem_handled_of_records h)
  | cons a past ih => exact List.mem_append_right _ (ih h)

/-- A share of a key without a memory changes nothing; any other enters the object in the
manifest. -/
theorem shared_cases (env : Env) (s : Store) (memKey wingId : String) :
    (s.objectForKey memKey = none ∧ env.shared s memKey wingId = s) ∨
      ∃ o, s.objectForKey memKey = some o ∧ env.shared s memKey wingId = { s with
        sharedWingMembers := s.sharedWingMembers.insertOrIgnore (env.sharedRow memKey wingId o) } := by
  unfold shared share
  cases h : s.objectForKey memKey with
  | none => exact Or.inl ⟨rfl, rfl⟩
  | some o => exact Or.inr ⟨o, rfl, rfl⟩

/-- **One call and the manifest.**  A manifest row a call leaves was there before, or its
object was not listed in its wing and the call put it on record there. -/
theorem mem_sharedWingMembers_apply {m : ManifestRow}
    (hm : m ∈ (env.apply s c).sharedWingMembers) :
    m ∈ s.sharedWingMembers ∨ (¬ s.sharedWingMembers.Clashes m ∧
      ∃ o, env.Records s c m.wingId o ∧ env.objectHash o = m.objectHash) := by
  obtain ⟨op, now⟩ := c
  cases op with
  | write memory fps =>
    rcases write_eq_or_written env now s memory fps with h | h
    · exact Or.inl (h ▸ hm)
    · exact Or.inl (h.sharedWingMembers ▸ hm)
  | setSignature id brain sig => exact Or.inl hm
  | forget key =>
    have hsame : (s.deleteMemoryByKey now key).1.sharedWingMembers = s.sharedWingMembers :=
      Store.sharedWingMembers_deleteMemoryByKey
    exact Or.inl (hsame ▸ hm)
  | share memKey wingId =>
    change m ∈ (env.shared s memKey wingId).sharedWingMembers at hm
    rcases shared_cases env s memKey wingId with ⟨-, h⟩ | ⟨o, ho, h⟩
    · exact Or.inl (h ▸ hm)
    · rw [h] at hm
      rcases Table.mem_insertOrIgnore.1 hm with hm | ⟨rfl, hc⟩
      · exact Or.inl hm
      · exact Or.inr ⟨hc, o, ⟨rfl, ho⟩, rfl⟩
  | importPack pack policy =>
    rcases mem_sharedWingMembers_import.1 hm with hm | ⟨o, ho, rfl, hc⟩
    · exact Or.inl hm.1
    · exact Or.inr ⟨hc, o, ⟨rfl, (mem_incoming ho).1, (mem_incoming ho).2⟩, rfl⟩
  | tombstone wingId targetHash =>
    exact Or.inl (Store.mem_sharedWingMembers_applyTombstoneTx.1 hm).1

/-- **One call and a listed object.**  A call leaves a manifest row, or retracts it. -/
theorem mem_or_isTombstoned_apply {m : ManifestRow} (hm : m ∈ s.sharedWingMembers) :
    m ∈ (env.apply s c).sharedWingMembers ∨
      (env.apply s c).IsTombstoned m.wingId m.objectHash := by
  obtain ⟨op, now⟩ := c
  cases op with
  | write memory fps =>
    rcases write_eq_or_written env now s memory fps with h | h
    · refine Or.inl (?_ : m ∈ (env.write now s memory fps).sharedWingMembers)
      rwa [h]
    · refine Or.inl (?_ : m ∈ (env.write now s memory fps).sharedWingMembers)
      rwa [h.sharedWingMembers]
  | setSignature id brain sig => exact Or.inl hm
  | forget key =>
    have hsame : (s.deleteMemoryByKey now key).1.sharedWingMembers = s.sharedWingMembers :=
      Store.sharedWingMembers_deleteMemoryByKey
    exact Or.inl (hsame.symm ▸ hm)
  | share memKey wingId =>
    rcases shared_cases env s memKey wingId with ⟨-, h⟩ | ⟨o, -, h⟩
    · refine Or.inl (?_ : m ∈ (env.shared s memKey wingId).sharedWingMembers)
      rwa [h]
    · refine Or.inl (?_ : m ∈ (env.shared s memKey wingId).sharedWingMembers)
      rw [h]
      exact Table.mem_insertOrIgnore_of_mem hm
  | importPack pack policy =>
    by_cases hret : m.wingId = pack.wingId ∧ m.objectHash ∈ env.packRetracted policy pack
    · exact Or.inr (isTombstoned_import.2 (Or.inr hret))
    · exact Or.inl (mem_sharedWingMembers_import.2 (Or.inl ⟨hm, hret⟩))
  | tombstone wingId targetHash =>
    by_cases hret : m.wingId = wingId ∧ m.objectHash = targetHash
    · exact Or.inr (Store.isTombstoned_applyTombstoneTx.2 (Or.inr hret))
    · exact Or.inl (Store.mem_sharedWingMembers_applyTombstoneTx.2 ⟨hm, hret⟩)

/-- **Retractions are final.**  No call removes a tombstone. -/
theorem isTombstoned_apply {w h : String} (ht : s.IsTombstoned w h) :
    (env.apply s c).IsTombstoned w h := by
  have hsame : ∀ s' : Store, s'.syncTombstones = s.syncTombstones → s'.IsTombstoned w h := by
    intro s' hs'
    unfold Store.IsTombstoned
    rwa [hs']
  obtain ⟨op, now⟩ := c
  cases op with
  | write memory fps =>
    rcases write_eq_or_written env now s memory fps with hw | hw
    · exact hsame _ (congrArg Store.syncTombstones hw)
    · exact hsame _ hw.syncTombstones
  | setSignature id brain sig => exact ht
  | forget key => exact hsame _ Store.syncTombstones_deleteMemoryByKey
  | share memKey wingId =>
    rcases shared_cases env s memKey wingId with ⟨-, h⟩ | ⟨o, -, h⟩
    · exact hsame _ (congrArg Store.syncTombstones h)
    · exact hsame (env.shared s memKey wingId) (by rw [h])
  | importPack pack policy => exact isTombstoned_import.2 (Or.inl ht)
  | tombstone wingId targetHash => exact Store.isTombstoned_applyTombstoneTx.2 (Or.inl ht)

/-- The history of the manifest: every row goes back to a call that put its object on
record in its wing. -/
theorem exists_records_of_mem_sharedWingMembers (env : Env) (calls : List Call) :
    ∀ m ∈ (env.runCalls calls).sharedWingMembers, ∃ past c later o,
      calls = past ++ c :: later ∧ env.Records (env.runCalls past) c m.wingId o ∧
        env.objectHash o = m.objectHash := by
  induction calls using List.reverseRecOn with
  | nil => intro m hm; exact absurd hm (Table.not_mem_empty m)
  | append_singleton calls c ih =>
    intro m hm
    rw [runCalls, run_concat] at hm
    rcases mem_sharedWingMembers_apply hm with hm | ⟨-, o, ho, hh⟩
    · obtain ⟨past, c', later, o, rfl, ho, hh⟩ := ih m hm
      exact ⟨past, c', later ++ [c], o, by simp, ho, hh⟩
    · exact ⟨calls, c, [], o, rfl, ho, hh⟩

end Env

/-- The memory the note is shared from. -/
def noteMemory : Memory :=
  { id := "2d98215960d21018", key := note.key, content := note.content,
    visibility := note.visibility, createdAt := some note.createdAt }

/-- The note is written and shared. -/
def noteCalls : List Call :=
  [⟨.write noteMemory [], note.createdAt⟩, ⟨.share note.key "team", "2026-01-01 09:05:00"⟩]

end Spectral
