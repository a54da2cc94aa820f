import Spectral.Federation.Runs

/-!
# Forgetting and replication

A forget is local: it deletes the memory and writes no tombstone.  What keeps a peer from
bringing the memory back is that the manifest still lists the object, so that an import finds
it held and inserts nothing.

`forget_survives` is that guarantee with its scope: it lasts as long as some wing's manifest
lists the object whenever a pack brings it.  A retraction takes the last manifest row away,
and a pack for another wing then brings the memory back (`forget_undone_note`).
-/

namespace Spectral

open Spectral.Lib

namespace Env

variable (env : Env)

/-- The memory holds the object: under the key of the object or its local key, with its
author, creation time and content. -/
def HoldsObject (o : MemoryObject) (r : MemoryRow) : Prop :=
  (r.key = o.key ∨ r.key = env.localKey o) ∧ r.sourceBrainId = o.authorId ∧
    r.createdAt = o.createdAt ∧ r.content = o.content

instance (o : MemoryObject) (r : MemoryRow) : Decidable (env.HoldsObject o r) :=
  inferInstanceAs (Decidable (_ ∧ _ ∧ _ ∧ _))

/-- The calls by which peers change a store, made while the object is still listed: a
retraction, or an import whose objects, where they would be stored as a memory that holds
`o`, are listed in some wing. -/
def ReplicatesListed (o : MemoryObject) (s : Store) (c : Call) : Prop :=
  match c.op with
  | .importPack pack policy => ∀ x ∈ pack.objects, env.Admitted policy pack s x →
      env.HoldsObject o (env.importedRow c.now x) → s.Holds (env.objectHash x)
  | .tombstone _ _ => True
  | _ => False

instance (o : MemoryObject) (s : Store) (c : Call) : Decidable (env.ReplicatesListed o s c) :=
  match c with
  | ⟨.importPack _ _, _⟩ => inferInstanceAs (Decidable (∀ x ∈ _, _ → _ → _))
  | ⟨.tombstone _ _, _⟩ => isTrue trivial
  | ⟨.write _ _, _⟩ | ⟨.setSignature _ _ _, _⟩ | ⟨.forget _, _⟩ | ⟨.share _ _, _⟩ => isFalse id

variable {env} {o : MemoryObject} {s : Store} {c : Call}

/-- **One call.**  A listed object is not stored again. -/
theorem mem_memories_of_replicatesListed (hok : env.ReplicatesListed o s c) {r : MemoryRow}
    (hr : r ∈ (env.apply s c).memories) (ho : env.HoldsObject o r) : r ∈ s.memories := by
  obtain ⟨op, now⟩ := c
  cases op with
  | importPack pack policy =>
    rcases mem_memories_import.1 hr with ⟨hr, -⟩ | ⟨x, -, harr, rfl⟩
    · exact hr
    · obtain ⟨hinc, hfresh, -⟩ := arrival_eq_some harr
      obtain ⟨hx, hadm⟩ := mem_incoming hinc
      exact absurd (hok x hx hadm ho) hfresh.1
  | tombstone w target => exact (Store.mem_memories_applyTombstoneTx.1 hr).1
  | _ => exact hok.elim

/-- **A forget survives replication while the object is listed.**  After the forget of a key,
no import and no retraction puts a memory in the store that holds the object, as long as
every pack that brings it finds it listed in some wing. -/
theorem forget_survives (env : Env) (s : Store) (now key : String) (o : MemoryObject)
    (calls : List Call)
    (hok : AllSteps env.apply (env.ReplicatesListed o) (s.deleteMemoryByKey now key).1 calls) :
    ∀ r ∈ (run env.apply (s.deleteMemoryByKey now key).1 calls).memories,
      env.HoldsObject o r → r ∈ s.memories ∧ r.key ≠ key := by
  have hold : ∀ r ∈ (run env.apply (s.deleteMemoryByKey now key).1 calls).memories,
      env.HoldsObject o r → r ∈ (s.deleteMemoryByKey now key).1.memories :=
    @run_invariant_of_allSteps _ _ _ _
      (fun t => ∀ r ∈ t.memories, env.HoldsObject o r →
        r ∈ (s.deleteMemoryByKey now key).1.memories) _ _
      (fun t c ih hc r hr ho => ih r (mem_memories_of_replicatesListed hc hr ho) ho)
      (fun r hr _ => hr) hok
  intro r hr ho
  exact Store.mem_memories_deleteMemoryByKey.1 (hold r hr ho)

end Env

/-- A store the note was imported into, for the team. -/
def teamStore : Store :=
  (noteEnv.importPackWithPolicy "2026-01-02 09:00:00" {}
    { wingId := "team", objects := [note] } .trustedTransport).1

/-- The note, sent for another wing. -/
def opsPack : Call :=
  ⟨.importPack { wingId := "ops", objects := [note] } .trustedTransport, "2026-01-03 09:00:00"⟩

theorem forget_survives_note :
    let forgotten := (teamStore.deleteMemoryByKey "2026-01-02 10:00:00" (noteEnv.localKey note)).1
    AllSteps noteEnv.apply (noteEnv.ReplicatesListed note) forgotten [opsPack] ∧
      ∀ r ∈ (run noteEnv.apply forgotten [opsPack]).memories,
        noteEnv.HoldsObject note r → r ∈ teamStore.memories ∧ r.key ≠ noteEnv.localKey note := by
  have hlisted : AllSteps noteEnv.apply (noteEnv.ReplicatesListed note)
      (teamStore.deleteMemoryByKey "2026-01-02 10:00:00" (noteEnv.localKey note)).1
      [opsPack] := by
    decide +kernel
  exact ⟨hlisted, Env.forget_survives noteEnv teamStore "2026-01-02 10:00:00"
    (noteEnv.localKey note) note [opsPack] hlisted⟩

/-- The note is forgotten, then retracted from the wing it came by; a pack for another wing
brings it back. -/
theorem forget_undone_note :
    let forgotten := (teamStore.deleteMemoryByKey "2026-01-02 10:00:00" (noteEnv.localKey note)).1
    let retraction : Call :=
      ⟨.tombstone "team" (noteEnv.objectHash note), "2026-01-02 11:00:00"⟩
    (∃ r ∈ teamStore.memories.rows, r.key = noteEnv.localKey note ∧ noteEnv.HoldsObject note r) ∧
      (∀ r ∈ forgotten.memories.rows, ¬ noteEnv.HoldsObject note r) ∧
      ∃ r ∈ (run noteEnv.apply forgotten [retraction, opsPack]).memories.rows,
        noteEnv.HoldsObject note r := by
  decide +kernel

end Spectral
