import Spectral.Federation.Object
import Spectral.Ingest.Write
import Mathlib.Data.List.Sort
import Mathlib.Data.String.Basic

/-!
# Federation sync

The operations of `federation_sync.rs` on a store: `share` puts a memory into a wing,
`enumerate` and `exportPack` read a wing, `importPackWithPolicy` merges a pack, and
`tombstone` retracts an object from a wing.

A shared wing is its manifest (`shared_wing_members`) without the retracted hashes
(`sync_tombstones`).  The manifest refers to a memory by its local key; `rebuild` puts the
wire object back together from a manifest row and the memory it names, and `exportPack`
ships it when it still has the hash it was recorded under.

Everything takes the reading of the clock, `now`, as an argument.
-/

namespace Spectral

open Spectral.Lib

/-! ## Reading a wing -/

namespace Store

variable (s : Store)

/-- `is_tombstoned`: is the hash retracted in the wing? -/
def IsTombstoned (wingId hash : String) : Prop :=
  ∃ t ∈ s.syncTombstones.rows, t.wingId = wingId ∧ t.targetHash = hash

instance (wingId hash : String) : Decidable (s.IsTombstoned wingId hash) :=
  inferInstanceAs (Decidable (∃ t ∈ s.syncTombstones.rows, t.wingId = wingId ∧ t.targetHash = hash))

/-- Does some wing's manifest name this object? -/
def Holds (hash : String) : Prop := ∃ m ∈ s.sharedWingMembers.rows, m.objectHash = hash

instance (hash : String) : Decidable (s.Holds hash) :=
  inferInstanceAs (Decidable (∃ m ∈ s.sharedWingMembers.rows, m.objectHash = hash))

/-- Does the manifest of a wing other than `wingId` name this object? -/
def HeldElsewhere (wingId hash : String) : Prop :=
  ∃ m ∈ s.sharedWingMembers.rows, m.objectHash = hash ∧ m.wingId ≠ wingId

instance (wingId hash : String) : Decidable (s.HeldElsewhere wingId hash) :=
  inferInstanceAs
    (Decidable (∃ m ∈ s.sharedWingMembers.rows, m.objectHash = hash ∧ m.wingId ≠ wingId))

/-- `SELECT mem_key FROM shared_wing_members WHERE object_hash = ? LIMIT 1`. -/
def existingKey (hash : String) : Option String :=
  (s.sharedWingMembers.find? fun m => m.objectHash = hash).map ManifestRow.memKey

/-- The manifest of a wing without its retracted objects. -/
def liveMembers (wingId : String) : List ManifestRow :=
  s.sharedWingMembers.rows.filter fun m =>
    m.wingId = wingId && decide (¬ s.IsTombstoned wingId m.objectHash)

@[simp] theorem mem_liveMembers {s : Store} {wingId : String} {m : ManifestRow} :
    m ∈ s.liveMembers wingId ↔
      m ∈ s.sharedWingMembers ∧ m.wingId = wingId ∧ ¬ s.IsTombstoned wingId m.objectHash := by
  simp [liveMembers]

/-- `enumerate`: the hashes live in a wing, sorted. -/
def enumerate (wingId : String) : List String :=
  ((s.liveMembers wingId).map ManifestRow.objectHash).insertionSort (· ≤ ·)

theorem mem_enumerate {s : Store} {wingId hash : String} :
    hash ∈ s.enumerate wingId ↔
      ∃ m ∈ s.sharedWingMembers, m.wingId = wingId ∧ m.objectHash = hash ∧
        ¬ s.IsTombstoned wingId hash := by
  rw [enumerate, List.mem_insertionSort, List.mem_map]
  constructor
  · rintro ⟨m, hm, rfl⟩
    obtain ⟨hmem, hw, ht⟩ := mem_liveMembers.1 hm
    exact ⟨m, hmem, hw, rfl, ht⟩
  · rintro ⟨m, hmem, hw, rfl, ht⟩
    exact ⟨m, mem_liveMembers.2 ⟨hmem, hw, ht⟩, rfl⟩

/-- A wing lists no hash twice. -/
theorem nodup_enumerate (wingId : String) : (s.enumerate wingId).Nodup := by
  rw [enumerate, List.Perm.nodup_iff (List.perm_insertionSort _ _), List.Nodup, List.pairwise_map]
  have hrows := s.sharedWingMembers.unique.sublist (List.filter_sublist
    (p := fun m => m.wingId = wingId && decide (¬ s.IsTombstoned wingId m.objectHash)))
  refine List.Pairwise.imp_of_mem ?_ hrows
  intro a b ha hb hab hhash
  exact hab (Prod.ext ((mem_liveMembers.1 ha).2.1.trans (mem_liveMembers.1 hb).2.1.symm) hhash)

/-- The listing depends only on which hashes are live. -/
theorem enumerate_eq_of_mem_iff {s s' : Store} {wingId : String}
    (h : ∀ hash, hash ∈ s.enumerate wingId ↔ hash ∈ s'.enumerate wingId) :
    s.enumerate wingId = s'.enumerate wingId := by
  have hperm : (s.enumerate wingId).Perm (s'.enumerate wingId) :=
    (List.perm_ext_iff_of_nodup (nodup_enumerate s wingId) (nodup_enumerate s' wingId)).2 h
  exact hperm.eq_of_pairwise' (List.pairwise_insertionSort _ _) (List.pairwise_insertionSort _ _)

end Store

/-- The manifest row is not retracted in its wing. -/
def ManifestRow.Live (m : ManifestRow) (s : Store) : Prop := ¬ s.IsTombstoned m.wingId m.objectHash

instance (m : ManifestRow) (s : Store) : Decidable (m.Live s) :=
  inferInstanceAs (Decidable (¬ _))

/-! ## Export -/

/-- The wire object recorded by a manifest row, put back together with the memory it
names. -/
def ManifestRow.rebuild (m : ManifestRow) (r : MemoryRow) : MemoryObject :=
  { key := m.origKey.getD m.memKey, content := r.content, authorId := r.sourceBrainId,
    createdAt := r.createdAt, visibility := r.visibility, supersedes := m.supersedes,
    signature := m.sig }

/-- A memory still is the object a manifest row recorded. -/
def Env.Rehashes (env : Env) (m : ManifestRow) (r : MemoryRow) : Prop :=
  env.objectHash (m.rebuild r) = m.objectHash

instance (env : Env) (m : ManifestRow) (r : MemoryRow) : Decidable (env.Rehashes m r) :=
  inferInstanceAs (Decidable (env.objectHash (m.rebuild r) = m.objectHash))

/-- A tombstone as it is shipped. -/
def TombstoneRow.wire (t : TombstoneRow) : Tombstone :=
  { targetHash := t.targetHash, authorId := t.authorId, ts := t.ts, signature := t.sig }

/-- The objects `export_pack` ships for a wing. -/
def Env.exportObjects (env : Env) (s : Store) (wingId : String) : List MemoryObject :=
  (s.liveMembers wingId).filterMap fun m =>
    (s.memoryByKey m.memKey).bind fun r => if env.Rehashes m r then some (m.rebuild r) else none

/-- `export_pack`. -/
def Env.exportPack (env : Env) (s : Store) (wingId : String) : Pack :=
  { wingId
    objects := env.exportObjects s wingId
    tombstones :=
      (s.syncTombstones.rows.filter fun t => t.wingId = wingId).map TombstoneRow.wire }

/-- An object is shipped exactly when a live manifest row and the memory it names put it
together under the recorded hash. -/
theorem Env.mem_objects_exportPack {env : Env} {s : Store} {wingId : String} {o : MemoryObject} :
    o ∈ (env.exportPack s wingId).objects ↔
      ∃ m ∈ s.sharedWingMembers, ∃ r ∈ s.memories, m.wingId = wingId ∧
        ¬ s.IsTombstoned wingId m.objectHash ∧ r.key = m.memKey ∧ env.Rehashes m r ∧
        o = m.rebuild r := by
  rw [exportPack, exportObjects, List.mem_filterMap]
  simp only [Option.bind_eq_some_iff, Store.memoryByKey_eq_some]
  constructor
  · rintro ⟨m, hm, r, ⟨hr, hk⟩, ho⟩
    obtain ⟨hmem, hw, ht⟩ := Store.mem_liveMembers.1 hm
    split at ho
    · rename_i hre
      exact ⟨m, hmem, r, hr, hw, ht, hk, hre, (Option.some.inj ho).symm⟩
    · cases ho
  · rintro ⟨m, hmem, r, hr, hw, ht, hk, hre, rfl⟩
    exact ⟨m, Store.mem_liveMembers.2 ⟨hmem, hw, ht⟩, r, ⟨hr, hk⟩, if_pos hre⟩

/-- The hashes a wing can ship. -/
def Env.exportHashes (env : Env) (s : Store) (wingId : String) : List String :=
  (env.exportPack s wingId).objects.map env.objectHash

theorem Env.mem_exportHashes {env : Env} {s : Store} {wingId hash : String} :
    hash ∈ env.exportHashes s wingId ↔
      ∃ m ∈ s.sharedWingMembers, ∃ r ∈ s.memories, m.wingId = wingId ∧ m.objectHash = hash ∧
        ¬ s.IsTombstoned wingId hash ∧ r.key = m.memKey ∧ env.Rehashes m r := by
  rw [exportHashes, List.mem_map]
  constructor
  · rintro ⟨o, ho, rfl⟩
    obtain ⟨m, hm, r, hr, hw, ht, hk, hre, rfl⟩ := mem_objects_exportPack.1 ho
    rw [hre]
    exact ⟨m, hm, r, hr, hw, rfl, ht, hk, hre⟩
  · rintro ⟨m, hm, r, hr, hw, rfl, ht, hk, hre⟩
    exact ⟨m.rebuild r, mem_objects_exportPack.2 ⟨m, hm, r, hr, hw, ht, hk, hre, rfl⟩, hre⟩

/-- Whatever can be shipped is advertised. -/
theorem Env.mem_enumerate_of_mem_exportHashes {env : Env} {s : Store} {wingId hash : String}
    (h : hash ∈ env.exportHashes s wingId) : hash ∈ s.enumerate wingId := by
  obtain ⟨m, hm, r, -, hw, hh, ht, -, -⟩ := mem_exportHashes.1 h
  exact Store.mem_enumerate.2 ⟨m, hm, hw, hh, ht⟩

/-! ## Share -/

/-- The object a memory is shared as. -/
def MemoryRow.object (r : MemoryRow) : MemoryObject :=
  { key := r.key, content := r.content, authorId := r.sourceBrainId, createdAt := r.createdAt,
    visibility := r.visibility }

/-- `object_for_key`. -/
def Store.objectForKey (s : Store) (memKey : String) : Option MemoryObject :=
  (s.memoryByKey memKey).map MemoryRow.object

namespace Env

variable (env : Env)

/-- The manifest row of a native share. -/
def sharedRow (memKey wingId : String) (obj : MemoryObject) : ManifestRow :=
  { wingId, objectHash := env.objectHash obj, memKey, origKey := some obj.key,
    supersedes := obj.supersedes }

/-- The memory a manifest row is shared from has the recorded hash. -/
theorem rehashes_sharedRow {env : Env} {memKey wingId : String} {r : MemoryRow} :
    env.Rehashes (env.sharedRow memKey wingId r.object) r := rfl

/-- `share`: put a memory into a wing.  Returns the hash it is listed under. -/
def share (s : Store) (memKey wingId : String) : Except String (Store × String) :=
  match s.objectForKey memKey with
  | none => .error s!"no memory with key {memKey}"
  | some obj =>
    .ok ({ s with
      sharedWingMembers := s.sharedWingMembers.insertOrIgnore (env.sharedRow memKey wingId obj) },
      env.objectHash obj)

end Env

/-! ## Retractions -/

namespace Store

variable (s : Store)

/-- `apply_tombstone_tx`: record the retraction, delete the memory with that id unless
another wing still holds the object, and drop the manifest row. -/
def applyTombstoneTx (now wingId targetHash : String) (s : Store) : Store :=
  let recorded := { s with
    syncTombstones := s.syncTombstones.insertOrIgnore { wingId, targetHash, ts := now } }
  let deleted := recorded.deleteMemories fun r =>
    r.id = targetHash && decide (¬ recorded.HeldElsewhere wingId targetHash)
  { deleted with
    sharedWingMembers := deleted.sharedWingMembers.deleteWhere fun m =>
      m.wingId = wingId && m.objectHash = targetHash }

/-- `tombstone`. -/
def tombstone (now wingId targetHash : String) : Store := s.applyTombstoneTx now wingId targetHash

/-- `UPDATE sync_tombstones SET author_id, sig`: the attestation of an imported
retraction. -/
def attest (wingId : String) (t : Tombstone) : Store :=
  { s with
    syncTombstones := s.syncTombstones.update
      (fun r => if r.wingId = wingId ∧ r.targetHash = t.targetHash then
        { r with authorId := t.authorId, sig := t.signature } else r)
      (by intro a b h; unfold SameKey TombstoneRow.pk at h ⊢; split at h <;> split at h <;> exact h) }

/-- What an import does with one admitted retraction. -/
def importTombstone (now wingId : String) (s : Store) (t : Tombstone) : Store :=
  (s.applyTombstoneTx now wingId t.targetHash).attest wingId t

end Store

/-! ## Import -/

/-- `ImportOutcome`: what an import did. -/
structure ImportOutcome where
  merged : ℕ := 0
  rejectedObjects : ℕ := 0
  rejectedTombstones : ℕ := 0
  deriving DecidableEq, Repr

namespace Env

variable (env : Env)

/-- The memory an imported object is stored as; wing, hall and signal are re-derived. -/
def importedRow (now : String) (obj : MemoryObject) : MemoryRow :=
  { id := env.objectHash obj, key := env.localKey obj, content := obj.content,
    wing := some (env.classifyWing obj.key obj.content "core"),
    hall := some (env.classifyHall obj.content),
    signalScore := env.scoreMemory obj.content (env.classifyHall obj.content),
    visibility := obj.visibility, createdAt := obj.createdAt, updatedAt := now,
    confidence := 1, contentHash := some (env.contentHash obj.content),
    sourceBrainId := obj.authorId }

/-- The manifest row of an imported object that is stored under `memKey`. -/
def importedMember (wingId memKey : String) (obj : MemoryObject) : ManifestRow :=
  { wingId, objectHash := env.objectHash obj, memKey, origKey := some obj.key,
    supersedes := obj.supersedes, sig := obj.signature }

/-- One turn of the import loop, with the outcome accumulated so far. -/
def importObject (policy : ImportPolicy) (wingId : String) (packRetracted : List String)
    (now : String) (acc : Store × ImportOutcome) (obj : MemoryObject) : Store × ImportOutcome :=
  let s := acc.1
  let outcome := acc.2
  let oh := env.objectHash obj
  if env.acceptsObject policy obj oh = false then
    (s, { outcome with rejectedObjects := outcome.rejectedObjects + 1 })
  else if oh ∈ packRetracted ∨ s.IsTombstoned wingId oh then (s, outcome)
  else match s.existingKey oh with
    | some existingKey =>
      ({ s with
        sharedWingMembers :=
          s.sharedWingMembers.insertOrIgnore (env.importedMember wingId existingKey obj) }, outcome)
    | none =>
      ({ s with
        memories := s.memories.insertOrIgnore (env.importedRow now obj)
        sharedWingMembers := s.sharedWingMembers.insertOrIgnore
          (env.importedMember wingId (env.localKey obj) obj) },
        { outcome with merged := outcome.merged + s.memories.inserted (env.importedRow now obj) })

/-- The retractions of a pack that the policy admits. -/
def admittedTombstones (policy : ImportPolicy) (pack : Pack) : List Tombstone :=
  pack.tombstones.filter (env.acceptsTombstone policy pack.wingId)

/-- The hashes a pack retracts. -/
def packRetracted (policy : ImportPolicy) (pack : Pack) : List String :=
  (env.admittedTombstones policy pack).map Tombstone.targetHash

/-- `import_pack_with_policy`. -/
def importPackWithPolicy (now : String) (s : Store) (pack : Pack) (policy : ImportPolicy) :
    Store × ImportOutcome :=
  let admitted := env.admittedTombstones policy pack
  let outcome : ImportOutcome := { rejectedTombstones := pack.tombstones.length - admitted.length }
  let merged := pack.objects.foldl
    (env.importObject policy pack.wingId (env.packRetracted policy pack) now) (s, outcome)
  (admitted.foldl (Store.importTombstone now pack.wingId) merged.1, merged.2)

/-- `import_pack`: the trusted transport. -/
def importPack (now : String) (s : Store) (pack : Pack) : Store × ℕ :=
  let imported := env.importPackWithPolicy now s pack .trustedTransport
  (imported.1, imported.2.merged)

end Env

end Spectral
