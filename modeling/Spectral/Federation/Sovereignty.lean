import Spectral.Federation.Runs

/-!
# Sovereignty

What a peer can see of a store, and what it can take from it.

* `exportPack_objects_recorded` — the export gate.  In every run, whatever a wing ships was
  put on record in that wing by an earlier share or import, with the source fields it ships
  with.
* `sovereign_iff` — the frame of imports and retractions.  A row that no manifest row of the
  wing refers to survives exactly when its id is not a retracted hash, or another wing holds
  that hash: ids of native rows and object hashes are compared as strings.
-/

namespace Spectral

open Spectral.Lib

namespace Env

/-! ## The export gate -/

/-- **The export gate.**  Whatever is shipped for a wing was put on record in that wing
earlier in the run, by a share or an import, with the same source fields, and is not
retracted there. -/
theorem exportPack_objects_recorded (env : Env) (calls : List Call)
    (hcf : CollisionFree env (env.handledFrom {} calls ++ env.shipped (env.runCalls calls)))
    (wingId : String) (o : MemoryObject)
    (ho : o ∈ (env.exportPack (env.runCalls calls) wingId).objects) :
    ¬ (env.runCalls calls).IsTombstoned wingId (env.objectHash o) ∧
      ∃ past c later o', calls = past ++ c :: later ∧
        env.Records (env.runCalls past) c wingId o' ∧ SameSource o' o := by
  obtain ⟨m, hm, r, -, rfl, ht, -, hre, rfl⟩ := mem_objects_exportPack.1 ho
  refine ⟨by rwa [hre], ?_⟩
  obtain ⟨past, c, later, o', hcalls, hrec, hhash⟩ :=
    exists_records_of_mem_sharedWingMembers env calls m hm
  refine ⟨past, c, later, o', hcalls, hrec, ?_⟩
  have hhandled : o' ∈ env.handledFrom {} calls := hcalls ▸ mem_handledFrom_of_records hrec
  exact hcf o' (List.mem_append_left _ hhandled) _ (List.mem_append_right _ (mem_shipped ho))
    (hhash.trans hre.symm)

theorem exportPack_objects_recorded_note :
    note ∈ (noteEnv.exportPack (noteEnv.runCalls noteCalls) "team").objects ∧
      ∃ past c later o', noteCalls = past ++ c :: later ∧
        noteEnv.Records (noteEnv.runCalls past) c "team" o' ∧ SameSource o' note :=
  ⟨by decide +kernel,
    (exportPack_objects_recorded noteEnv noteCalls (by decide +kernel) "team" note
      (by decide +kernel)).2⟩

end Env

/-! ## The frame of imports and retractions -/

/-- Some manifest row of the wing refers to the memory. -/
def Store.Referenced (s : Store) (wingId : String) (r : MemoryRow) : Prop :=
  ∃ m ∈ s.sharedWingMembers.rows, m.wingId = wingId ∧ m.memKey = r.key

instance (s : Store) (wingId : String) (r : MemoryRow) : Decidable (s.Referenced wingId r) :=
  inferInstanceAs (Decidable (∃ m ∈ s.sharedWingMembers.rows, m.wingId = wingId ∧ m.memKey = r.key))

/-- Every memory of `s` outside the wing is in `t`, unchanged. -/
def Store.Sovereign (s : Store) (wingId : String) (t : Store) : Prop :=
  ∀ r ∈ s.memories, ¬ s.Referenced wingId r → r ∈ t.memories

/-- No hash of the list is the id of a memory outside the wing, unless the manifest of
another wing lists it. -/
def Store.Spares (s : Store) (wingId : String) (hashes : List String) : Prop :=
  ∀ r ∈ s.memories, ¬ s.Referenced wingId r → r.id ∈ hashes → s.HeldElsewhere wingId r.id

namespace Env

variable (env : Env)

theorem sovereign_import_iff (now : String) (s : Store) (pack : Pack) (policy : ImportPolicy) :
    s.Sovereign pack.wingId (env.importPackWithPolicy now s pack policy).1 ↔
      s.Spares pack.wingId (env.packRetracted policy pack) := by
  unfold Store.Sovereign Store.Spares
  refine forall₃_congr fun r hr hout => ?_
  rw [mem_memories_import]
  constructor
  · rintro (⟨-, hkeep⟩ | ⟨o, hnone, -, -⟩) hid
    · by_contra hheld
      exact hkeep ⟨hid, hheld⟩
    · exact absurd rfl (Store.memoryByKey_eq_none.1 hnone r hr)
  · intro h
    exact Or.inl ⟨hr, fun ⟨hid, hheld⟩ => hheld (h hid)⟩

theorem sovereign_tombstone_iff (now wingId targetHash : String) (s : Store) :
    s.Sovereign wingId (s.tombstone now wingId targetHash) ↔ s.Spares wingId [targetHash] := by
  unfold Store.Sovereign Store.Spares Store.tombstone
  refine forall₃_congr fun r hr hout => ?_
  rw [Store.mem_memories_applyTombstoneTx, List.mem_singleton]
  constructor
  · rintro ⟨-, hkeep⟩ rfl
    by_contra hheld
    exact hkeep ⟨rfl, hheld⟩
  · intro h
    exact ⟨hr, fun ⟨hid, hheld⟩ => hheld (hid ▸ h hid)⟩

/-- **Sovereignty.**  An import for a wing leaves the memories no manifest row of the wing
refers to, exactly when no admitted retraction names the id of such a memory, or another
wing lists that hash; and so does a retraction. -/
theorem sovereign_iff (now : String) (s : Store) :
    (∀ (pack : Pack) (policy : ImportPolicy),
      s.Sovereign pack.wingId (env.importPackWithPolicy now s pack policy).1 ↔
        s.Spares pack.wingId (env.packRetracted policy pack)) ∧
    (∀ wingId targetHash : String,
      s.Sovereign wingId (s.tombstone now wingId targetHash) ↔ s.Spares wingId [targetHash]) :=
  ⟨env.sovereign_import_iff now s, fun w h => sovereign_tombstone_iff now w h s⟩

/-- The id of a native memory is a digest of its key, so a peer that guesses the key of a
diary entry can retract it from a wing it was never in. -/
theorem not_sovereign_diary :
    let diary : Memory :=
      { id := "2ab219ebaad730bd", key := "diary/2026-01-01", content := "dear diary" }
    let env : Env := .ofRecords
      [(utf8 "dear diary", 0x53500d79b9cd338820567f3f388ec587575e2dcdff8476f5f5b66d82aadca068)] []
    let s := env.runCalls [⟨.write diary [], "2026-01-01 21:00:00"⟩]
    let pack : Pack := { wingId := "team", tombstones :=
      [{ targetHash := "2ab219ebaad730bd", ts := "2026-01-02 09:00:00" }] }
    ¬ s.Sovereign "team"
      (env.importPackWithPolicy "2026-01-02 09:00:00" s pack .trustedTransport).1 := by
  intro diary env s pack h
  have hmem : env.newRow "2026-01-01 21:00:00" diary ∈ s.memories := by decide +kernel
  exact absurd (h _ hmem (by decide +kernel)) (by decide +kernel)

end Env

end Spectral
