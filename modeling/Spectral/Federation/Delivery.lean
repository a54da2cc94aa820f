import Spectral.Federation.Runs

/-!
# What an import delivers

An import lists every admitted object of the pack in the manifest of its wing.  Whether the
object can be shipped from there depends on the memory the manifest row names: where the
store held the object already, the row it named then; else the row under the object's local
key.

`Delivers` is the condition on the store before the import, `importDelivers_iff` that it is
exact.  The dedup shortcut of the import loop trusts the manifest; after an edit of a shared
memory the row it points to is a different object, and a pack that carries the original is
merged without effect (`not_delivered_note`).
-/

namespace Spectral

open Spectral.Lib

namespace Env

/-- The retractions of the pack delete this memory: its id is a retracted hash, and no other
wing holds that hash. -/
def Doomed (env : Env) (policy : ImportPolicy) (pack : Pack) (s : Store) (r : MemoryRow) : Prop :=
  r.id ∈ env.packRetracted policy pack ∧ ¬ s.HeldElsewhere pack.wingId r.id

instance (env : Env) (policy : ImportPolicy) (pack : Pack) (s : Store) (r : MemoryRow) :
    Decidable (env.Doomed policy pack s r) := inferInstanceAs (Decidable (_ ∧ _))

/-- The memory an object will be listed with is the object: the row under its key is not
about to be deleted and has the object's hash; or that key is free, and so does the object of
the pack that takes it. -/
def Delivers (env : Env) (now : String) (policy : ImportPolicy) (pack : Pack) (s : Store)
    (o : MemoryObject) : Prop :=
  let m := env.entry s pack.wingId o
  (∃ r ∈ s.memories.rows, r.key = m.memKey ∧ ¬ env.Doomed policy pack s r ∧ env.Rehashes m r) ∨
    (s.memoryByKey m.memKey = none ∧ ∃ o' ∈ env.arrival policy pack s pack.objects m.memKey,
      env.Rehashes m (env.importedRow now o'))

instance (env : Env) (now : String) (policy : ImportPolicy) (pack : Pack) (s : Store)
    (o : MemoryObject) : Decidable (env.Delivers now policy pack s o) :=
  inferInstanceAs (Decidable (_ ∨ _))

variable {env : Env} {policy : ImportPolicy} {pack : Pack} {now : String} {s : Store}
  {o : MemoryObject}

/-- The memories an import leaves under a key. -/
theorem mem_memories_import_key {r : MemoryRow} {key : String} :
    (r ∈ (env.importPackWithPolicy now s pack policy).1.memories ∧ r.key = key) ↔
      (r ∈ s.memories ∧ r.key = key ∧ ¬ env.Doomed policy pack s r) ∨
      (s.memoryByKey key = none ∧ ∃ o' ∈ env.arrival policy pack s pack.objects key,
        r = env.importedRow now o') := by
  rw [mem_memories_import]
  constructor
  · rintro ⟨⟨hr, hkeep⟩ | ⟨o', hnone, harr, rfl⟩, rfl⟩
    · exact Or.inl ⟨hr, rfl, hkeep⟩
    · exact Or.inr ⟨hnone, o', harr, rfl⟩
  · rintro (⟨hr, hk, hkeep⟩ | ⟨hnone, o', harr, rfl⟩)
    · exact ⟨Or.inl ⟨hr, hkeep⟩, hk⟩
    · have hk : (env.importedRow now o').key = key := (arrival_eq_some harr).2.2
      exact ⟨Or.inr ⟨o', hk.symm ▸ hnone, hk.symm ▸ harr, rfl⟩, hk⟩

/-- **One object.**  After the import an incoming object can be shipped exactly when its
entry and the memory that entry names put it together. -/
theorem mem_exportHashes_import_iff (ho : o ∈ env.incoming policy pack s pack.objects) :
    env.objectHash o ∈
        env.exportHashes (env.importPackWithPolicy now s pack policy).1 pack.wingId ↔
      env.Delivers now policy pack s o := by
  have hentry : env.entry s pack.wingId o ∈
      (env.importPackWithPolicy now s pack policy).1.sharedWingMembers := entry_mem_import ho
  have hpk := pk_entry env s pack.wingId o
  have hadm := (mem_incoming ho).2
  unfold Delivers
  rw [mem_exportHashes]
  constructor
  · rintro ⟨m, hm, r, hr, hw, hh, -, hk, hre⟩
    -- the wing lists the hash once, so the row that ships it is the entry
    have hm_eq : m = env.entry s pack.wingId o :=
      Table.eq_of_clash hm hentry ((Prod.ext hw hh : m.pk = (pack.wingId, env.objectHash o)).trans
        hpk.symm)
    subst hm_eq
    rcases mem_memories_import_key.1 ⟨hr, hk⟩ with ⟨hr, hk, hkeep⟩ | ⟨hnone, o', harr, rfl⟩
    · exact Or.inl ⟨r, hr, hk, hkeep, hre⟩
    · exact Or.inr ⟨hnone, o', harr, hre⟩
  · intro h
    have hlive : ¬ (env.importPackWithPolicy now s pack policy).1.IsTombstoned pack.wingId
        (env.objectHash o) := by
      rw [isTombstoned_import]
      rintro (ht | ⟨-, hret⟩)
      · exact hadm.2.2 ht
      · exact hadm.2.1 hret
    rcases h with ⟨r, hr, hk, hkeep, hre⟩ | ⟨hnone, o', harr, hre⟩
    · obtain ⟨hr', hk'⟩ := mem_memories_import_key.2 (Or.inl ⟨hr, hk, hkeep⟩)
      exact ⟨_, hentry, r, hr', congrArg Prod.fst hpk, congrArg Prod.snd hpk, hlive, hk', hre⟩
    · obtain ⟨hr', hk'⟩ := mem_memories_import_key.2 (Or.inr ⟨hnone, o', harr, rfl⟩)
      exact ⟨_, hentry, _, hr', congrArg Prod.fst hpk, congrArg Prod.snd hpk, hlive, hk', hre⟩

/-- **Delivery.**  Every object of a pack that is admitted and retracted nowhere can be
shipped after the import, exactly when the store and the pack deliver each incoming object. -/
theorem importDelivers_iff (env : Env) (now : String) (policy : ImportPolicy) (pack : Pack)
    (s : Store) :
    (∀ o ∈ pack.objects, env.Admitted policy pack s o →
      env.objectHash o ∈
        env.exportHashes (env.importPackWithPolicy now s pack policy).1 pack.wingId) ↔
    ∀ o ∈ env.incoming policy pack s pack.objects, env.Delivers now policy pack s o := by
  constructor
  · intro h o ho
    obtain ⟨hop, hadm⟩ := mem_incoming ho
    exact (mem_exportHashes_import_iff ho).1 (h o hop hadm)
  · intro h o hop hadm
    obtain ⟨o', ho', hh⟩ := exists_mem_incoming hop hadm
    rw [← hh]
    exact (mem_exportHashes_import_iff ho').2 (h o' ho')

end Env

/-- The note is written, shared and edited; then a peer sends it back. -/
theorem not_delivered_note :
    let s := noteEnv.runCalls (noteCalls ++
      [⟨.write { noteMemory with content := editedNote.content } [], "2026-01-01 09:10:00"⟩])
    let pack : Pack := { wingId := "team", objects := [note] }
    noteEnv.Admitted .trustedTransport pack s note ∧
      noteEnv.objectHash note ∉ noteEnv.exportHashes
        (noteEnv.importPackWithPolicy "2026-01-02 09:00:00" s pack .trustedTransport).1 "team" := by
  decide +kernel

end Spectral
