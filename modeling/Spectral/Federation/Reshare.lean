import Spectral.Federation.Runs

/-!
# Sharing again

A share puts the wire object of a memory together from its row alone, under its local key.  The
identity of an object that was imported is in the manifest: its own key, and what it supersedes.

* `HeldAs` — a store holds an object as a memory: the manifest recorded it, or nothing was recorded
  of the memory yet.
* `reshare_keeps_identity_iff` — a share lists the object under the hash it has exactly if its own key
  is the local key and it supersedes nothing.
* `localKey_ne_key` — that is never the key an import stores an object under.
-/

namespace Spectral

open Spectral.Lib

namespace Env

variable (env : Env)

/-- The store holds the object as this memory.  A manifest row recorded it and the memory still is
what was recorded; or no manifest row names the memory, which is its own object. -/
def HeldAs (s : Store) (o : MemoryObject) (r : MemoryRow) : Prop :=
  r ∈ s.memories ∧
    ((∃ m ∈ s.sharedWingMembers, m.memKey = r.key ∧ env.Rehashes m r ∧ o = m.rebuild r) ∨
      ((∀ m ∈ s.sharedWingMembers, m.memKey ≠ r.key) ∧ o = r.object))

/-- A share of the key returns the hash, and the wing then lists it. -/
def SharesAs (s : Store) (memKey wingId hash : String) : Prop :=
  ∃ s', env.share s memKey wingId = .ok (s', hash) ∧
    ∃ m ∈ s'.sharedWingMembers, m.wingId = wingId ∧ m.objectHash = hash

variable {env} {s : Store} {o : MemoryObject} {r : MemoryRow}

/-- Whatever is recorded of a memory, its content, author, time and visibility are its own. -/
theorem HeldAs.sameSource_iff (h : env.HeldAs s o r) :
    SameSource r.object o ↔ o.key = r.key ∧ o.supersedes.getD "" = "" := by
  obtain ⟨-, ⟨m, -, -, -, rfl⟩ | ⟨-, rfl⟩⟩ := h
  · exact ⟨fun hsame => ⟨hsame.key.symm, hsame.supersedes.symm⟩,
      fun ⟨hkey, hsup⟩ => ⟨hkey.symm, rfl, rfl, rfl, rfl, hsup.symm⟩⟩
  · exact ⟨fun _ => ⟨rfl, rfl⟩, fun _ => ⟨rfl, rfl, rfl, rfl, rfl, rfl⟩⟩

/-- **What a share returns** is the hash of the row as it stands. -/
theorem sharesAs_iff (hr : r ∈ s.memories) (wingId hash : String) :
    env.SharesAs s r.key wingId hash ↔ env.objectHash r.object = hash := by
  have hobj : s.objectForKey r.key = some r.object := by
    unfold Store.objectForKey
    rw [Store.memoryByKey_eq_some.2 ⟨hr, rfl⟩, Option.map_some]
  unfold SharesAs share
  rw [hobj]
  constructor
  · rintro ⟨s', hshare, -⟩
    exact (Prod.mk.inj (Except.ok.inj hshare)).2
  · rintro rfl
    refine ⟨_, rfl, ?_⟩
    by_cases hc : s.sharedWingMembers.Clashes (env.sharedRow r.key wingId r.object)
    · -- the wing lists the hash already
      obtain ⟨m, hm, hpk⟩ := hc
      obtain ⟨hw, hh⟩ := Prod.mk.inj hpk
      exact ⟨m, Table.mem_insertOrIgnore_of_mem hm, hw, hh⟩
    · exact ⟨_, Table.mem_insertOrIgnore.2 (Or.inr ⟨rfl, hc⟩), rfl, rfl⟩

/-- **Sharing a held object again** keeps its identity exactly if the object has the local key and
supersedes nothing. -/
theorem reshare_keeps_identity_iff (env : Env) (s : Store) (o : MemoryObject) (r : MemoryRow)
    (wingId : String) (h : env.HeldAs s o r) (hcf : CollisionFree env [r.object, o]) :
    env.SharesAs s r.key wingId (env.objectHash o) ↔
      o.key = r.key ∧ o.supersedes.getD "" = "" := by
  rw [sharesAs_iff h.1, ← h.sameSource_iff]
  exact ⟨hcf r.object (by simp) o (by simp), objectHash_congr env⟩

/-- The key an import stores an object under is longer than that of the object. -/
theorem localKey_ne_key (env : Env) (o : MemoryObject) : env.localKey o ≠ o.key := by
  intro h
  have hlength := congrArg (fun k : String => k.toList.length) h
  simp only [localKey, String.toList_append, List.length_append, String.toList_ofList] at hlength
  rw [length_hashPrefix_objectHash] at hlength
  omega

end Env

/-! ## The note, shared again -/

/-- The note under the key it is imported with. -/
def importedNote : MemoryObject := { note with key := "anon::note::1184fe0a6db52541" }

/-- The digests of the note and its content, and of the note under that key. -/
def importedNoteEnv : Env := .ofRecords
  [(utf8 note.content, 0x057df659c1e192df60dbeac39dec966fdceaa8f5e06f90581adb07ff8ec84bd1),
    (objectPreimage note, 0x1184fe0a6db52541fcee0e0f162daaeed9fbf95ca3e946311beaceb4669e95bd),
    (objectPreimage importedNote,
      0xd58132043e4ce5e67ef08fdadf93fad4425229d4911fc9333b7f284bd132712b)] []

/-- The note was imported for the team. -/
def importedNoteCalls : List Call :=
  [⟨.importPack { wingId := "team", objects := [note] } .trustedTransport, "2026-01-02 09:00:00"⟩]

theorem reshare_keeps_identity_native :
    let s := importedNoteEnv.runCalls noteCalls
    ∃ r ∈ s.memories.rows, importedNoteEnv.SharesAs s r.key "ops" (importedNoteEnv.objectHash note) := by
  intro s
  have hheld : ∃ r ∈ s.memories.rows, r.key = note.key ∧
      ∃ m ∈ s.sharedWingMembers.rows, m.memKey = r.key ∧ importedNoteEnv.Rehashes m r ∧
        note = m.rebuild r ∧ CollisionFree importedNoteEnv [r.object, note] := by decide +kernel
  obtain ⟨r, hr, hkey, m, hm, hmem, hre, ho, hcf⟩ := hheld
  refine ⟨r, hr, ?_⟩
  exact (Env.reshare_keeps_identity_iff importedNoteEnv s note r "ops"
    ⟨hr, Or.inl ⟨m, hm, hmem, hre, ho⟩⟩ hcf).2 ⟨hkey.symm, rfl⟩

/-- The note that the team sent gets another hash when it is shared with another wing. -/
theorem reshared_note :
    let s := importedNoteEnv.runCalls importedNoteCalls
    ∃ r ∈ s.memories.rows, importedNoteEnv.HeldAs s note r ∧
      ¬ importedNoteEnv.SharesAs s r.key "ops" (importedNoteEnv.objectHash note) := by
  intro s
  have hheld : ∃ r ∈ s.memories.rows, importedNoteEnv.objectHash r.object ≠
      importedNoteEnv.objectHash note ∧ ∃ m ∈ s.sharedWingMembers.rows, m.memKey = r.key ∧
        importedNoteEnv.Rehashes m r ∧ note = m.rebuild r := by decide +kernel
  obtain ⟨r, hr, hhash, m, hm, hmem, hre, ho⟩ := hheld
  exact ⟨r, hr, ⟨hr, Or.inl ⟨m, hm, hmem, hre, ho⟩⟩,
    fun hshares => hhash ((Env.sharesAs_iff hr "ops" _).1 hshares)⟩

end Spectral
