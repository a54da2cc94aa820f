import Spectral.Federation.Reshare

/-!
# What a retraction leaves

A retraction deletes the memory whose id is the retracted hash, unless the manifest of another wing
has a row for that hash.  The rows of a manifest that name the memory can have other hashes, and can
be retracted themselves.

* `Creates`, `Forgets`, `Retracts` — what a call does to the memory with an id.
* `hasMemory_of_retracts`, `listedElsewhere_of_retracts` — one retraction, called directly or by a
  pack.
* `retraction_lastWing_iff` — in every run, a memory that an import created is there after a
  retraction if and only if another wing lists it and it was not forgotten, exactly where
  `GoesWithLastWing` holds before.
* `stranded_note` — a memory that is shared again goes with the wing it came by.
-/

namespace Spectral

open Spectral.Lib

/-- A wing other than `wingId` lists the object or the memory it is held as, and has not retracted
what it lists. -/
def Store.ListedElsewhere (s : Store) (wingId hash memKey : String) : Prop :=
  ∃ m ∈ s.sharedWingMembers.rows, m.wingId ≠ wingId ∧ (m.objectHash = hash ∨ m.memKey = memKey) ∧
    m.Live s

instance (s : Store) (wingId hash memKey : String) : Decidable (s.ListedElsewhere wingId hash memKey) :=
  inferInstanceAs (Decidable (∃ m ∈ s.sharedWingMembers.rows, _ ∧ _ ∧ _))

namespace Env

variable (env : Env)

/-- The call brings a memory with this id. -/
def Creates (id : String) (s : Store) (c : Call) : Prop :=
  ¬ s.HasMemory id ∧ (env.apply s c).HasMemory id

/-- The call is a forget that takes the memory with this id away. -/
def Forgets (id : String) (s : Store) (c : Call) : Prop :=
  match c.op with
  | .forget _ => s.HasMemory id ∧ ¬ (env.apply s c).HasMemory id
  | _ => False

/-- The call retracts the hash from the wing, directly or by a pack. -/
def Retracts (wingId hash : String) (c : Call) : Prop :=
  match c.op with
  | .tombstone wing target => wing = wingId ∧ target = hash
  | .importPack pack policy => pack.wingId = wingId ∧ hash ∈ env.packRetracted policy pack
  | _ => False

instance (id : String) (s : Store) (c : Call) : Decidable (env.Creates id s c) :=
  inferInstanceAs (Decidable (_ ∧ _))

instance (id : String) (s : Store) (c : Call) : Decidable (env.Forgets id s c) :=
  match c with
  | ⟨.forget _, _⟩ => inferInstanceAs (Decidable (_ ∧ _))
  | ⟨.write _ _, _⟩ | ⟨.setSignature _ _ _, _⟩ | ⟨.share _ _, _⟩ | ⟨.importPack _ _, _⟩
  | ⟨.tombstone _ _, _⟩ => isFalse fun h => h

/-- No call of the list forgets the memory with this id. -/
def NotForgotten (id : String) (s : Store) (calls : List Call) : Prop :=
  AllSteps env.apply (fun s c => ¬ env.Forgets id s c) s calls

/-- What has to hold before a retraction from `wingId`, after the calls made `since` in the store
`s`, for the memory `r` to stay as long as another wing lists it.  While the memory is there, the
manifest of another wing has a row for its hash exactly if one lists the memory and has not retracted
it; once it is gone without a forget, no other wing lists it. -/
structure GoesWithLastWing (s : Store) (since : List Call) (wingId : String) (r : MemoryRow) : Prop where
  present : (run env.apply s since).HasMemory r.id →
    ((run env.apply s since).HeldElsewhere wingId r.id ↔
      (run env.apply s since).ListedElsewhere wingId r.id r.key)
  gone : ¬ (run env.apply s since).HasMemory r.id → env.NotForgotten r.id s since →
    ¬ (run env.apply s since).ListedElsewhere wingId r.id r.key

variable {env} {s : Store} {c : Call} {wingId hash id : String}

/-! ## One retraction -/

/-- **A retraction and the memory**: it stays if the manifest of another wing has the hash. -/
theorem hasMemory_of_retracts (h : env.Retracts wingId hash c) :
    (env.apply s c).HasMemory hash ↔ s.HasMemory hash ∧ s.HeldElsewhere wingId hash := by
  obtain ⟨op, now⟩ := c
  cases op with
  | tombstone wing target =>
    obtain ⟨rfl, rfl⟩ := h
    constructor
    · rintro ⟨r, hr, rfl⟩
      obtain ⟨hr, hkept⟩ := Store.mem_memories_applyTombstoneTx.1 hr
      exact ⟨⟨r, hr, rfl⟩, not_not.1 fun hheld => hkept ⟨rfl, hheld⟩⟩
    · rintro ⟨⟨r, hr, rfl⟩, hheld⟩
      exact ⟨r, Store.mem_memories_applyTombstoneTx.2 ⟨hr, fun hgone => hgone.2 hheld⟩, rfl⟩
  | importPack pack policy =>
    obtain ⟨rfl, hret⟩ := h
    constructor
    · rintro ⟨r, hr, rfl⟩
      rcases mem_memories_import.1 hr with ⟨hr, hkept⟩ | ⟨o, -, harr, hrow⟩
      · exact ⟨⟨r, hr, rfl⟩, not_not.1 fun hheld => hkept ⟨hret, hheld⟩⟩
      · -- what the pack retracts is not taken in
        have hadm := (mem_incoming (arrival_eq_some harr).1).2
        rw [hrow] at hret
        exact absurd hret hadm.2.1
    · rintro ⟨⟨r, hr, rfl⟩, hheld⟩
      exact ⟨r, mem_memories_import.2 (Or.inl ⟨hr, fun hgone => hgone.2 hheld⟩), rfl⟩
  | _ => exact h.elim

/-- **A retraction and the other wings**: what they list and retracted is as before. -/
theorem listedElsewhere_of_retracts (h : env.Retracts wingId hash c) (s : Store)
    (id memKey : String) :
    (env.apply s c).ListedElsewhere wingId id memKey ↔ s.ListedElsewhere wingId id memKey := by
  -- neither the manifest nor the tombstones of another wing change
  suffices hother : ∀ m : ManifestRow, m.wingId ≠ wingId →
      (m ∈ (env.apply s c).sharedWingMembers ↔ m ∈ s.sharedWingMembers) ∧
        (m.Live (env.apply s c) ↔ m.Live s) by
    constructor
    · rintro ⟨m, hm, hw, hlists, hlive⟩
      exact ⟨m, (hother m hw).1.1 hm, hw, hlists, (hother m hw).2.1 hlive⟩
    · rintro ⟨m, hm, hw, hlists, hlive⟩
      exact ⟨m, (hother m hw).1.2 hm, hw, hlists, (hother m hw).2.2 hlive⟩
  intro m hw
  obtain ⟨op, now⟩ := c
  cases op with
  | tombstone wing target =>
    obtain ⟨rfl, rfl⟩ := h
    refine ⟨Store.mem_sharedWingMembers_applyTombstoneTx.trans
      ⟨And.left, fun hm => ⟨hm, fun hown => hw hown.1⟩⟩, not_congr ?_⟩
    exact Store.isTombstoned_applyTombstoneTx.trans (or_iff_left fun hown => hw hown.1)
  | importPack pack policy =>
    obtain ⟨rfl, -⟩ := h
    refine ⟨mem_sharedWingMembers_import.trans ⟨?_, fun hm => Or.inl ⟨hm, fun hown => hw hown.1⟩⟩,
      not_congr (isTombstoned_import.trans (or_iff_left fun hown => hw hown.1))⟩
    rintro (⟨hm, -⟩ | ⟨o, -, rfl, -⟩)
    · exact hm
    · exact absurd rfl hw
  | _ => exact h.elim

/-! ## Runs -/

/-- What is gone stays away, unless a call brings it. -/
theorem not_hasMemory_run {calls : List Call} (h : ¬ s.HasMemory id)
    (honce : AllSteps env.apply (fun s c => ¬ env.Creates id s c) s calls) :
    ¬ (run env.apply s calls).HasMemory id :=
  run_invariant_of_allSteps (I := fun t => ¬ t.HasMemory id)
    (fun _ _ hgone hstep hback => hstep ⟨hgone, hback⟩) h honce

/-- A memory that is there was not forgotten. -/
theorem notForgotten_of_hasMemory {calls : List Call}
    (honce : AllSteps env.apply (fun s c => ¬ env.Creates id s c) s calls)
    (h : (run env.apply s calls).HasMemory id) : env.NotForgotten id s calls := by
  induction calls generalizing s with
  | nil => trivial
  | cons c calls ih =>
    refine ⟨fun hforgets => ?_, ih honce.2 h⟩
    have hgone : ¬ (env.apply s c).HasMemory id := by
      unfold Forgets at hforgets
      split at hforgets
      · exact hforgets.2
      · exact hforgets.elim
    exact not_hasMemory_run hgone honce.2 h

/-- **A memory goes with the last wing that lists it** exactly where `GoesWithLastWing` holds before
the retraction: in every run, for every memory of the store it starts from, those that an import
created among them.  No call made since brings another memory with its id. -/
theorem retraction_lastWing_iff (env : Env) (before since : List Call) (r : MemoryRow)
    (retraction : Call) (wingId : String)
    (honce : AllSteps env.apply (fun s c => ¬ env.Creates r.id s c) (env.runCalls before) since)
    (hret : env.Retracts wingId r.id retraction) :
    let s := env.runCalls before
    let s' := env.apply (run env.apply s since) retraction
    (s'.HasMemory r.id ↔ s'.ListedElsewhere wingId r.id r.key ∧ env.NotForgotten r.id s since) ↔
      env.GoesWithLastWing s since wingId r := by
  intro s s'
  have hmemory := hasMemory_of_retracts (s := run env.apply s since) hret
  have hlisted := listedElsewhere_of_retracts hret (run env.apply s since) r.id r.key
  rw [hmemory, hlisted]
  by_cases hthere : (run env.apply s since).HasMemory r.id
  · have hkept : env.NotForgotten r.id s since := notForgotten_of_hasMemory honce hthere
    rw [and_iff_right hthere, and_iff_left hkept]
    exact ⟨fun h => ⟨fun _ => h, fun hgone => absurd hthere hgone⟩, fun h => h.present hthere⟩
  · refine ⟨fun h => ⟨fun habs => absurd habs hthere, fun _ hkept hlists => ?_⟩, fun h => ?_⟩
    · exact hthere (h.2 ⟨hlists, hkept⟩).1
    · exact ⟨fun habs => absurd habs.1 hthere,
        fun hlists => absurd hlists.1 (h.gone hthere hlists.2)⟩

end Env

/-! ## The note in three wings -/

/-- The note that the team sent is sent for "docs" too. -/
def docsPack : Call :=
  ⟨.importPack { wingId := "docs", objects := [note] } .trustedTransport, "2026-01-03 09:00:00"⟩

/-- The team retracts the note. -/
def teamRetraction : Call :=
  ⟨.importPack { wingId := "team", tombstones := [⟨importedNoteEnv.objectHash note, none,
    "2026-01-04 09:00:00", none⟩] } .trustedTransport, "2026-01-04 10:00:00"⟩

theorem lastWing_docs :
    let s := importedNoteEnv.runCalls importedNoteCalls
    let s' := importedNoteEnv.apply (run importedNoteEnv.apply s [docsPack]) teamRetraction
    ∃ r ∈ s.memories.rows, s'.HasMemory r.id ↔ s'.ListedElsewhere "team" r.id r.key ∧
      importedNoteEnv.NotForgotten r.id s [docsPack] := by
  intro s s'
  have hrow : ∃ r ∈ s.memories.rows, r.id = importedNoteEnv.objectHash note ∧
      (¬ importedNoteEnv.Creates r.id s docsPack) ∧
      (run importedNoteEnv.apply s [docsPack]).HasMemory r.id ∧
      (run importedNoteEnv.apply s [docsPack]).HeldElsewhere "team" r.id ∧
      (run importedNoteEnv.apply s [docsPack]).ListedElsewhere "team" r.id r.key := by
    decide +kernel
  obtain ⟨r, hr, hid, honce, hthere, hheld, hlisted⟩ := hrow
  have hret : importedNoteEnv.Retracts "team" r.id teamRetraction := by
    rw [hid]
    exact ⟨rfl, List.mem_singleton_self _⟩
  exact ⟨r, hr, (Env.retraction_lastWing_iff importedNoteEnv importedNoteCalls [docsPack] r
    teamRetraction "team" ⟨honce, trivial⟩ hret).2
      ⟨fun _ => ⟨fun _ => hlisted, fun _ => hheld⟩, fun hgone => absurd hthere hgone⟩⟩

/-- The note that the team sent, shared with "ops" under its local key, goes when the team retracts
it: "ops" lists the memory and has not retracted it. -/
theorem stranded_note :
    let s := importedNoteEnv.runCalls importedNoteCalls
    let shared : Call := ⟨.share (importedNoteEnv.localKey note) "ops", "2026-01-03 09:00:00"⟩
    let s' := importedNoteEnv.apply (run importedNoteEnv.apply s [shared]) teamRetraction
    ∃ r ∈ s.memories.rows, importedNoteEnv.Retracts "team" r.id teamRetraction ∧
      ¬ s'.HasMemory r.id ∧ s'.ListedElsewhere "team" r.id r.key ∧
        importedNoteEnv.NotForgotten r.id s [shared] := by
  intro s shared s'
  have hrow : ∃ r ∈ s.memories.rows, r.id = importedNoteEnv.objectHash note ∧
      ¬ s'.HasMemory r.id ∧ s'.ListedElsewhere "team" r.id r.key ∧
        ¬ importedNoteEnv.Forgets r.id s shared := by
    decide +kernel
  obtain ⟨r, hr, hid, hgone, hlisted, hkept⟩ := hrow
  refine ⟨r, hr, ?_, hgone, hlisted, hkept, trivial⟩
  rw [hid]
  exact ⟨rfl, List.mem_singleton_self _⟩

end Spectral
