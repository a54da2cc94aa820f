import Spectral.Federation.Delivery

/-!
# Phantom hashes

`enumerate` reads the manifest only; `exportPack` joins it to the memories and re-hashes.  A
hash that is listed and cannot be shipped is a phantom.  A store is `Served` when it has
none.

`KeepsServed` says of a call, on the store before it, that it does not edit, delete or take
the place of a memory some live manifest row depends on.  `served_apply_iff` is the step:
that is exactly when a served store stays served, and `noPhantoms_iff_allSteps` the same
for runs.  Nothing in the code asks for it: editing a shared memory makes a phantom
(`phantom_note`).
-/

namespace Spectral

open Spectral.Lib

namespace Env

variable (env : Env)

/-- Every live manifest row can be shipped. -/
def Served (s : Store) : Prop :=
  ∀ m ∈ s.sharedWingMembers, m.Live s → ∃ r ∈ s.memories, r.key = m.memKey ∧ env.Rehashes m r

/-- A served store has no phantoms: every wing lists what it can ship. -/
theorem served_iff (s : Store) :
    env.Served s ↔ ∀ w hash, hash ∈ s.enumerate w ↔ hash ∈ env.exportHashes s w := by
  constructor
  · intro h w hash
    refine ⟨fun hen => ?_, mem_enumerate_of_mem_exportHashes⟩
    obtain ⟨m, hm, rfl, rfl, hlive⟩ := Store.mem_enumerate.1 hen
    obtain ⟨r, hr, hk, hre⟩ := h m hm hlive
    exact mem_exportHashes.2 ⟨m, hm, r, hr, rfl, rfl, hlive, hk, hre⟩
  · intro h m hm hlive
    have hen : m.objectHash ∈ s.enumerate m.wingId := Store.mem_enumerate.2 ⟨m, hm, rfl, rfl, hlive⟩
    obtain ⟨m', hm', r, hr, hw, hh, -, hk, hre⟩ := mem_exportHashes.1 ((h _ _).1 hen)
    have hmm : m' = m := Store.eq_of_manifest_pk hm' hm hw hh
    subst hmm
    exact ⟨r, hr, hk, hre⟩

/-- What a call must leave alone to make no phantom, read off the store before it.  A share
needs nothing. -/
def KeepsServed (s : Store) (c : Call) : Prop :=
  match c.op with
  | .write memory fingerprints =>
    -- the text written under a key is that of every live object shared from it
    (env.writeMemoryInTx c.now s memory fingerprints).isOk → ∀ m ∈ s.sharedWingMembers.rows,
      m.Live s → m.memKey = memory.key → env.Rehashes m (env.writtenRow c.now s memory)
  | .setSignature memoryId sourceBrainId signature =>
    -- so is the author
    ∀ m ∈ s.sharedWingMembers.rows, m.Live s → ∀ r ∈ s.memories.rows,
      r.key = m.memKey → r.id = memoryId →
        env.Rehashes m { r with sourceBrainId := some sourceBrainId, signature := some signature }
  | .forget key =>
    -- no live object is shared from the key
    ∀ m ∈ s.sharedWingMembers.rows, m.Live s → m.memKey ≠ key
  | .share _ _ => True
  | .importPack pack policy =>
    -- the pack delivers, and deletes the memory of no object that stays
    (∀ o ∈ env.incoming policy pack s pack.objects, env.Delivers c.now policy pack s o) ∧
      ∀ m ∈ s.sharedWingMembers.rows, m.Live s →
        ¬ (m.wingId = pack.wingId ∧ m.objectHash ∈ env.packRetracted policy pack) →
          ∀ r ∈ s.memories.rows, r.key = m.memKey → ¬ env.Doomed policy pack s r
  | .tombstone wingId targetHash =>
    -- the retraction deletes the memory of no object that stays
    ∀ m ∈ s.sharedWingMembers.rows, m.Live s → ¬ (m.wingId = wingId ∧ m.objectHash = targetHash) →
      ∀ r ∈ s.memories.rows, r.key = m.memKey →
        ¬ (r.id = targetHash ∧ ¬ s.HeldElsewhere wingId targetHash)

variable {env} {s t : Store}

/-! ## One call -/

/-- Calls that touch neither the manifest nor the tombstones are judged by the memories they
leave. -/
theorem served_of_same_manifest (hm : t.sharedWingMembers = s.sharedWingMembers)
    (ht : t.syncTombstones = s.syncTombstones) :
    env.Served t ↔ ∀ m ∈ s.sharedWingMembers, m.Live s →
      ∃ r ∈ t.memories, r.key = m.memKey ∧ env.Rehashes m r := by
  unfold Served ManifestRow.Live Store.IsTombstoned
  rw [hm, ht]

theorem served_write_iff (h : env.Served s) (now : String) (memory : Memory)
    (fps : List Fingerprint) :
    env.Served (env.write now s memory fps) ↔ env.KeepsServed s ⟨.write memory fps, now⟩ := by
  unfold KeepsServed
  dsimp only
  rcases write_cases env now s memory fps with ⟨hok, heq⟩ | ⟨hok, hw⟩
  · rw [heq]
    simp [hok, h]
  · rw [served_of_same_manifest hw.sharedWingMembers hw.syncTombstones]
    simp only [hok, forall_const]
    refine forall₃_congr fun m hm hlive => ?_
    constructor
    · rintro ⟨r, hr, hk, hre⟩ hkey
      rcases (hw.mem_memories r).1 hr with ⟨-, hne⟩ | rfl
      · exact absurd (hk.trans hkey) hne
      · exact hre
    · intro hwritten
      by_cases hkey : m.memKey = memory.key
      · exact ⟨_, (hw.mem_memories _).2 (Or.inr rfl), by simp [hkey], hwritten hkey⟩
      · obtain ⟨r, hr, hk, hre⟩ := h m hm hlive
        exact ⟨r, (hw.mem_memories r).2 (Or.inl ⟨hr, fun e => hkey (hk.symm.trans e)⟩), hk, hre⟩

theorem served_setSignature_iff (h : env.Served s) (now id : String) (brain : Bytes32)
    (sig : List UInt8) :
    env.Served (s.setSignature id brain sig) ↔
      env.KeepsServed s ⟨.setSignature id brain sig, now⟩ := by
  rw [served_of_same_manifest rfl rfl]
  refine forall₃_congr fun m hm hlive => ?_
  constructor
  · rintro ⟨r', hr', hk', hre⟩ r hr hk hid
    obtain ⟨r₀, hr₀, rfl⟩ := Store.mem_memories_setSignature.1 hr'
    have hsame : r₀ = r := by
      refine Store.eq_of_key hr₀ hr ?_
      rw [hk, ← hk']
      split <;> rfl
    subst hsame
    rwa [if_pos hid] at hre
  · intro hsigned
    obtain ⟨r, hr, hk, hre⟩ := h m hm hlive
    refine ⟨_, Store.mem_memories_setSignature.2 ⟨r, hr, rfl⟩, ?_⟩
    by_cases hid : r.id = id
    · rw [if_pos hid]
      exact ⟨hk, hsigned r hr hk hid⟩
    · rw [if_neg hid]
      exact ⟨hk, hre⟩

theorem served_forget_iff (h : env.Served s) (now key : String) :
    env.Served (s.deleteMemoryByKey now key).1 ↔ env.KeepsServed s ⟨.forget key, now⟩ := by
  rw [served_of_same_manifest Store.sharedWingMembers_deleteMemoryByKey
    Store.syncTombstones_deleteMemoryByKey]
  refine forall₃_congr fun m hm hlive => ?_
  simp only [Store.mem_memories_deleteMemoryByKey]
  constructor
  · rintro ⟨r, ⟨-, hne⟩, hk, -⟩ hkey
    exact hne (hk.trans hkey)
  · intro hne
    obtain ⟨r, hr, hk, hre⟩ := h m hm hlive
    exact ⟨r, ⟨hr, fun e => hne (hk.symm.trans e)⟩, hk, hre⟩

theorem served_share (h : env.Served s) (memKey wingId : String) :
    env.Served (env.shared s memKey wingId) := by
  rcases shared_cases env s memKey wingId with ⟨-, heq⟩ | ⟨o, ho, heq⟩
  · rwa [heq]
  · rw [heq]
    intro m hm hlive
    rcases Table.mem_insertOrIgnore.1 hm with hm | ⟨rfl, -⟩
    · exact h m hm hlive
    · obtain ⟨r, hr, rfl⟩ := Option.map_eq_some_iff.1 ho
      obtain ⟨hmem, hk⟩ := Store.memoryByKey_eq_some.1 hr
      exact ⟨r, hmem, hk, rehashes_sharedRow⟩

theorem served_tombstone_iff (h : env.Served s) (now w target : String) :
    env.Served (s.tombstone now w target) ↔ env.KeepsServed s ⟨.tombstone w target, now⟩ := by
  unfold Served KeepsServed Store.tombstone
  simp only [Store.mem_sharedWingMembers_applyTombstoneTx, Store.mem_memories_applyTombstoneTx,
    ManifestRow.Live, Store.isTombstoned_applyTombstoneTx, Table.mem_rows]
  constructor
  · intro hserved m hm hlive hkeep r hr hk
    obtain ⟨r', ⟨hr', hkept⟩, hk', -⟩ := hserved m ⟨hm, hkeep⟩ fun ht => ht.elim hlive hkeep
    rwa [Store.eq_of_key hr hr' (hk.trans hk'.symm)]
  · rintro hsafe m ⟨hm, hkeep⟩ hlive
    have hlive' : m.Live s := fun ht => hlive (Or.inl ht)
    obtain ⟨r, hr, hk, hre⟩ := h m hm hlive'
    exact ⟨r, ⟨hr, hsafe m hm hlive' hkeep r hr hk⟩, hk, hre⟩

theorem served_import_iff (h : env.Served s) (now : String) (pack : Pack) (policy : ImportPolicy) :
    env.Served (env.importPackWithPolicy now s pack policy).1 ↔
      env.KeepsServed s ⟨.importPack pack policy, now⟩ := by
  unfold KeepsServed
  dsimp only
  constructor
  · intro hserved
    refine ⟨fun o ho => (mem_exportHashes_import_iff ho).1 ?_, fun m hm hlive hkeep r hr hk => ?_⟩
    · have hpk := pk_entry env s pack.wingId o
      exact ((served_iff env _).1 hserved _ _).1 (Store.mem_enumerate.2
        ⟨_, entry_mem_import ho, congrArg Prod.fst hpk, congrArg Prod.snd hpk, fun ht => by
          have hadm := (mem_incoming ho).2
          rcases isTombstoned_import.1 ht with ht | ⟨-, hret⟩
          · exact hadm.2.2 ht
          · exact hadm.2.1 hret⟩)
    · obtain ⟨r', hr', hk', -⟩ := hserved m (mem_sharedWingMembers_import.2 (Or.inl ⟨hm, hkeep⟩))
        fun ht => (isTombstoned_import.1 ht).elim hlive hkeep
      rcases mem_memories_import_key.1 ⟨hr', hk'⟩ with ⟨hr', -, hkept⟩ | ⟨hnone, -⟩
      · rwa [Store.eq_of_key hr hr' (hk.trans hk'.symm)]
      · exact absurd hk (Store.memoryByKey_eq_none.1 hnone r hr)
  · rintro ⟨hdeliver, hsafe⟩ m hm hlive
    rcases mem_sharedWingMembers_import.1 hm with ⟨hm', hkeep⟩ | ⟨o, ho, rfl, -⟩
    · have hlive' : m.Live s := fun ht => hlive (isTombstoned_import.2 (Or.inl ht))
      obtain ⟨r, hr, hk, hre⟩ := h m hm' hlive'
      obtain ⟨hr', hk'⟩ :=
        mem_memories_import_key.2 (Or.inl ⟨hr, hk, hsafe m hm' hlive' hkeep r hr hk⟩)
      exact ⟨r, hr', hk', hre⟩
    · obtain ⟨m', hm', r, hr, hw, hh, -, hk, hre⟩ :=
        mem_exportHashes.1 ((mem_exportHashes_import_iff ho).2 (hdeliver o ho))
      have hsame : m' = env.member s pack.wingId o := Store.eq_of_manifest_pk hm' hm hw hh
      exact ⟨r, hr, hsame ▸ hk, hsame ▸ hre⟩

/-- **One call.**  A served store stays served exactly under `KeepsServed`. -/
theorem served_apply_iff (s : Store) (c : Call) (h : env.Served s) :
    env.Served (env.apply s c) ↔ env.KeepsServed s c := by
  obtain ⟨op, now⟩ := c
  cases op with
  | write memory fps => exact served_write_iff h now memory fps
  | setSignature id brain sig => exact served_setSignature_iff h now id brain sig
  | forget key => exact served_forget_iff h now key
  | share memKey wingId => exact iff_of_true (served_share h memKey wingId) trivial
  | importPack pack policy => exact served_import_iff h now pack policy
  | tombstone w target => exact served_tombstone_iff h now w target

/-! ## Runs -/

/-- **No phantom hashes.**  In a run from the empty store, every wing lists in every state
exactly the hashes it can ship, if and only if every call keeps the store served. -/
theorem noPhantoms_iff_allSteps (env : Env) (calls : List Call) :
    (∀ past, past <+: calls → ∀ w hash, hash ∈ (env.runCalls past).enumerate w ↔
      hash ∈ env.exportHashes (env.runCalls past) w) ↔
    AllSteps env.apply env.KeepsServed {} calls := by
  have hempty : env.Served {} := fun m hm => absurd hm (Table.not_mem_empty m)
  rw [allSteps_iff_forall_past served_apply_iff hempty]
  exact forall₂_congr fun past _ => (served_iff env _).symm

end Env

/-- The note is written, shared and edited: its hash is still listed and can no longer be
shipped. -/
theorem phantom_note :
    let s := noteEnv.runCalls (noteCalls ++
      [⟨.write { noteMemory with content := editedNote.content } [], "2026-01-01 09:10:00"⟩])
    s.enumerate "team" = [noteEnv.objectHash note] ∧ noteEnv.exportHashes s "team" = [] := by
  decide +kernel

end Spectral
