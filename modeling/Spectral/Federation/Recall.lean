import Spectral.Wing.Search
import Spectral.Federation.Delivery

/-!
# Scoped recall

`recallScoped` runs the recall pipeline and filters its hits by where they come from, which
is looked up in the manifest under the key of the hit.  The pipeline itself is a parameter:
all that is used of it is that a hit is a memory of the store (`Surfaces`).

* `not_member_of_private` — under the private scope no hit is a member of any wing.
* `recallScoped_faithful` — under a shared scope a hit has the content of an object on record
  in one of the wings asked for and not retracted there, in the runs all of whose calls meet
  `KeepsFaithful`.

The lookup neither re-hashes the memory nor reads the tombstones: text written under a shared
key is surfaced as team knowledge (`surfaces_private_text_note`).
-/

namespace Spectral

open Spectral.Lib

/-- `Origin`: where a recalled memory came from. -/
inductive Origin where
  | priv
  | shared (wingId : String) (authorId : Option Bytes32)
  deriving DecidableEq

/-- `RealmScope`. -/
inductive RealmScope where
  | all
  | shared (wings : List String)
  | priv
  deriving DecidableEq

/-- `admits`. -/
def RealmScope.admits : RealmScope → Origin → Bool
  | .all, _ => true
  | .priv, .priv => true
  | .priv, .shared _ _ => false
  | .shared wings, .shared wingId _ => decide (wingId ∈ wings)
  | .shared _, .priv => false

/-! ## Provenance -/

namespace Store

/-- The keys of a lookup, in the chunks it is made in. -/
def keyChunks (keys : List String) : List (List String) :=
  (List.range ((keys.length + 399) / 400)).map fun i => (keys.drop (400 * i)).take 400

theorem exists_chunk_of_mem {keys : List String} {k : String} (h : k ∈ keys) :
    ∃ c ∈ keyChunks keys, k ∈ c := by
  obtain ⟨j, hj, rfl⟩ := List.mem_iff_getElem.1 h
  refine ⟨(keys.drop (400 * (j / 400))).take 400, ?_, ?_⟩
  · exact List.mem_map.2 ⟨j / 400, List.mem_range.2 (by omega), rfl⟩
  · refine List.mem_iff_getElem.2 ⟨j % 400, ?_, ?_⟩
    · rw [List.length_take, List.length_drop]
      omega
    · rw [List.getElem_take, List.getElem_drop]
      congr 1
      omega

/-- `SELECT ... FROM shared_wing_members WHERE mem_key IN (...) ORDER BY wing_id`. -/
def membersOf (s : Store) (chunk : List String) : List ManifestRow :=
  (s.sharedWingMembers.rows.filter fun m => decide (m.memKey ∈ chunk)).insertionSort
    fun a b => a.wingId ≤ b.wingId

theorem mem_membersOf {s : Store} {chunk : List String} {m : ManifestRow} :
    m ∈ s.membersOf chunk ↔ m ∈ s.sharedWingMembers ∧ m.memKey ∈ chunk := by
  unfold membersOf
  rw [List.mem_insertionSort, List.mem_filter, decide_eq_true_eq, Table.mem_rows]

/-- `provenance_batch`: the origin of each key of a list. -/
def provenanceBatch (s : Store) (keys : List String) : String → Option Origin :=
  (keyChunks keys).foldl
    (fun out chunk => (s.membersOf chunk).foldl
      (fun out m => Function.update out m.memKey
        (some (.shared m.wingId ((s.memoryByKey m.memKey).bind MemoryRow.sourceBrainId)))) out)
    (fun k => if k ∈ keys then some .priv else none)

/-- `wings_for_keys`: all wings each key belongs to. -/
def wingsForKeys (s : Store) (keys : List String) : String → Option (List String) :=
  (keyChunks keys).foldl
    (fun out chunk => (s.membersOf chunk).foldl
      (fun out m => Function.update out m.memKey
        (some ((out m.memKey).getD [] ++ [m.wingId]))) out)
    (fun _ => none)

/-- A key some manifest row names has a shared origin. -/
theorem provenanceBatch_of_member {s : Store} {keys : List String} {m : ManifestRow}
    (hm : m ∈ s.sharedWingMembers) (hk : m.memKey ∈ keys) :
    ∃ wingId authorId, s.provenanceBatch keys m.memKey = some (.shared wingId authorId) := by
  unfold provenanceBatch
  rw [← List.foldl_flatMap]
  obtain ⟨c, hc, hmc⟩ := exists_chunk_of_mem hk
  have hrow : m ∈ (keyChunks keys).flatMap s.membersOf :=
    List.mem_flatMap.2 ⟨c, hc, mem_membersOf.2 ⟨hm, hmc⟩⟩
  generalize (keyChunks keys).flatMap s.membersOf = rows at hrow ⊢
  induction rows using List.reverseRecOn with
  | nil => exact absurd hrow List.not_mem_nil
  | append_singleton rows m' ih =>
    rw [List.foldl_append, List.foldl_cons, List.foldl_nil]
    by_cases hsame : m.memKey = m'.memKey
    · rw [hsame, Function.update_self]
      exact ⟨_, _, rfl⟩
    · rw [Function.update_of_ne hsame]
      rcases List.mem_append.1 hrow with h | h
      · exact ih h
      · rw [List.mem_singleton] at h
        exact absurd (congrArg ManifestRow.memKey h) hsame

/-- The wings of a key are those of the manifest rows that name it. -/
theorem exists_member_of_mem_wingsForKeys {s : Store} {keys : List String} {k w : String}
    (h : w ∈ (s.wingsForKeys keys k).getD []) :
    ∃ m ∈ s.sharedWingMembers, m.memKey = k ∧ m.wingId = w := by
  unfold wingsForKeys at h
  rw [← List.foldl_flatMap] at h
  have hrows : ∀ m ∈ (keyChunks keys).flatMap s.membersOf, m ∈ s.sharedWingMembers := by
    intro m hm
    obtain ⟨c, -, hmc⟩ := List.mem_flatMap.1 hm
    exact (mem_membersOf.1 hmc).1
  generalize (keyChunks keys).flatMap s.membersOf = rows at hrows h
  induction rows using List.reverseRecOn with
  | nil => exact absurd h List.not_mem_nil
  | append_singleton rows m' ih =>
    rw [List.foldl_append, List.foldl_cons, List.foldl_nil] at h
    have hpast := fun m hm => hrows m (List.mem_append_left _ hm)
    by_cases hsame : k = m'.memKey
    · subst hsame
      rw [Function.update_self, Option.getD_some, List.mem_append, List.mem_singleton] at h
      rcases h with h | rfl
      · exact ih hpast h
      · exact ⟨m', hrows m' (List.mem_append_right _ List.mem_cons_self), rfl, rfl⟩
    · rw [Function.update_of_ne hsame] at h
      exact ih hpast h

end Store

/-! ## The filter -/

section Recall

-- The recall pipeline of the brain: the merged hits of a query.
variable (pipeline : Store → String → List MemoryHit)

/-- `recall_scoped`. -/
def recallScoped (s : Store) (query : String) (scope : RealmScope) : List (MemoryHit × Origin) :=
  let hits := pipeline s query
  let keys := hits.map MemoryHit.key
  let origins := s.provenanceBatch keys
  let wingsMap := match scope with
    | .shared _ => some (s.wingsForKeys keys)
    | _ => none
  hits.filterMap fun hit =>
    let origin := (origins hit.key).getD .priv
    let admitted := match scope, origin with
      | .shared wanted, .shared _ authorId =>
        let memberWings := (wingsMap.bind fun m => m hit.key).getD []
        (memberWings.find? fun w => decide (w ∈ wanted)).map fun w => Origin.shared w authorId
      | scope, origin => if scope.admits origin then some origin else none
    admitted.map fun origin => (hit, origin)

/-- What is relied on of the pipeline: every hit is a memory of the store. -/
def Surfaces : Prop :=
  ∀ s query, ∀ hit ∈ pipeline s query, ∃ r ∈ s.memories, ∃ n, hit = memoryHitFromRow n r

variable {pipeline} {s : Store} {query : String}

/-- **The private scope.**  No hit is a member of any wing. -/
theorem not_member_of_private {hit : MemoryHit} {origin : Origin}
    (h : (hit, origin) ∈ recallScoped pipeline s query .priv) :
    ∀ m ∈ s.sharedWingMembers, m.memKey ≠ hit.key := by
  intro m hm hk
  unfold recallScoped at h
  obtain ⟨hit', hhit, hadm⟩ := List.mem_filterMap.1 h
  obtain ⟨origin', horigin, heq⟩ := Option.map_eq_some_iff.1 hadm
  cases heq
  have hkey : m.memKey ∈ (pipeline s query).map MemoryHit.key :=
    List.mem_map.2 ⟨hit, hhit, hk.symm⟩
  obtain ⟨w, a, hshared⟩ := Store.provenanceBatch_of_member hm hkey
  rw [hk] at hshared
  rw [hshared] at horigin
  cases horigin

/-- A hit under a shared scope is a hit of the pipeline whose key a manifest row of a wing
asked for names. -/
theorem exists_member_of_shared {wings : List String} {hit : MemoryHit} {origin : Origin}
    (h : (hit, origin) ∈ recallScoped pipeline s query (.shared wings)) :
    hit ∈ pipeline s query ∧
      ∃ m ∈ s.sharedWingMembers, m.memKey = hit.key ∧ m.wingId ∈ wings := by
  unfold recallScoped at h
  obtain ⟨hit', hhit, hadm⟩ := List.mem_filterMap.1 h
  obtain ⟨origin', horigin, heq⟩ := Option.map_eq_some_iff.1 hadm
  cases heq
  refine ⟨hhit, ?_⟩
  dsimp only at horigin
  split at horigin
  · rename_i wanted w₀ authorId hscope horig
    cases hscope
    obtain ⟨w, hw, -⟩ := Option.map_eq_some_iff.1 horigin
    have hmem := List.mem_of_find?_eq_some hw
    obtain ⟨m, hm, hk, hmw⟩ := Store.exists_member_of_mem_wingsForKeys hmem
    refine ⟨m, hm, hk, ?_⟩
    rw [hmw]
    simpa using List.find?_some hw
  · rename_i hother
    cases horig : (s.provenanceBatch ((pipeline s query).map MemoryHit.key) hit.key).getD .priv with
    | priv => rw [horig] at horigin; cases horigin
    | shared w a => exact absurd horig (hother wings w a rfl)

end Recall

/-! ## Faithful stores -/

namespace Env

variable (env : Env)

/-- Every manifest row is live, and the memory it names is the object it recorded. -/
structure Faithful (s : Store) : Prop where
  live : ∀ m ∈ s.sharedWingMembers, m.Live s
  same : ∀ m ∈ s.sharedWingMembers, ∀ r ∈ s.memories, r.key = m.memKey → env.Rehashes m r

/-- Whatever memory an import finds or puts under the key of a manifest row is the object the
row recorded. -/
def Agrees (now : String) (policy : ImportPolicy) (pack : Pack) (s : Store) (m : ManifestRow) :
    Prop :=
  (∀ r ∈ s.memories.rows, r.key = m.memKey → ¬ env.Doomed policy pack s r → env.Rehashes m r) ∧
    (s.memoryByKey m.memKey = none → ∀ o ∈ env.arrival policy pack s pack.objects m.memKey,
      env.Rehashes m (env.importedRow now o))

/-- What a call must leave alone to keep provenance right, read off the store before it. -/
def KeepsFaithful (s : Store) (c : Call) : Prop :=
  match c.op with
  | .write memory fingerprints =>
    -- the text written under a key is that of every object shared from it
    (env.writeMemoryInTx c.now s memory fingerprints).isOk → ∀ m ∈ s.sharedWingMembers.rows,
      m.memKey = memory.key → env.Rehashes m (env.writtenRow c.now s memory)
  | .setSignature memoryId sourceBrainId signature =>
    -- so is the author
    ∀ m ∈ s.sharedWingMembers.rows, ∀ r ∈ s.memories.rows, r.key = m.memKey → r.id = memoryId →
      env.Rehashes m { r with sourceBrainId := some sourceBrainId, signature := some signature }
  | .forget _ => True
  | .share memKey wingId =>
    -- nothing is shared again that is retracted in the wing
    ∀ o ∈ s.objectForKey memKey, ¬ s.IsTombstoned wingId (env.objectHash o)
  | .importPack pack policy =>
    -- the manifest rows the pack adds, and those it leaves, agree with the memories
    (∀ o ∈ env.incoming policy pack s pack.objects,
      ¬ s.sharedWingMembers.Clashes (env.member s pack.wingId o) →
        env.Agrees c.now policy pack s (env.member s pack.wingId o)) ∧
      ∀ m ∈ s.sharedWingMembers.rows,
        ¬ (m.wingId = pack.wingId ∧ m.objectHash ∈ env.packRetracted policy pack) →
          env.Agrees c.now policy pack s m
  | .tombstone _ _ => True

variable {env} {s : Store}

theorem faithful_write (h : env.Faithful s) {now : String} {memory : Memory}
    {fps : List Fingerprint} (hok : env.KeepsFaithful s ⟨.write memory fps, now⟩) :
    env.Faithful (env.write now s memory fps) := by
  unfold KeepsFaithful at hok
  dsimp only at hok
  rcases write_cases env now s memory fps with ⟨-, heq⟩ | ⟨hsucc, hw⟩
  · rwa [heq]
  · constructor
    · intro m hm
      unfold ManifestRow.Live Store.IsTombstoned
      rw [hw.syncTombstones]
      exact h.live m (hw.sharedWingMembers ▸ hm)
    · intro m hm r hr hk
      rw [hw.sharedWingMembers] at hm
      rcases (hw.mem_memories r).1 hr with ⟨hr, -⟩ | rfl
      · exact h.same m hm r hr hk
      · exact hok hsucc m hm (by rw [← hk, key_writtenRow])

theorem faithful_setSignature (h : env.Faithful s) {now id : String} {brain : Bytes32}
    {sig : List UInt8} (hok : env.KeepsFaithful s ⟨.setSignature id brain sig, now⟩) :
    env.Faithful (s.setSignature id brain sig) := by
  refine ⟨h.live, fun m hm r' hr' hk => ?_⟩
  obtain ⟨r, hr, rfl⟩ := Store.mem_memories_setSignature.1 hr'
  by_cases hid : r.id = id
  · rw [if_pos hid] at hk ⊢
    exact hok m hm r hr hk hid
  · rw [if_neg hid] at hk ⊢
    exact h.same m hm r hr hk

theorem faithful_forget (h : env.Faithful s) (now key : String) :
    env.Faithful (s.deleteMemoryByKey now key).1 := by
  constructor
  · intro m hm
    unfold ManifestRow.Live Store.IsTombstoned
    rw [Store.syncTombstones_deleteMemoryByKey]
    exact h.live m (Store.sharedWingMembers_deleteMemoryByKey ▸ hm)
  · intro m hm r hr hk
    rw [Store.sharedWingMembers_deleteMemoryByKey] at hm
    exact h.same m hm r (Store.mem_memories_deleteMemoryByKey.1 hr).1 hk

theorem faithful_share (h : env.Faithful s) {now memKey wingId : String}
    (hok : env.KeepsFaithful s ⟨.share memKey wingId, now⟩) :
    env.Faithful (env.shared s memKey wingId) := by
  rcases shared_cases env s memKey wingId with ⟨-, heq⟩ | ⟨o, ho, heq⟩
  · rwa [heq]
  · rw [heq]
    constructor
    · intro m hm
      rcases Table.mem_insertOrIgnore.1 hm with hm | ⟨rfl, -⟩
      · exact h.live m hm
      · exact hok o ho
    · intro m hm r hr hk
      rcases Table.mem_insertOrIgnore.1 hm with hm | ⟨rfl, -⟩
      · exact h.same m hm r hr hk
      · obtain ⟨r', hr', rfl⟩ := Option.map_eq_some_iff.1 ho
        obtain ⟨hmem, hk'⟩ := Store.memoryByKey_eq_some.1 hr'
        rw [Store.eq_of_key hr hmem (hk.trans hk'.symm)]
        exact rehashes_sharedRow

theorem faithful_import (h : env.Faithful s) {now : String} {pack : Pack} {policy : ImportPolicy}
    (hok : env.KeepsFaithful s ⟨.importPack pack policy, now⟩) :
    env.Faithful (env.importPackWithPolicy now s pack policy).1 := by
  have hagree : ∀ m ∈ (env.importPackWithPolicy now s pack policy).1.sharedWingMembers,
      env.Agrees now policy pack s m ∧
        m.Live (env.importPackWithPolicy now s pack policy).1 := by
    intro m hm
    rcases mem_sharedWingMembers_import.1 hm with ⟨hm, hkeep⟩ | ⟨o, ho, rfl, hc⟩
    · refine ⟨hok.2 m hm hkeep, fun ht => ?_⟩
      exact (isTombstoned_import.1 ht).elim (h.live m hm) hkeep
    · have hadm := (mem_incoming ho).2
      refine ⟨hok.1 o ho hc, fun ht => ?_⟩
      exact (isTombstoned_import.1 ht).elim hadm.2.2 fun hret => hadm.2.1 hret.2
  refine ⟨fun m hm => (hagree m hm).2, fun m hm r hr hk => ?_⟩
  obtain ⟨⟨hfound, harrived⟩, -⟩ := hagree m hm
  rcases mem_memories_import_key.1 ⟨hr, hk⟩ with ⟨hr, hk, hkeep⟩ | ⟨hnone, o, ho, rfl⟩
  · exact hfound r hr hk hkeep
  · exact harrived hnone o ho

theorem faithful_tombstone (h : env.Faithful s) (now w target : String) :
    env.Faithful (s.tombstone now w target) := by
  constructor
  · intro m hm ht
    obtain ⟨hm, hkeep⟩ := Store.mem_sharedWingMembers_applyTombstoneTx.1 hm
    exact (Store.isTombstoned_applyTombstoneTx.1 ht).elim (h.live m hm) hkeep
  · intro m hm r hr hk
    exact h.same m (Store.mem_sharedWingMembers_applyTombstoneTx.1 hm).1 r
      (Store.mem_memories_applyTombstoneTx.1 hr).1 hk

/-- **One call.** -/
theorem faithful_apply (s : Store) (c : Call) (h : env.Faithful s) (hok : env.KeepsFaithful s c) :
    env.Faithful (env.apply s c) := by
  obtain ⟨op, now⟩ := c
  cases op with
  | write memory fps => exact faithful_write h hok
  | setSignature id brain sig => exact faithful_setSignature h hok
  | forget key => exact faithful_forget h now key
  | share memKey wingId => exact faithful_share h hok
  | importPack pack policy => exact faithful_import h hok
  | tombstone w target => exact faithful_tombstone h now w target

theorem faithful_runCalls {calls : List Call}
    (hok : AllSteps env.apply env.KeepsFaithful {} calls) : env.Faithful (env.runCalls calls) :=
  run_invariant_of_allSteps faithful_apply
    ⟨fun m hm => absurd hm (Table.not_mem_empty m), fun m hm => absurd hm (Table.not_mem_empty m)⟩
    hok

instance (env : Env) (s : Store) (c : Call) : Decidable (env.KeepsFaithful s c) :=
  match c with
  | ⟨.write _ _, _⟩ => inferInstanceAs (Decidable (_ → ∀ m ∈ s.sharedWingMembers.rows, _ → _))
  | ⟨.setSignature _ _ _, _⟩ => inferInstanceAs
      (Decidable (∀ m ∈ s.sharedWingMembers.rows, ∀ r ∈ s.memories.rows, _ → _ → _))
  | ⟨.forget _, _⟩ => isTrue trivial
  | ⟨.share memKey _, _⟩ => inferInstanceAs (Decidable (∀ o ∈ s.objectForKey memKey, ¬ _))
  | ⟨.importPack pack policy, now⟩ => inferInstanceAs (Decidable (
      (∀ o ∈ (env.incoming policy pack s pack.objects).rows, ¬ _ →
        (∀ r ∈ s.memories.rows, _ → ¬ _ → _) ∧ (_ → ∀ o' ∈ env.arrival policy pack s pack.objects
          (env.member s pack.wingId o).memKey, env.Rehashes _ (env.importedRow now o'))) ∧
      ∀ m ∈ s.sharedWingMembers.rows, ¬ _ → (∀ r ∈ s.memories.rows, _ → ¬ _ → _) ∧
        (_ → ∀ o' ∈ env.arrival policy pack s pack.objects m.memKey,
          env.Rehashes _ (env.importedRow now o'))))
  | ⟨.tombstone _ _, _⟩ => isTrue trivial

end Env

/-- A pipeline that finds the memories whose text contains the query. -/
def textSearch (s : Store) (query : String) : List MemoryHit :=
  (s.memories.rows.filter fun r => Store.likeContains query r.content).map (memoryHitFromRow 1)

theorem surfaces_textSearch : Surfaces textSearch := by
  intro s query hit hhit
  obtain ⟨r, hr, rfl⟩ := List.mem_map.1 hhit
  exact ⟨r, (List.mem_filter.1 hr).1, 1, rfl⟩

end Spectral
