import Spectral.Brain.Forget

/-!
# Repair and authorship

A repair signs every memory it reaches that has no signature, and with its signature the
memory gets this brain as its source.  A memory imported from a peer has no signature of its
own: its attestation is in the manifest.

* `Resigned` — what a repair does to a store, as far as authors and wire objects go.
* `KeepsAuthors` — a row by another brain keeps its author, and every wing its export.
* `Signable` — a row that can be signed without either being lost.
* `keepsAuthors_iff_signable` — a repair keeps authors exactly when every row it signs is one.
* `repair_resigns_imported_note` — an imported note that changes its author and is shipped no
  more.
-/

namespace Spectral

open Spectral.Lib

/-! ## Exports -/

/-- The object a manifest row is shipped as, if it is. -/
def Env.wireObject (env : Env) (s : Store) (m : ManifestRow) : Option MemoryObject :=
  (s.memoryByKey m.memKey).bind fun r => if env.Rehashes m r then some (m.rebuild r) else none

namespace Env

variable {env : Env} {s s' : Store} {m : ManifestRow} {o : MemoryObject}

theorem objectHash_of_wireObject (h : env.wireObject s m = some o) : env.objectHash o = m.objectHash := by
  obtain ⟨r, -, hr⟩ := Option.bind_eq_some_iff.1 h
  split at hr
  · rename_i hre
    cases hr
    exact hre
  · cases hr

/-- The export of a wing determines what its live manifest rows are shipped as. -/
theorem wireObject_of_exportPack_eq (hmembers : s'.sharedWingMembers = s.sharedWingMembers)
    (h : env.exportPack s' m.wingId = env.exportPack s m.wingId) (hm : m ∈ s.liveMembers m.wingId)
    (ho : env.wireObject s m = some o) : env.wireObject s' m = some o := by
  have hin : o ∈ (env.exportPack s m.wingId).objects := List.mem_filterMap.2 ⟨m, hm, ho⟩
  rw [← h] at hin
  obtain ⟨m', hm', ho'⟩ := List.mem_filterMap.1 hin
  obtain ⟨hmem, hwing, -⟩ := Store.mem_liveMembers.1 hm'
  rw [hmembers] at hmem
  have hsame : m' = m := Store.eq_of_manifest_pk hmem (Store.mem_liveMembers.1 hm).1 hwing
    ((objectHash_of_wireObject ho').symm.trans (objectHash_of_wireObject ho))
  exact hsame ▸ ho'

/-- Two stores with the same manifest and retractions export the same exactly when each live
manifest row is shipped as the same object. -/
theorem exportPack_eq_iff (hmembers : s'.sharedWingMembers = s.sharedWingMembers)
    (htombstones : s'.syncTombstones = s.syncTombstones) :
    (∀ wingId, env.exportPack s' wingId = env.exportPack s wingId) ↔
      ∀ m ∈ s.sharedWingMembers, m.Live s → env.wireObject s' m = env.wireObject s m := by
  have hlive : ∀ wingId, s'.liveMembers wingId = s.liveMembers wingId := by
    intro wingId
    have htomb : ∀ hash, s'.IsTombstoned wingId hash ↔ s.IsTombstoned wingId hash := by
      intro hash
      unfold Store.IsTombstoned
      rw [htombstones]
    unfold Store.liveMembers
    simp only [hmembers, htomb]
  constructor
  · intro h m hm ht
    have hin : m ∈ s.liveMembers m.wingId := Store.mem_liveMembers.2 ⟨hm, rfl, ht⟩
    refine Option.ext fun o => ⟨fun ho => ?_, wireObject_of_exportPack_eq hmembers (h m.wingId) hin⟩
    exact wireObject_of_exportPack_eq hmembers.symm (h m.wingId).symm (hlive m.wingId ▸ hin) ho
  · intro h wingId
    have hobjects : env.exportObjects s' wingId = env.exportObjects s wingId := by
      change (s'.liveMembers wingId).filterMap (env.wireObject s') =
        (s.liveMembers wingId).filterMap (env.wireObject s)
      rw [hlive]
      refine List.filterMap_congr fun m hm => ?_
      obtain ⟨hmem, rfl, ht⟩ := Store.mem_liveMembers.1 hm
      exact h m hmem ht
    unfold exportPack
    rw [hobjects, htombstones]

end Env

/-! ## What a repair does to a store -/

/-- A row after a repair: signed by this brain if it is one of `ids`, and with all that makes
its wire object. -/
structure ResignedRow (own : Bytes32) (ids : List String) (r r' : MemoryRow) : Prop where
  id : r'.id = r.id
  key : r'.key = r.key
  content : r'.content = r.content
  createdAt : r'.createdAt = r.createdAt
  visibility : r'.visibility = r.visibility
  sourceBrainId : r'.sourceBrainId = if r.id ∈ ids then some own else r.sourceBrainId

/-- The rows of `ids` are signed by this brain. -/
structure Resigned (own : Bytes32) (ids : List String) (s s' : Store) : Prop where
  forward : ∀ r ∈ s.memories, ∃ r' ∈ s'.memories, ResignedRow own ids r r'
  backward : ∀ r' ∈ s'.memories, ∃ r ∈ s.memories, ResignedRow own ids r r'
  members : s'.sharedWingMembers = s.sharedWingMembers
  tombstones : s'.syncTombstones = s.syncTombstones

section

variable {own : Bytes32} {ids ids' : List String} {s s' s'' : Store} {r r' r'' : MemoryRow}

theorem ResignedRow.trans (h : ResignedRow own ids r r') (h' : ResignedRow own ids' r' r'') :
    ResignedRow own (ids ++ ids') r r'' where
  id := h'.id.trans h.id
  key := h'.key.trans h.key
  content := h'.content.trans h.content
  createdAt := h'.createdAt.trans h.createdAt
  visibility := h'.visibility.trans h.visibility
  sourceBrainId := by
    rw [h'.sourceBrainId, h.id, h.sourceBrainId]
    by_cases hids : r.id ∈ ids <;> by_cases hids' : r.id ∈ ids' <;> simp [hids, hids']

/-- An update of other columns signs nothing. -/
theorem resignedRow_nil (hid : r'.id = r.id) (hkey : r'.key = r.key)
    (hcontent : r'.content = r.content) (hcreated : r'.createdAt = r.createdAt)
    (hvisibility : r'.visibility = r.visibility) (hsource : r'.sourceBrainId = r.sourceBrainId) :
    ResignedRow own [] r r' :=
  ⟨hid, hkey, hcontent, hcreated, hvisibility, hsource.trans (if_neg List.not_mem_nil).symm⟩

theorem Resigned.refl : Resigned own [] s s where
  forward r hr := ⟨r, hr, resignedRow_nil rfl rfl rfl rfl rfl rfl⟩
  backward r hr := ⟨r, hr, resignedRow_nil rfl rfl rfl rfl rfl rfl⟩
  members := rfl
  tombstones := rfl

theorem Resigned.trans (h : Resigned own ids s s') (h' : Resigned own ids' s' s'') :
    Resigned own (ids ++ ids') s s'' where
  forward r hr := by
    obtain ⟨r', hr', hrow⟩ := h.forward r hr
    obtain ⟨r'', hr'', hrow'⟩ := h'.forward r' hr'
    exact ⟨r'', hr'', hrow.trans hrow'⟩
  backward r'' hr'' := by
    obtain ⟨r', hr', hrow'⟩ := h'.backward r'' hr''
    obtain ⟨r, hr, hrow⟩ := h.backward r' hr'
    exact ⟨r, hr, hrow.trans hrow'⟩
  members := h'.members.trans h.members
  tombstones := h'.tombstones.trans h.tombstones

theorem resigned_updateMemories {p : MemoryRow → Bool} {g : MemoryRow → MemoryRow}
    {hg : ∀ r, (g r).id = r.id ∧ (g r).key = r.key}
    (hrow : ∀ r, ResignedRow own ids r (if p r then g r else r)) :
    Resigned own ids s (s.updateMemories p g hg) where
  forward r hr := ⟨_, Store.mem_memories_updateMemories.2 ⟨r, hr, rfl⟩, hrow r⟩
  backward r' hr' := by
    obtain ⟨r, hr, rfl⟩ := Store.mem_memories_updateMemories.1 hr'
    exact ⟨r, hr, hrow r⟩
  members := rfl
  tombstones := rfl

theorem resigned_setSignature {memoryId : String} {signature : List UInt8} :
    Resigned own [memoryId] s (s.setSignature memoryId own signature) := by
  refine resigned_updateMemories fun r => ?_
  by_cases hid : r.id = memoryId
  · rw [if_pos (decide_eq_true hid)]
    exact ⟨rfl, rfl, rfl, rfl, rfl, (if_pos (List.mem_singleton.2 hid)).symm⟩
  · rw [if_neg (by simpa using hid)]
    exact ⟨rfl, rfl, rfl, rfl, rfl, (if_neg (by simpa using hid)).symm⟩

theorem resigned_setDeclarativeDensity {memoryId : String} {density : ℚ} :
    Resigned own [] s (s.setDeclarativeDensity memoryId density) := by
  refine resigned_updateMemories fun r => ?_
  split <;> exact resignedRow_nil rfl rfl rfl rfl rfl rfl

theorem resigned_backfillContentHashes (env : Env) :
    Resigned own [] s (s.backfillContentHashes env) := by
  refine resigned_updateMemories fun r => ?_
  split <;> exact resignedRow_nil rfl rfl rfl rfl rfl rfl

/-- A row that is signed anew is another wire object, unless it was signed by this brain
before. -/
theorem wireObject_resigned_iff {env : Env} {m : ManifestRow} (h : Resigned own ids s s')
    (hr : r ∈ s.memories) (hkey : r.key = m.memKey) :
    env.wireObject s' m = env.wireObject s m ↔ (r.id ∈ ids → r.sourceBrainId ≠ some own →
      ¬ env.Rehashes m r ∧ ¬ env.Rehashes m { r with sourceBrainId := some own }) := by
  obtain ⟨r', hr', hrow⟩ := h.forward r hr
  have hbefore : s.memoryByKey m.memKey = some r := Store.memoryByKey_eq_some.2 ⟨hr, hkey⟩
  have hafter : s'.memoryByKey m.memKey = some r' :=
    Store.memoryByKey_eq_some.2 ⟨hr', hrow.key.trans hkey⟩
  -- the rebuilt object, and so whether it still has the recorded hash
  have hrebuilt : ∀ t, m.rebuild r' = m.rebuild t → env.wireObject s' m =
      if env.Rehashes m t then some (m.rebuild t) else none := by
    intro t ht
    have hre : env.Rehashes m r' ↔ env.Rehashes m t := by unfold Env.Rehashes; rw [ht]
    unfold Env.wireObject
    rw [hafter, Option.bind_some, ht]
    simp only [hre]
  have hunsigned : env.wireObject s m = if env.Rehashes m r then some (m.rebuild r) else none := by
    unfold Env.wireObject
    rw [hbefore, Option.bind_some]
  by_cases hids : r.id ∈ ids
  · have hsame : m.rebuild r' = m.rebuild { r with sourceBrainId := some own } := by
      unfold ManifestRow.rebuild
      rw [hrow.content, hrow.createdAt, hrow.visibility, hrow.sourceBrainId, if_pos hids]
    rw [hrebuilt _ hsame, hunsigned]
    by_cases hown : r.sourceBrainId = some own
    · have hself : { r with sourceBrainId := some own } = r := by rw [← hown]
      rw [hself]
      exact iff_of_true rfl fun _ hne => absurd hown hne
    · have hne : m.rebuild { r with sourceBrainId := some own } ≠ m.rebuild r := by
        intro heq
        exact hown (congrArg MemoryObject.authorId heq).symm
      split <;> split <;> simp_all
  · have hsame : m.rebuild r' = m.rebuild r := by
      unfold ManifestRow.rebuild
      rw [hrow.content, hrow.createdAt, hrow.visibility, hrow.sourceBrainId, if_neg hids]
    rw [hrebuilt _ hsame, hunsigned]
    exact iff_of_true rfl fun h => absurd h hids

theorem wireObject_resigned_of_none {env : Env} {m : ManifestRow} (h : Resigned own ids s s')
    (hnone : s.memoryByKey m.memKey = none) : env.wireObject s' m = env.wireObject s m := by
  have hafter : s'.memoryByKey m.memKey = none := by
    refine Store.memoryByKey_eq_none.2 fun r' hr' hkey => ?_
    obtain ⟨r, hr, hrow⟩ := h.backward r' hr'
    exact Store.memoryByKey_eq_none.1 hnone r hr (hrow.key.symm.trans hkey)
  unfold Env.wireObject
  rw [hnone, hafter]

end

/-! ## The rows a repair signs -/

/-- The memories of a walk up to the one whose enrolment fails, with it. -/
def RecognitionFaults.reached (faults : RecognitionFaults) : List MemoryRow → List MemoryRow
  | [] => []
  | memory :: memories =>
    match faults.enroll memory.id with
    | some (.index _) => [memory]
    | _ => memory :: faults.reached memories

theorem mem_of_mem_reached {faults : RecognitionFaults} {memories : List MemoryRow} {r : MemoryRow}
    (h : r ∈ faults.reached memories) : r ∈ memories := by
  induction memories with
  | nil => exact h
  | cons memory memories ih =>
    unfold RecognitionFaults.reached at h
    split at h
    · exact List.mem_cons.2 (Or.inl (List.mem_singleton.1 h))
    · exact List.mem_cons.2 ((List.mem_cons.1 h).imp_right ih)

/-- The ids of the memories without a signature. -/
def unsignedIds (memories : List MemoryRow) : List String :=
  (memories.filter fun r => decide (r.signature = none)).map MemoryRow.id

theorem mem_unsignedIds {memories : List MemoryRow} {id : String} :
    id ∈ unsignedIds memories ↔ ∃ r ∈ memories, r.signature = none ∧ r.id = id := by
  simp [unsignedIds, and_assoc]

theorem unsignedIds_cons (memory : MemoryRow) (memories : List MemoryRow) :
    unsignedIds (memory :: memories) = unsignedIds [memory] ++ unsignedIds memories := by
  by_cases h : memory.signature = none <;> simp [unsignedIds, h]

/-- Other columns do not matter for what is reached. -/
theorem unsignedIds_reached_map {faults : RecognitionFaults} {f : MemoryRow → MemoryRow}
    (hf : ∀ r, (f r).id = r.id ∧ (f r).signature = r.signature) (memories : List MemoryRow) :
    unsignedIds (faults.reached (memories.map f)) = unsignedIds (faults.reached memories) := by
  have hone : ∀ r, unsignedIds [f r] = unsignedIds [r] := by
    intro r
    by_cases h : r.signature = none <;> simp [unsignedIds, (hf r).1, (hf r).2, h]
  induction memories with
  | nil => rfl
  | cons memory memories ih =>
    rw [List.map_cons]
    unfold RecognitionFaults.reached
    rw [(hf memory).1]
    split
    · exact hone memory
    · rw [unsignedIds_cons, unsignedIds_cons memory, hone, ih]

namespace BrainState

variable {L : WingCache}

section

variable (S : BrainSetup) (now : String) (faults : RecognitionFaults) (b : BrainState L)
  (report : DerivationRepairReport) {memory : MemoryRow} {memories : List MemoryRow}

theorem resigned_repairDensity {own : Bytes32} (memory : MemoryRow) :
    Resigned own [] b.cached.store (b.repairDensity S now report memory).1.cached.store := by
  unfold repairDensity
  split
  · exact resigned_setDeclarativeDensity
  · exact .refl

theorem resigned_repairSignature (h : memory.contentHash ≠ none) :
    Resigned (S.identity.brainId S.env) (unsignedIds [memory]) b.cached.store
      (b.repairSignature S now report memory).1.cached.store := by
  obtain ⟨contentHash, hhash⟩ := Option.ne_none_iff_exists'.1 h
  unfold repairSignature MemoryRow.signedFields
  rw [hhash, Option.map_some]
  cases hsig : memory.signature with
  | some signature =>
    have hnil : unsignedIds [memory] = [] := by simp [unsignedIds, hsig]
    rw [hnil]
    exact .refl
  | none =>
    have hone : unsignedIds [memory] = [memory.id] := by simp [unsignedIds, hsig]
    rw [hone]
    dsimp only
    rw [store_signAs]
    exact resigned_setSignature

/-- **One memory** of the walk, whether its enrolment fails or not. -/
theorem resigned_repairOne (h : memory.contentHash ≠ none) :
    Resigned (S.identity.brainId S.env) (unsignedIds [memory]) b.cached.store
      (b.repairOne S now faults report memory).1.cached.store := by
  have hsigned := (resigned_repairDensity S now b report memory).trans
    (resigned_repairSignature S now _ (b.repairDensity S now report memory).2 h)
  unfold repairOne
  dsimp only
  split <;> exact hsigned

/-- The walk ends at a memory whose enrolment fails. -/
theorem repairOne_eq_error_iff (memory : MemoryRow) :
    (∃ e, (b.repairOne S now faults report memory).2 = .error e) ↔
      ∃ e, faults.enroll memory.id = some (.index e) := by
  unfold repairOne
  dsimp only
  generalize ((b.repairDensity S now report memory).1.repairSignature S now
    (b.repairDensity S now report memory).2 memory) = signed
  have herror := @RecognitionIndex.enroll_eq_error_iff S.rc signed.1.index memory.id memory.content
    (faults.enroll memory.id)
  split
  · rename_i index _ henroll
    rw [henroll] at herror
    simp [← herror]
  · rename_i index e henroll
    rw [henroll] at herror
    simp [← herror]

/-- **A walk signs** the rows it reaches that have no signature. -/
theorem resigned_repairWalk (h : ∀ memory ∈ memories, memory.contentHash ≠ none) :
    Resigned (S.identity.brainId S.env) (unsignedIds (faults.reached memories)) b.cached.store
      (b.repairWalk S now faults report memories).1.cached.store := by
  induction memories generalizing b report with
  | nil => exact .refl
  | cons memory memories ih =>
    obtain ⟨hmemory, hmemories⟩ := List.forall_mem_cons.1 h
    have hone := resigned_repairOne S now faults b report hmemory
    have hends := repairOne_eq_error_iff S now faults b report memory
    unfold repairWalk
    split
    · rename_i b' report' hrepaired
      rw [hrepaired] at hone hends
      unfold RecognitionFaults.reached
      split
      · rename_i e he
        obtain ⟨e', he'⟩ := hends.2 ⟨e, he⟩
        cases he'
      · rw [unsignedIds_cons]
        exact hone.trans (ih b' report' hmemories)
    · rename_i b' e hrepaired
      rw [hrepaired] at hone hends
      unfold RecognitionFaults.reached
      split
      · exact hone
      · rename_i hnone
        obtain ⟨e', he'⟩ := hends.1 ⟨e, rfl⟩
        exact absurd he' (hnone e')

end

/-- **A repair signs** the memories it reaches that have no signature. -/
theorem resigned_repairDerivations (S : BrainSetup) (now : String) (faults : RecognitionFaults)
    (b : BrainState L) (limit : ℕ) :
    Resigned (S.identity.brainId S.env)
      (unsignedIds (faults.reached (b.cached.store.listMemoriesBySignal 0 limit))) b.cached.store
      (b.repairDerivations S now faults limit).1.cached.store := by
  have hhashes : ∀ memory ∈ b.repairScan S now limit, memory.contentHash ≠ none := by
    intro memory hmemory
    rw [repairScan_eq] at hmemory
    obtain ⟨r, -, rfl⟩ := List.mem_map.1 hmemory
    split
    · exact Option.some_ne_none _
    · assumption
  have hids : unsignedIds (faults.reached (b.repairScan S now limit)) =
      unsignedIds (faults.reached (b.cached.store.listMemoriesBySignal 0 limit)) := by
    rw [repairScan_eq]
    refine unsignedIds_reached_map (fun r => ?_) _
    split <;> exact ⟨rfl, rfl⟩
  have hwalk := (resigned_backfillContentHashes S.env).trans (resigned_repairWalk S now
    faults (b.applyStore S ⟨.backfillContentHashes, now⟩)
    { scanned := (b.repairScan S now limit).length
      contentHashesRepaired := b.cached.store.memories.countWhere fun r => r.contentHash = none }
    hhashes)
  rw [hids] at hwalk
  unfold repairDerivations
  dsimp only
  split
  · rename_i b' e hwalked
    rw [hwalked] at hwalk
    exact hwalk
  · rename_i b' report hwalked
    rw [hwalked] at hwalk
    split
    · rw [store_pruneOrphans]
      exact hwalk
    · exact hwalk

/-! ## Authors -/

section

variable (S : BrainSetup) (b : BrainState L)

/-- A row by another brain keeps its author, and every wing its export. -/
structure KeepsAuthors (b' : BrainState L) : Prop where
  authors : ∀ r ∈ b.cached.store.memories, ∀ author ∈ r.sourceBrainId,
    author ≠ S.identity.brainId S.env →
      ∃ r' ∈ b'.cached.store.memories, r'.id = r.id ∧ r'.sourceBrainId = some author
  exports : ∀ wingId,
    S.env.exportPack b'.cached.store wingId = S.env.exportPack b.cached.store wingId

/-- **The condition on a row that is signed.**  It is this brain's, or nobody's and not shipped
as it is nor as this brain's. -/
def Signable (r : MemoryRow) : Prop :=
  r.sourceBrainId = some (S.identity.brainId S.env) ∨
    r.sourceBrainId = none ∧ ∀ m ∈ b.cached.store.sharedWingMembers, m.Live b.cached.store →
      m.memKey = r.key → ¬ S.env.Rehashes m r ∧
        ¬ S.env.Rehashes m { r with sourceBrainId := some (S.identity.brainId S.env) }

end

variable {S : BrainSetup} {b b' : BrainState L} {ids : List String}

/-- Signing some rows keeps authors when each of them can be signed. -/
theorem keepsAuthors_iff_of_resigned
    (h : Resigned (S.identity.brainId S.env) ids b.cached.store b'.cached.store) :
    b.KeepsAuthors S b' ↔ ∀ r ∈ b.cached.store.memories, r.id ∈ ids → b.Signable S r := by
  constructor
  · rintro ⟨hauthors, hexports⟩ r hr hids
    by_cases hown : r.sourceBrainId = some (S.identity.brainId S.env)
    · exact Or.inl hown
    have hnone : r.sourceBrainId = none := by
      refine Option.eq_none_iff_forall_ne_some.2 fun author hauthor => ?_
      obtain ⟨r', hr', hid, hsource⟩ := hauthors r hr author hauthor fun h => hown (h ▸ hauthor)
      obtain ⟨r₀, hr₀, hrow⟩ := h.backward r' hr'
      have hsame : r₀ = r := Store.eq_of_id hr₀ hr (hrow.id.symm.trans hid)
      subst hsame
      rw [hrow.sourceBrainId, if_pos hids] at hsource
      exact hown (hauthor.trans hsource.symm)
    refine Or.inr ⟨hnone, fun m hm hlive hkey => ?_⟩
    have hsame := (Env.exportPack_eq_iff h.members h.tombstones).1 hexports m hm hlive
    exact (wireObject_resigned_iff h hr hkey.symm).1 hsame hids hown
  · intro hsignable
    constructor
    · intro r hr author hauthor hne
      obtain ⟨r', hr', hrow⟩ := h.forward r hr
      have hids : r.id ∉ ids := by
        intro hids
        rcases hsignable r hr hids with hown | ⟨hnone, -⟩
        · exact hne (Option.some.inj (hauthor.symm.trans hown))
        · exact absurd (hauthor.symm.trans hnone) (Option.some_ne_none _)
      exact ⟨r', hr', hrow.id, (hrow.sourceBrainId.trans (if_neg hids)).trans hauthor⟩
    · refine (Env.exportPack_eq_iff h.members h.tombstones).2 fun m hm hlive => ?_
      cases hkey : b.cached.store.memoryByKey m.memKey with
      | none => exact wireObject_resigned_of_none h hkey
      | some r =>
        obtain ⟨hr, hkey⟩ := Store.memoryByKey_eq_some.1 hkey
        refine (wireObject_resigned_iff h hr hkey).2 fun hids hown => ?_
        exact ((hsignable r hr hids).resolve_left hown).2 m hm hlive hkey.symm

/-- **A repair keeps authors exactly under the condition** on every row that it signs, in
whatever state the brain is. -/
theorem keepsAuthors_iff_signable (S : BrainSetup) (now : String) (faults : RecognitionFaults)
    (b : BrainState L) (limit : ℕ) :
    b.KeepsAuthors S (b.repairDerivations S now faults limit).1 ↔
      ∀ r ∈ faults.reached (b.cached.store.listMemoriesBySignal 0 limit), r.signature = none →
        b.Signable S r := by
  rw [keepsAuthors_iff_of_resigned (resigned_repairDerivations S now faults b limit)]
  have hstored : ∀ r ∈ faults.reached (b.cached.store.listMemoriesBySignal 0 limit),
      r ∈ b.cached.store.memories :=
    fun r hr => Store.mem_of_mem_listMemoriesBySignal (mem_of_mem_reached hr)
  constructor
  · intro h r hr hsig
    exact h r (hstored r hr) (mem_unsignedIds.2 ⟨r, hr, hsig, rfl⟩)
  · intro h r hr hids
    obtain ⟨r', hr', hsig, hid⟩ := mem_unsignedIds.1 hids
    rw [← Store.eq_of_id (hstored r' hr') hr hid]
    exact h r' hr' hsig

/-! ## An imported note -/

/-- **An imported note** is by its author, and after a repair by the peer, which does not ship it
any more. -/
theorem repair_resigns_imported_note :
    let b := run (apply peer) (opened wingCache) (importedAndRepaired.take 1)
    let repaired := (b.repairDerivations peer "2026-01-02 11:00:00" {} 100).1
    (∃ r ∈ b.cached.store.memories.rows, r.key = importedKey ∧ r.sourceBrainId = some author) ∧
      (∃ r ∈ repaired.cached.store.memories.rows, r.key = importedKey ∧
        r.sourceBrainId = some (peer.identity.brainId peer.env) ∧
          peer.identity.brainId peer.env ≠ author) ∧
      (peer.env.exportPack b.cached.store "team").objects = [signedNote] ∧
      (peer.env.exportPack repaired.cached.store "team").objects = [] ∧
      ¬ b.KeepsAuthors peer repaired := by
  intro b repaired
  have hbefore : (peer.env.exportPack b.cached.store "team").objects = [signedNote] := by
    decide +kernel
  have hafter : (peer.env.exportPack repaired.cached.store "team").objects = [] := by
    decide +kernel
  refine ⟨by decide +kernel, by decide +kernel, hbefore, hafter, fun h => ?_⟩
  rw [h.exports, hbefore] at hafter
  cases hafter

end BrainState

end Spectral
