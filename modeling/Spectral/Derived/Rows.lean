import Spectral.Lib.References
import Spectral.Brain.CoRetrieval
import Spectral.Consolidation.Chains
import Spectral.Ingest.Episodes
import Spectral.Recall.Anticipated

/-!
# Derived rows and their memories

Co-retrieval pairs, fingerprints, consolidation edges and episodes are derived from memories and
name them, or quote them.  A foreign key with a cascade takes a fingerprint, a session or the source
of an edge away with its memory.  Nothing does that for a pair, the target of an edge, the count of
an episode and its preview, except that `delete_memory_by_key` scrubs them by hand.

* `relatedMemories`, `fingerprintNeighbors`, `listConsolidated` — the listings, beside
  `recommendByLift`.
* `Living` — the listings name memories that exist, and counts and previews come from such.
* `Resolved`, `Backed` — the same row by row: what the foreign keys enforce, and the rest.
* `backed_deleteMemories_iff` — a delete keeps the rest exactly when nothing of it depends on a
  memory it selects.
-/

namespace Spectral

open Spectral.Lib

/-! ## Listings -/

/-- `FingerprintNeighbor`. -/
structure FingerprintNeighbor where
  memoryId : String
  edgeCount : ℕ
  deriving DecidableEq

/-- `ORDER BY co_count DESC, related_id`, and `ORDER BY edge_count DESC, other_id`. -/
def CountFirst (a b : String × ℕ) : Prop := b.2 < a.2 ∨ a.2 = b.2 ∧ a.1 ≤ b.1

instance : DecidableRel CountFirst := fun a b =>
  inferInstanceAs (Decidable (b.2 < a.2 ∨ a.2 = b.2 ∧ a.1 ≤ b.1))

/-- The memories a fingerprint links. -/
def FingerprintRow.ends (f : FingerprintRow) : List String := [f.anchorMemoryId, f.targetMemoryId]

/-- The memories of a pair. -/
def CoRetrievalPair.ends (c : CoRetrievalPair) : List String := [c.memoryIdA, c.memoryIdB]

namespace Store

section

variable (s : Store)

/-- `related_memories`. -/
def relatedMemories (memoryId : String) (limit : ℕ) : List RelatedMemory :=
  (sqlLimit limit ((s.neighbors memoryId).insertionSort CountFirst)).map fun n => ⟨n.1, n.2, 0⟩

/-- The other ends of the fingerprints of a memory, each as often as it is one. -/
def otherEnds (memoryId : String) : List String :=
  ((s.fingerprints.rows.filter fun f => f.anchorMemoryId = memoryId).map
      FingerprintRow.targetMemoryId) ++
    (s.fingerprints.rows.filter fun f => f.targetMemoryId = memoryId).map
      FingerprintRow.anchorMemoryId

/-- `fingerprint_neighbors`. -/
def fingerprintNeighbors (memoryId : String) (limit : ℕ) : List FingerprintNeighbor :=
  let ends := s.otherEnds memoryId
  (sqlLimit limit ((ends.dedup.map fun id => (id, ends.count id)).insertionSort CountFirst)).map
    fun n => ⟨n.1, n.2⟩

/-- `list_consolidated`.  It sorts by the times of the edges, which are left out, so the order is an
argument. -/
def listConsolidated (o : Shuffle ConsolidationEdge) (targetKey : Option String) :
    List ConsolidationEdge :=
  o.run (s.consolidationEdges.rows.filter fun e => targetKey.all fun k => e.targetKey = k)

/-- A preview is the beginning of what a member of the episode says, where `text` is what the
memories say. -/
def Quotes (text : MemoryRow → String) (ep : String) (preview : Option String) : Prop :=
  ∀ q ∈ preview, ∃ r ∈ s.memories.rows, r.episodeId = some ep ∧ q.toList <+: (text r).toList

/-- The count and the preview of an episode come from its members. -/
def Vouches (ep : String) (memoryCount : ℕ) (preview : Option String) : Prop :=
  memoryCount = s.episodeMembers ep ∧ s.Quotes MemoryRow.content ep preview

/-- The listings name memories that exist, and each episode counts and quotes its members. -/
structure Living : Prop where
  related : ∀ id limit, ∀ m ∈ s.relatedMemories id limit, s.HasMemory m.memoryId
  recommended : ∀ id limit minCoCount, ∀ m ∈ s.recommendByLift id limit minCoCount,
    s.HasMemory m.memoryId
  neighboring : ∀ id limit, ∀ n ∈ s.fingerprintNeighbors id limit, s.HasMemory n.memoryId
  consolidated : ∀ o targetKey, ∀ e ∈ s.listConsolidated o targetKey,
    s.HasKey e.sourceKey ∧ s.HasKey e.targetKey
  episodes : ∀ e ∈ s.episodes, s.Vouches e.id e.memoryCount e.summaryPreview

/-! ## Row by row -/

/-- What the foreign keys enforce. -/
structure Resolved : Prop where
  fingerprints : Resolves FingerprintRow.ends MemoryRow.id s.fingerprints s.memories
  memorySessions : Resolves (fun m => [m.memoryId]) MemoryRow.id s.memorySessions s.memories
  rooted : s.Rooted

/-- What no foreign key enforces. -/
structure Backed : Prop where
  pairs : Resolves CoRetrievalPair.ends MemoryRow.id s.coRetrievalPairs s.memories
  targets : Resolves (fun e => [e.targetKey]) MemoryRow.key s.consolidationEdges s.memories
  episodes : ∀ e ∈ s.episodes, s.Vouches e.id e.memoryCount e.summaryPreview

end

variable {s s' : Store}

theorem resolved_empty : ({} : Store).Resolved := ⟨resolves_empty, resolves_empty, rooted_empty⟩

theorem backed_empty : ({} : Store).Backed :=
  ⟨resolves_empty, resolves_empty, fun e he => absurd he (Table.not_mem_empty e)⟩

theorem mem_neighbors {id : String} {n : String × ℕ} :
    n ∈ s.neighbors id ↔ ∃ c ∈ s.coRetrievalPairs, c.coCount = n.2 ∧
      (c.memoryIdA = id ∧ c.memoryIdB = n.1 ∨ c.memoryIdB = id ∧ c.memoryIdA = n.1) := by
  obtain ⟨k, m⟩ := n
  simp only [neighbors, List.mem_append, List.mem_map, List.mem_filter, decide_eq_true_eq,
    Table.mem_rows, Prod.mk.injEq]
  constructor
  · rintro (⟨c, ⟨hc, ha⟩, hb, hm⟩ | ⟨c, ⟨hc, hb⟩, ha, hm⟩)
    · exact ⟨c, hc, hm, Or.inl ⟨ha, hb⟩⟩
    · exact ⟨c, hc, hm, Or.inr ⟨hb, ha⟩⟩
  · rintro ⟨c, hc, hm, ⟨ha, hb⟩ | ⟨hb, ha⟩⟩
    · exact Or.inl ⟨c, ⟨hc, ha⟩, hb, hm⟩
    · exact Or.inr ⟨c, ⟨hc, hb⟩, ha, hm⟩

/-- Without a limit the neighbors are listed as they are. -/
theorem mem_relatedMemories_of_mem_neighbors {id : String} {n : String × ℕ}
    (h : n ∈ s.neighbors id) : (⟨n.1, n.2, 0⟩ : RelatedMemory) ∈ s.relatedMemories id (2 ^ 63) := by
  unfold relatedMemories sqlLimit
  rw [if_neg (lt_irrefl _)]
  exact List.mem_map_of_mem ((List.mem_insertionSort _).2 h)

/-- **Where the foreign keys hold,** the listings name memories that exist exactly when the rows
do. -/
theorem living_iff (hs : s.Resolved) : s.Living ↔ s.Backed := by
  constructor
  · intro h
    refine ⟨fun c hc k hk => ?_, fun e he k hk => ?_, h.episodes⟩
    · -- each end of a pair is listed for the other one
      have hlisted : ∀ id other, (other, c.coCount) ∈ s.neighbors id → s.HasMemory other :=
        fun id other hn => h.related id _ _ (mem_relatedMemories_of_mem_neighbors hn)
      rcases List.mem_pair.1 hk with rfl | rfl
      · exact hlisted c.memoryIdB c.memoryIdA (mem_neighbors.2 ⟨c, hc, rfl, Or.inr ⟨rfl, rfl⟩⟩)
      · exact hlisted c.memoryIdA c.memoryIdB (mem_neighbors.2 ⟨c, hc, rfl, Or.inl ⟨rfl, rfl⟩⟩)
    · rw [List.mem_singleton.1 hk]
      refine (h.consolidated .inOrder none e ?_).2
      exact List.mem_filter.2 ⟨he, rfl⟩
  · intro h
    have hneighbor : ∀ {id : String} {n : String × ℕ}, n ∈ s.neighbors id → s.HasMemory n.1 := by
      intro id n hn
      obtain ⟨c, hc, -, ⟨-, hk⟩ | ⟨-, hk⟩⟩ := mem_neighbors.1 hn
      · exact hk ▸ h.pairs c hc c.memoryIdB (List.mem_pair.2 (Or.inr rfl))
      · exact hk ▸ h.pairs c hc c.memoryIdA (List.mem_pair.2 (Or.inl rfl))
    refine ⟨fun id limit m hm => ?_, fun id limit minCoCount m hm => ?_, fun id limit n hn => ?_,
      fun o targetKey e he => ?_, h.episodes⟩
    · obtain ⟨n, hn, rfl⟩ := List.mem_map.1 hm
      exact hneighbor ((List.mem_insertionSort _).1 (mem_of_mem_sqlLimit hn))
    · obtain ⟨n, hn, rfl⟩ := List.mem_map.1 hm
      exact hneighbor (List.mem_filter.1 ((List.mem_insertionSort _).1 (List.mem_of_mem_take hn))).1
    · obtain ⟨c, hc, rfl⟩ := List.mem_map.1 hn
      obtain ⟨k, hk, rfl⟩ := List.mem_map.1 ((List.mem_insertionSort _).1 (mem_of_mem_sqlLimit hc))
      rcases List.mem_append.1 (List.mem_dedup.1 hk) with hk | hk
      · obtain ⟨f, hf, rfl⟩ := List.mem_map.1 hk
        exact hs.fingerprints f (List.mem_filter.1 hf).1 _ (List.mem_pair.2 (Or.inr rfl))
      · obtain ⟨f, hf, rfl⟩ := List.mem_map.1 hk
        exact hs.fingerprints f (List.mem_filter.1 hf).1 _ (List.mem_pair.2 (Or.inl rfl))
    · have hin := (List.mem_filter.1 ((o.perm _).mem_iff.1 he)).1
      exact ⟨hs.rooted _ _ ⟨e, hin, rfl, rfl⟩, h.targets e hin _ (List.mem_singleton_self _)⟩

/-! ## What a step leaves -/

/-- No id and no key is lost. -/
structure KeepsNames (s s' : Store) : Prop where
  ids : ∀ id, s.HasMemory id → s'.HasMemory id
  keys : ∀ key, s.HasKey key → s'.HasKey key

theorem keepsNames_of_memories (h : s'.memories = s.memories) : s.KeepsNames s' := by
  constructor
  · unfold HasMemory
    rw [h]
    exact fun _ => id
  · unfold HasKey
    rw [h]
    exact fun _ => id

/-- What an episode quotes after a step, by what the memories of before say then and the rows that
are new. -/
theorem quotes_of_membership {text : MemoryRow → String} {new : List (Option String × String)}
    (h : s'.membership = (s.memories.rows.map fun r => (r.episodeId, text r)) ++ new) {ep : String}
    {preview : Option String} :
    s'.Quotes MemoryRow.content ep preview ↔ ∀ q ∈ preview,
      (∃ r ∈ s.memories.rows, r.episodeId = some ep ∧ q.toList <+: (text r).toList) ∨
        ∃ m ∈ new, m.1 = some ep ∧ q.toList <+: m.2.toList := by
  have hquote : ∀ q : String,
      (∃ r ∈ s'.memories.rows, r.episodeId = some ep ∧ q.toList <+: r.content.toList) ↔
        ∃ m ∈ s'.membership, m.1 = some ep ∧ q.toList <+: m.2.toList := by
    intro q
    unfold membership
    simp only [List.mem_map, exists_exists_and_eq_and]
  unfold Quotes
  refine forall₂_congr fun q _ => ?_
  rw [hquote, h]
  simp only [List.mem_append, or_and_right, exists_or, List.mem_map, exists_exists_and_eq_and]

/-- No row is new. -/
theorem quotes_of_texts {text : MemoryRow → String}
    (h : s'.membership = (s.memories.rows.map fun r => (r.episodeId, text r)) ++ []) {ep : String}
    {preview : Option String} :
    s'.Quotes MemoryRow.content ep preview ↔ s.Quotes text ep preview := by
  rw [quotes_of_membership h]
  refine forall₂_congr fun q _ => or_iff_left ?_
  rintro ⟨m, hm, -⟩
  exact List.not_mem_nil hm

theorem quotes_congr {text text' : MemoryRow → String} (h : ∀ r ∈ s.memories, text r = text' r)
    {ep : String} {preview : Option String} : s.Quotes text ep preview ↔ s.Quotes text' ep preview := by
  unfold Quotes
  refine forall₂_congr fun q _ => exists_congr fun r => and_congr_right fun hr => ?_
  rw [h r hr]

theorem membership_congr (h : s'.memories = s.memories) : s'.membership = s.membership := by
  unfold membership
  rw [h]

/-- What an episode counts and quotes depends on the memories only. -/
theorem vouches_congr (h : s'.membership = s.membership) {ep : String} {n : ℕ}
    {preview : Option String} : s'.Vouches ep n preview ↔ s.Vouches ep n preview := by
  have hmembers := h.trans (List.append_nil _).symm
  unfold Vouches
  rw [quotes_of_texts hmembers, episodeMembers_of_membership hmembers]
  rfl

/-- A step that loses no name and leaves the pairs and the edges. -/
theorem backed_iff_of_keepsNames (h : s.Backed) (hnames : s.KeepsNames s')
    (hpairs : s'.coRetrievalPairs = s.coRetrievalPairs)
    (hedges : s'.consolidationEdges = s.consolidationEdges) :
    s'.Backed ↔ ∀ e ∈ s'.episodes, s'.Vouches e.id e.memoryCount e.summaryPreview := by
  refine ⟨Backed.episodes, fun hepisodes => ⟨?_, ?_, hepisodes⟩⟩
  · rw [hpairs]
    exact h.pairs.mono (fun _ => id) hnames.ids
  · rw [hedges]
    exact h.targets.mono (fun _ => id) hnames.keys

/-- The same memories, edges, sessions and fingerprints. -/
theorem Resolved.of_eq (h : s.Resolved) (hmemories : s'.memories = s.memories)
    (hfingerprints : s'.fingerprints = s.fingerprints)
    (hsessions : s'.memorySessions = s.memorySessions)
    (hedges : s'.consolidationEdges = s.consolidationEdges) : s'.Resolved := by
  refine ⟨?_, ?_, fun x y hxy => ?_⟩
  · rw [hmemories, hfingerprints]
    exact h.fingerprints
  · rw [hmemories, hsessions]
    exact h.memorySessions
  · unfold MergedInto at hxy
    rw [hedges] at hxy
    exact (hasKey_congr hmemories x).2 (h.rooted x y hxy)

/-- The same memories, pairs, edges and episodes. -/
theorem Backed.of_eq (h : s.Backed) (hmemories : s'.memories = s.memories)
    (hpairs : s'.coRetrievalPairs = s.coRetrievalPairs)
    (hedges : s'.consolidationEdges = s.consolidationEdges) (hepisodes : s'.episodes = s.episodes) :
    s'.Backed := by
  refine (backed_iff_of_keepsNames h (keepsNames_of_memories hmemories) hpairs hedges).2 ?_
  rw [hepisodes]
  exact fun e he => (vouches_congr (membership_congr hmemories)).2 (h.episodes e he)

/-! ## Deletes -/

/-- Nothing that no foreign key protects depends on a memory that is selected: it is in no pair,
not the target of an edge that stays, and not a member of a stored episode. -/
structure Clears (s : Store) (p : MemoryRow → Bool) : Prop where
  pairs : ∀ c ∈ s.coRetrievalPairs, ∀ id ∈ c.ends, ∀ r ∈ s.memories, r.id = id → p r = false
  targets : ∀ e ∈ s.consolidationEdges, s.Stays p e.sourceKey → s.Stays p e.targetKey
  members : ∀ e ∈ s.episodes, ∀ r ∈ s.memories, r.episodeId = some e.id → p r = false

variable {p : MemoryRow → Bool}

/-- What a delete cascades to names no memory that is selected. -/
theorem goneId_eq_false {id : String} :
    (s.memories.rows.any fun r => p r && r.id == id) = false ↔
      ∀ r ∈ s.memories, r.id = id → p r = false := by
  rw [List.any_eq_false]
  refine forall_congr' fun r => forall_congr' fun _ => ?_
  cases p r <;> simp

/-- **The foreign keys** hold after a delete. -/
theorem resolved_deleteMemories (h : s.Resolved) (p : MemoryRow → Bool) :
    (s.deleteMemories p).Resolved := by
  have hid : ∀ a b : MemoryRow, a.id = b.id → a.Clash b := fun _ _ => Or.inl
  refine ⟨h.fingerprints.cascade hid fun f hf => ?_, h.memorySessions.cascade hid fun m hm => ?_,
    rooted_deleteMemories h.rooted p⟩
  · obtain ⟨hf, hgone⟩ := Table.mem_deleteWhere.1 hf
    obtain ⟨ha, ht⟩ := Bool.or_eq_false_iff.1 hgone
    refine ⟨hf, fun k hk => ?_⟩
    rcases List.mem_pair.1 hk with rfl | rfl
    · exact goneId_eq_false.1 ha
    · exact goneId_eq_false.1 ht
  · obtain ⟨hm, hgone⟩ := Table.mem_deleteWhere.1 hm
    refine ⟨hm, fun k hk => ?_⟩
    rw [List.mem_singleton.1 hk]
    exact goneId_eq_false.1 hgone

theorem mem_consolidationEdges_deleteMemories {e : ConsolidationEdge} :
    e ∈ (s.deleteMemories p).consolidationEdges ↔
      e ∈ s.consolidationEdges ∧ s.Stays p e.sourceKey := by
  have hedge : ∀ t : Store, e ∈ t.consolidationEdges ↔ t.MergedInto e.sourceKey e.targetKey := by
    intro t
    constructor
    · exact fun he => ⟨e, he, rfl, rfl⟩
    · rintro ⟨e', he', hsource, htarget⟩
      obtain ⟨x, y⟩ := e
      obtain ⟨x', y'⟩ := e'
      cases hsource
      cases htarget
      exact he'
  rw [hedge, hedge, mergedInto_deleteMemories]

/-- **One delete** keeps what the foreign keys do not exactly when nothing of it depends on a memory
it selects. -/
theorem backed_deleteMemories_iff (h : s.Backed) : (s.deleteMemories p).Backed ↔ s.Clears p := by
  have hid : ∀ a b : MemoryRow, a.id = b.id → a.Clash b := fun _ _ => Or.inl
  have hpairs := resolves_deleteWhere_iff (p := p) hid h.pairs
  constructor
  · intro hafter
    refine ⟨hpairs.1 hafter.pairs, fun e he hsource => ?_, fun e he => ?_⟩
    · have hkept := hafter.targets e (mem_consolidationEdges_deleteMemories.2 ⟨he, hsource⟩) _
        (List.mem_singleton_self _)
      exact ((hasKey_deleteMemories p e.targetKey).1 hkept).2
    · have hcount : (s.memories.deleteWhere p).countWhere (fun r => r.episodeId = some e.id) =
          s.memories.countWhere fun r => r.episodeId = some e.id :=
        (hafter.episodes e he).1.symm.trans (h.episodes e he).1
      exact fun r hr hin => Table.countWhere_deleteWhere_eq_iff.1 hcount r hr (decide_eq_true hin)
  · intro hclears
    refine ⟨hpairs.2 hclears.pairs, fun e he k hk => ?_, fun e he => ⟨?_, fun q hq => ?_⟩⟩
    · obtain ⟨he, hsource⟩ := mem_consolidationEdges_deleteMemories.1 he
      rw [List.mem_singleton.1 hk]
      exact (hasKey_deleteMemories p e.targetKey).2
        ⟨h.targets e he _ (List.mem_singleton_self _), hclears.targets e he hsource⟩
    · refine (h.episodes e he).1.trans (Eq.symm ?_)
      exact Table.countWhere_deleteWhere_eq_iff.2 fun r hr hin =>
        hclears.members e he r hr (of_decide_eq_true hin)
    · obtain ⟨r, hr, hin, hprefix⟩ := (h.episodes e he).2 q hq
      exact ⟨r, Table.mem_deleteWhere.2 ⟨hr, hclears.members e he r hr hin⟩, hin, hprefix⟩

/-- Only the rows that are selected matter. -/
theorem clears_congr (hmem : ∀ r, p r = true → (r ∈ s'.memories ↔ r ∈ s.memories))
    (hpairs : s'.coRetrievalPairs = s.coRetrievalPairs)
    (hedges : s'.consolidationEdges = s.consolidationEdges) (hepisodes : s'.episodes = s.episodes) :
    s'.Clears p ↔ s.Clears p := by
  have hrows : ∀ φ : MemoryRow → Prop, (∀ r ∈ s'.memories, φ r → p r = false) ↔
      ∀ r ∈ s.memories, φ r → p r = false := by
    intro φ
    constructor
    · intro h r hr hφ
      by_contra hp
      exact hp (h r ((hmem r (eq_true_of_ne_false hp)).2 hr) hφ)
    · intro h r hr hφ
      by_contra hp
      exact hp (h r ((hmem r (eq_true_of_ne_false hp)).1 hr) hφ)
  have hstays : ∀ key, s'.Stays p key ↔ s.Stays p key := fun key => hrows (·.key = key)
  have hclears : ∀ t : Store, t.Clears p ↔
      (∀ c ∈ t.coRetrievalPairs, ∀ id ∈ c.ends, ∀ r ∈ t.memories, r.id = id → p r = false) ∧
        (∀ e ∈ t.consolidationEdges, t.Stays p e.sourceKey → t.Stays p e.targetKey) ∧
          ∀ e ∈ t.episodes, ∀ r ∈ t.memories, r.episodeId = some e.id → p r = false :=
    fun t => ⟨fun h => ⟨h.pairs, h.targets, h.members⟩, fun h => ⟨h.1, h.2.1, h.2.2⟩⟩
  rw [hclears, hclears, hpairs, hedges, hepisodes]
  simp only [hrows, hstays]

end Store

end Spectral
