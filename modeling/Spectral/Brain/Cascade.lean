import Spectral.Brain.Signing
import Spectral.Lib.HashMap

/-!
# The cascade and the other scoped recalls

Every recall of a brain that takes a visibility context.

* `recallCascadeScoped` — TACT with a wing hint, topped up by full-text search, re-ranked,
  reinforced, and spread along episodes and sessions (`associativeSpread`).
* `recallWithProvenance` — full-text recall, with the consolidated sources of each hit.
* `recallCrossWing` — a recall, with memories of other wings that resonate with its first hit.
* `ScopedRecall` — all of them.  `admits_of_mem_recallScoped`: what they return is of memories
  whose own visibility admits the context.

The re-ranking and the matching of spectrograms are arithmetic on floats: they are parameters,
and so is the parser of time stamps.
-/

namespace Spectral

open Spectral.Lib

/-! ## Settings -/

/-- `RecognitionContext`: what of it reaches retrieval. -/
structure RecognitionContext where
  focusWing : Option String := none

/-- `SpreadMode`. -/
inductive SpreadMode where
  | off
  | episode
  | crossSession
  | combined
  | rerank
  deriving DecidableEq, Repr

/-- `AssocSpreadConfig`. -/
structure AssocSpreadConfig where
  mode : SpreadMode := .off
  seeds : ℕ := 3
  episodeBudget : ℕ := 3000
  crossN : ℕ := 2
  crossBudget : ℕ := 2500
  rerankB : ℕ := 15

/-- `CascadePipelineConfig`, less the settings that only the re-ranking reads. -/
structure CascadePipelineConfig where
  k : ℕ := 40
  fetchMult : ℕ := 1
  spread : AssocSpreadConfig := {}
  writeBack : Bool := true

/-- `CascadeResult`. -/
structure CascadeResult where
  mergedHits : List MemoryHit := []
  totalTokensUsed : ℕ := 0
  maxConfidence : ℚ := 0
  totalRecognitionTokenCost : ℕ := 0

/-- What a cascade calls, and the settings of its brain. -/
structure CascadeSetup where
  /-- `tact_config`. -/
  tactConfig : TactConfig := {}
  /-- `apply_reranking_pipeline_with_query`: the places of the hits it keeps, in its order, and
  their new scores. -/
  rerank : CascadePipelineConfig → RecognitionContext → String → List MemoryHit → List (ℕ × ℚ)
  /-- `parse_ts`. -/
  parseTs : String → Option ℤ

/-- `AUTO_REINFORCE_STRENGTH`. -/
def autoReinforceStrength : ℚ := 1 / 100

/-- `content.len() / 4`, of a hit. -/
def MemoryHit.tokens (hit : MemoryHit) : ℕ := hit.content.utf8ByteSize / 4

/-! ## Associative spreading -/

/-- An episode to complete, and when its seed was created. -/
abbrev SeedRef := Option String × Option ℤ

/-- `list_memories_by_episode`. -/
def Store.listMemoriesByEpisode (s : Store) (episodeId : String) : List MemoryRow :=
  (s.memories.rows.filter fun r => r.episodeId = some episodeId).insertionSort
    fun a b => a.createdAt < b.createdAt ∨ a.createdAt = b.createdAt ∧ a.id ≤ b.id

section Spread

variable (C : CascadeSetup) (visibility : Visibility)

/-- The reference of a hit. -/
def CascadeSetup.seedRef (hit : MemoryHit) : SeedRef := (hit.episodeId, C.parseTs hit.createdAt)

/-- `top_seed_refs`. -/
def CascadeSetup.topSeedRefs (hits : List MemoryHit) (seeds : ℕ) : List SeedRef :=
  (hits.take seeds).map C.seedRef

/-- `i64::MAX`. -/
def i64Max : ℤ := 9223372036854775807

/-- How far a memory is from the seed of its episode; at the end of the line when that is not
known. -/
def CascadeSetup.proximity (seedTs : Option ℤ) (r : MemoryRow) : ℤ :=
  match seedTs, C.parseTs r.createdAt with
  | some s, some t => |s - t|
  | _, _ => i64Max

/-- The loop over the members of an episode.  The state is the keys that were met and the
candidates. -/
def CascadeSetup.collectMember (existing : List String) (seedTs : Option ℤ)
    (acc : List String × List (ℤ × MemoryHit)) (r : MemoryRow) :
    List String × List (ℤ × MemoryHit) :=
  if r.key ∈ existing ∨ r.key ∈ acc.1 then acc
  else if (strToVis r.visibility).allows visibility then
    (r.key :: acc.1, acc.2 ++ [(C.proximity seedTs r, memoryHitFromRow 0 r)])
  else (r.key :: acc.1, acc.2)

/-- The loop over the episodes.  The state is the episodes that were met, the keys and the
candidates. -/
def CascadeSetup.collectEpisode (s : Store) (existing : List String)
    (acc : List String × List String × List (ℤ × MemoryHit)) (ref : SeedRef) :
    List String × List String × List (ℤ × MemoryHit) :=
  match ref.1 with
  | none => acc
  | some episode =>
    if episode ∈ acc.1 then acc
    else (episode :: acc.1,
      (s.listMemoriesByEpisode episode).foldl (C.collectMember visibility existing ref.2) acc.2)

/-- The candidates of some episodes, the closest first. -/
def CascadeSetup.episodeCandidates (s : Store) (hits : List MemoryHit) (refs : List SeedRef) :
    List MemoryHit :=
  ((refs.foldl (C.collectEpisode visibility s (hits.map MemoryHit.key)) ([], [], [])).2.2.insertionSort
    fun a b => a.1 ≤ b.1).map Prod.snd

/-- The hits that fit into a budget; one that does not is passed over. -/
def withinBudget (budget : ℕ) : ℕ → List MemoryHit → List MemoryHit
  | _, [] => []
  | spent, hit :: hits =>
    if budget < spent + hit.tokens then withinBudget budget spent hits
    else hit :: withinBudget budget (spent + hit.tokens) hits

/-- `episode_fill`. -/
def CascadeSetup.episodeFill (s : Store) (hits : List MemoryHit) (refs : List SeedRef)
    (budget : ℕ) : List MemoryHit :=
  hits ++ withinBudget budget 0 (C.episodeCandidates visibility s hits refs)

/-- The places to clear for some new hits, from the weakest on: not the last hit of its
session. -/
def displaced (hits : List MemoryHit) (room : ℕ) : List ℕ :=
  let session (hit : MemoryHit) : String := hit.episodeId.getD ""
  ((hits.zipIdx.reverse).foldl
    (fun (acc : List ℕ × List String) p =>
      if room ≤ acc.1.length then acc
      else if 1 < acc.2.count (session p.1) then (p.2 :: acc.1, acc.2.erase (session p.1))
      else acc)
    ([], hits.map session)).1

/-- `rerank_displace`. -/
def CascadeSetup.rerankDisplace (s : Store) (hits : List MemoryHit) (seeds replaceB : ℕ) :
    List MemoryHit :=
  let added := (C.episodeCandidates visibility s hits (C.topSeedRefs hits seeds)).take replaceB
  let remove := displaced hits added.length
  ((hits.zipIdx.filter fun p => decide (p.2 ∉ remove)).map Prod.fst) ++ added

end Spread

namespace BrainState

variable {L : WingCache}

section

variable (S : BrainSetup) (C : CascadeSetup) (now : String) (b : BrainState L)

/-- Where `cross_session` stands: the brain, what it has added, and the tokens it has spent;
`full` once the budget is. -/
structure CrossState (L : WingCache) where
  brain : BrainState L
  added : List MemoryHit := []
  spent : ℕ := 0
  full : Bool := false

/-- One mate of a seed. -/
def crossMate (existing : List String) (budget : ℕ) (acc : CrossState L) (mate : MemoryHit) :
    CrossState L :=
  if acc.full = true then acc
  else if mate.key ∈ existing ∨ mate.key ∈ acc.added.map MemoryHit.key then acc
  else if budget < acc.spent + mate.tokens then { acc with full := true }
  else { acc with added := acc.added ++ [mate], spent := acc.spent + mate.tokens }

/-- One seed: what full-text recall finds for its content. -/
def crossSeed (existing : List String) (n budget : ℕ) (visibility : Visibility)
    (acc : CrossState L) (content : String) : CrossState L :=
  if acc.full = true then acc
  else
    let recalled := acc.brain.recallTopkFts S content (n + 4) 3 visibility
    (recalled.2.take n).foldl (crossMate existing budget) { acc with brain := recalled.1 }

/-- `cross_session`: the hits it adds. -/
def crossSession (hits : List MemoryHit) (seeds n budget : ℕ) (visibility : Visibility) :
    BrainState L × List MemoryHit :=
  let final := ((hits.take seeds).map MemoryHit.content).foldl
    (crossSeed S (hits.map MemoryHit.key) n budget visibility) { brain := b }
  (final.brain, final.added)

/-- `associative_spread`. -/
def associativeSpread (hits : List MemoryHit) (cfg : AssocSpreadConfig) (visibility : Visibility) :
    BrainState L × List MemoryHit :=
  match cfg.mode with
  | .off => (b, hits)
  | .episode =>
    (b, C.episodeFill visibility b.cached.store hits (C.topSeedRefs hits cfg.seeds)
      cfg.episodeBudget)
  | .crossSession =>
    let (b, added) := b.crossSession S hits cfg.seeds cfg.crossN cfg.crossBudget visibility
    (b, hits ++ added)
  | .combined =>
    let refs := C.topSeedRefs hits cfg.seeds
    let (b, added) := b.crossSession S hits cfg.seeds cfg.crossN cfg.crossBudget visibility
    (b, C.episodeFill visibility b.cached.store (hits ++ added) (refs ++ added.map C.seedRef)
      cfg.episodeBudget)
  | .rerank => (b, C.rerankDisplace visibility b.cached.store hits cfg.seeds cfg.rerankB)

/-! ## The pipeline -/

/-- `cascade_retrieve_scoped`: TACT, and full-text search for what it falls short of. -/
def cascadeRetrieveScoped (query : String) (k : ℕ) (wingHint : Option String)
    (visibility : Visibility) : BrainState L × List MemoryHit :=
  let (cached, tact) := b.cached.retrieve S.en S.pf S.ftsFusion query wingHint
    { C.tactConfig with maxResults := k }
  let hits := tact.memories.filter fun h => (strToVis h.visibility).allows visibility
  let words := S.ftsQueryWords query
  if hits.length < k ∧ words ≠ [] then
    let ftsHits := cached.store.ftsSearchScoped S.en S.pf S.ftsFusion words k visibility
    ({ b with cached },
      hits ++ (ftsHits.filter fun h => decide (h.key ∉ hits.map MemoryHit.key)).take
        (k - hits.length))
  else ({ b with cached }, hits)

/-- `write_back`: the hits are reinforced, and the retrieval is logged. -/
def writeBack (hits : List MemoryHit) : BrainState L :=
  let reinforced := b.applyStore S
    ⟨.reinforceBatch (hits.map MemoryHit.key) autoReinforceStrength, now⟩
  reinforced.withStore
    (reinforced.cached.store.logRetrievalEvent (jsonIds (hits.map MemoryHit.id)))

/-- `run_cascade_pipeline_scoped`. -/
def runCascadePipelineScoped (query : String) (context : RecognitionContext)
    (config : CascadePipelineConfig) (visibility : Visibility) : BrainState L × List MemoryHit :=
  let (b, retrieved) := b.cascadeRetrieveScoped S C query (config.k * max config.fetchMult 1)
    context.focusWing visibility
  let candidates := retrieved.filter fun h => (strToVis h.visibility).allows visibility
  if candidates = [] then (b, [])
  else
    let results := ((C.rerank config context query candidates).filterMap fun p =>
      candidates[p.1]?.map fun hit => { hit with signalScore := p.2 }).take config.k
    let b := if config.writeBack = true then b.writeBack S now results else b
    b.associativeSpread S C results config.spread visibility

/-- `recall_cascade_scoped`. -/
def recallCascadeScoped (query : String) (context : RecognitionContext)
    (config : CascadePipelineConfig) (visibility : Visibility) : BrainState L × CascadeResult :=
  let (b, hits) := b.runCascadePipelineScoped S C now query context config visibility
  (b, { mergedHits := hits
        totalTokensUsed := (hits.map fun h => h.tokens + 5).sum
        maxConfidence := (hits.head?.map fun h => min h.signalScore (85 / 100)).getD 0 })

/-! ## Recalls that add to the hits -/

/-- The sources attached to a hit.  The edges come in the order of their times, which are not
in the model: in any order. -/
def sourcesOf (order : Shuffle ConsolidationEdge) (visibility : Visibility) (maxSources : ℕ)
    (hit : MemoryHit) : List MemoryHit :=
  ((order.run (b.cached.store.consolidationEdges.rows.filter fun e => e.targetKey = hit.key)).filterMap
    fun e => ((b.getMemory (S.env.keyToId e.sourceKey)).filter fun m =>
      (strToVis m.visibility).allows visibility).map (memoryHitFromRow 0)).take maxSources

/-- `recall_with_provenance`: the hits with their sources. -/
def recallWithProvenance (order : Shuffle ConsolidationEdge) (query : String) (k fetchMult : ℕ)
    (visibility : Visibility) (maxSourcesPerHit : ℕ) :
    BrainState L × List (MemoryHit × List MemoryHit) :=
  let (b, hits) := b.recallTopkFts S query k fetchMult visibility
  (b, hits.map fun hit => (hit, b.sourcesOf S order visibility maxSourcesPerHit hit))

/-- `recall_cross_wing_with`.  The memories that resonate with the first hit are those the
matching of spectrograms names. -/
def recallCrossWing (resonant : MemoryHit → List String) (seedQuery : String)
    (visibility : Visibility) : BrainState L × Option MemoryHit × List MemoryHit :=
  let (cached, hits, _) :=
    b.cached.recallAt S.en S.pf S.ftsFusion C.tactConfig seedQuery visibility now
  match hits.head? with
  | none => ({ b with cached }, none, [])
  | some seed =>
    ({ b with cached }, some seed,
      (resonant seed).filterMap fun id => ((cached.store.getMemory id).filter fun m =>
        (strToVis m.visibility).allows visibility).map (memoryHitFromRow 0))

end

end BrainState

/-! ## What is admitted -/

/-- The hit is read off a row of the store. -/
def Store.Serves (s : Store) (hit : MemoryHit) : Prop :=
  ∃ r ∈ s.memories, ∃ n, hit = memoryHitFromRow n r

/-- The hit is of a memory whose own visibility admits the context. -/
def Store.Admits (s : Store) (visibility : Visibility) (hit : MemoryHit) : Prop :=
  ∃ r ∈ s.memories, hit.id = r.id ∧ hit.key = r.key ∧ hit.content = r.content ∧
    (strToVis r.visibility).allows visibility = true

/-- A property of every hit of a row that the context admits, whatever its score. -/
structure Store.Scoped (s : Store) (visibility : Visibility) (Q : MemoryHit → Prop) : Prop where
  row : ∀ r ∈ s.memories, (strToVis r.visibility).allows visibility = true →
    ∀ n, Q (memoryHitFromRow n r)
  rescored : ∀ hit score, Q hit → Q { hit with signalScore := score }

namespace Store

variable {s s' : Store} {en : Engine} {pf : Platform} {fusion : Bool} {visibility : Visibility}
  {hit : MemoryHit} {Q : MemoryHit → Prop}

/-- The label of a hit is the label of its row. -/
theorem Serves.admits (h : s.Serves hit)
    (hallows : (strToVis hit.visibility).allows visibility = true) : s.Admits visibility hit := by
  obtain ⟨r, hr, n, rfl⟩ := h
  exact ⟨r, hr, rfl, rfl, rfl, hallows⟩

theorem admits_memoryHitFromRow {r : MemoryRow} (hr : r ∈ s.memories)
    (hallows : (strToVis r.visibility).allows visibility = true) (n : ℕ) :
    s.Admits visibility (memoryHitFromRow n r) := ⟨r, hr, rfl, rfl, rfl, hallows⟩

/-- What is admitted by a store is admitted by the one it came from, if that differs in no label
and no content. -/
theorem Admits.of_keepsSigned (hkeeps : s.KeepsSigned s') (h : s'.Admits visibility hit) :
    s.Admits visibility hit := by
  obtain ⟨r', hr', hid, hkey, hcontent, hallows⟩ := h
  obtain ⟨r, hr, hsame⟩ := hkeeps r' hr'
  exact ⟨r, hr, hid.trans hsame.id, hkey.trans hsame.key, hcontent.trans hsame.content,
    hsame.visibility ▸ hallows⟩

theorem Admits.of_memories_eq (h : s'.memories = s.memories) (hadmits : s'.Admits visibility hit) :
    s.Admits visibility hit := .of_keepsSigned (keepsSigned_of_memories_eq h) hadmits

/-- To be admitted is such a property, also of a store that differs in no label and no
content. -/
theorem scoped_admits (hkeeps : s.KeepsSigned s') : s'.Scoped visibility (s.Admits visibility) where
  row _ hr hallows n := (admits_memoryHitFromRow hr hallows n).of_keepsSigned hkeeps
  rescored _ _ h := h

theorem Scoped.of_memories_eq (h : s'.memories = s.memories) (hQ : s.Scoped visibility Q) :
    s'.Scoped visibility Q where
  row r hr := hQ.row r (h ▸ hr)
  rescored := hQ.rescored

theorem serves_of_mem_ftsSearchScoped {queryWords : List String} {maxResults : ℕ}
    (h : hit ∈ s.ftsSearchScoped en pf fusion queryWords maxResults visibility) : s.Serves hit := by
  obtain ⟨r, hr, rfl, -⟩ := mem_ftsSearchScoped h
  exact ⟨r, hr, 0, rfl⟩

theorem Scoped.of_mem_ftsSearchScoped (hQ : s.Scoped visibility Q) {queryWords : List String}
    {maxResults : ℕ}
    (h : hit ∈ s.ftsSearchScoped en pf fusion queryWords maxResults visibility) : Q hit := by
  obtain ⟨r, hr, rfl, -, hvisible⟩ := mem_ftsSearchScoped h
  exact hQ.row r hr (visClause_eq_allows visibility r ▸ hvisible) 0

theorem serves_of_mem_fingerprintSearch {wing hall : String} {hashes : List String}
    {maxResults : ℕ} (h : hit ∈ s.fingerprintSearch wing hall hashes maxResults) :
    s.Serves hit := by
  unfold fingerprintSearch at h
  split at h
  · exact absurd h List.not_mem_nil
  · obtain ⟨p, -, hrow⟩ := List.mem_filterMap.1 ((List.mem_insertionSort _).1 h)
    obtain ⟨r, hget, rfl⟩ := Option.map_eq_some_iff.1 hrow
    exact ⟨r, (getMemory_eq_some.1 hget).1, p.2, rfl⟩

theorem Scoped.of_mem_anticipated (hQ : s.Scoped visibility Q) {results : List MemoryHit}
    (h : hit ∈ s.anticipated visibility results) : Q hit := by
  obtain ⟨r, hr, rfl, hadmissible, -⟩ := mem_anticipated_iff.1 h
  have hany := Bool.and_elim_right hadmissible
  rw [getMemory_eq_some.2 ⟨hr, rfl⟩, Option.any_some] at hany
  exact hQ.row r hr hany 0

/-- A memory that is looked up by its id and kept for its label. -/
theorem admits_of_getMemory {o : Option MemoryHit} {id : String}
    (ho : o = ((s.getMemory id).filter fun m => (strToVis m.visibility).allows visibility).map
      (memoryHitFromRow 0)) (h : o = some hit) : s.Admits visibility hit := by
  rw [ho] at h
  obtain ⟨r, hr, rfl⟩ := Option.map_eq_some_iff.1 h
  obtain ⟨hget, hallows⟩ := Option.filter_eq_some_iff.1 hr
  exact admits_memoryHitFromRow (getMemory_eq_some.1 hget).1 hallows 0

end Store

namespace CachedStore

variable {L : WingCache} {c : CachedStore L} {en : Engine} {pf : Platform} {fusion : Bool}
  {visibility : Visibility} {hit : MemoryHit}

/-- What TACT retrieves through a coherent cache is read off the store. -/
theorem serves_of_mem_retrieve (hc : c.Coherent) {userMsg : String} {wingHint : Option String}
    {config : TactConfig}
    (h : hit ∈ (c.retrieve en pf fusion userMsg wingHint config).2.memories) :
    c.store.Serves hit := by
  rw [memories_retrieve] at h
  split at h
  · exact absurd h List.not_mem_nil
  · refine forall_mem_search (Q := c.store.Serves)
      (fun _ _ _ => Store.serves_of_mem_ftsSearchScoped)
      (fun _ _ _ _ _ => Store.serves_of_mem_fingerprintSearch) (fun wing terms n hit hhit => ?_)
      _ _ _ _ hit h
    rw [wingSearch_of_coherent hc, rankWing, boostTerms_eq_insertionSort] at hhit
    have hrow := (List.mem_insertionSort _).1 (List.mem_of_mem_take hhit)
    obtain ⟨r, hr, -, rfl⟩ := Store.mem_wingRows.1 hrow
    exact ⟨r, hr, 0, rfl⟩

/-- **The hybrid recall.** -/
theorem admits_of_mem_recallAt (hc : c.Coherent) {config : TactConfig} {query now : String}
    (h : hit ∈ (c.recallAt en pf fusion config query visibility now).2.1) :
    c.store.Admits visibility hit := by
  unfold recallAt at h
  obtain ⟨m, hm, rfl⟩ := List.mem_map.1 h
  obtain ⟨hin, hallows⟩ := List.mem_filter.1 hm
  have hadmits := (serves_of_mem_retrieve hc hin).admits hallows
  exact hadmits

end CachedStore

/-! ## What a recall leaves of the store -/

theorem MemoryRow.SameSigned.trans {r r' r'' : MemoryRow} (h : r.SameSigned r')
    (h' : r'.SameSigned r'') : r.SameSigned r'' :=
  ⟨h'.id.trans h.id, h'.key.trans h.key, h'.content.trans h.content,
    h'.contentHash.trans h.contentHash, h'.createdAt.trans h.createdAt,
    h'.visibility.trans h.visibility, h'.sourceBrainId.trans h.sourceBrainId,
    h'.signature.trans h.signature⟩

namespace Store

variable {s s' s'' : Store}

theorem KeepsSigned.step (h : s.KeepsSigned s') (h' : s'.KeepsSigned s'') : s.KeepsSigned s'' := by
  intro r'' hr''
  obtain ⟨r', hr', hsame'⟩ := h' r'' hr''
  obtain ⟨r, hr, hsame⟩ := h r' hr'
  exact ⟨r, hr, hsame.trans hsame'⟩

theorem keepsSigned_reinforceBatch {now : String} {keys : List String} {strength : ℚ} :
    s.KeepsSigned (s.reinforceBatch now keys strength).1 := by
  unfold reinforceBatch
  generalize keys.toChunks 900 = chunks
  induction chunks using List.reverseRecOn with
  | nil => exact keepsSigned_of_memories_eq rfl
  | append_singleton chunks chunk ih =>
    rw [List.foldl_append, List.foldl_cons, List.foldl_nil]
    dsimp only [reinforceChunk]
    refine ih.step (keepsSigned_updateMemories fun r => ?_)
    exact ⟨rfl, rfl, rfl, rfl, rfl, rfl, rfl, rfl⟩

end Store

namespace CachedStore

variable {L : WingCache} {c : CachedStore L} {en : Engine} {pf : Platform} {fusion : Bool}

theorem store_search {userMsg : String} {wing hall : Option String} {config : TactConfig} :
    (c.search en pf fusion userMsg wing hall config).1.store = c.store := by
  unfold search
  dsimp only
  split
  · rfl
  · cases wing with
    | none => rfl
    | some w =>
      dsimp only
      split
      · exact store_wingSearch
      · exact store_wingSearch

theorem store_retrieve {userMsg : String} {wingHint : Option String} {config : TactConfig} :
    (c.retrieve en pf fusion userMsg wingHint config).1.store = c.store := by
  unfold retrieve
  dsimp only
  split
  · rfl
  · split
    · exact store_search
    · exact store_search

end CachedStore

namespace BrainState

variable {L : WingCache} {S : BrainSetup} {C : CascadeSetup} {now : String} {b : BrainState L}
  {visibility : Visibility} {hit : MemoryHit}

theorem memories_recallTopkFts {query : String} {k fetchMult : ℕ} :
    (b.recallTopkFts S query k fetchMult visibility).1.cached.store.memories =
      b.cached.store.memories := by
  unfold recallTopkFts
  dsimp only
  split
  · rfl
  · split
    · rfl
    · rfl

theorem keepsSigned_writeBack {hits : List MemoryHit} :
    b.cached.store.KeepsSigned (b.writeBack S now hits).cached.store :=
  Store.keepsSigned_reinforceBatch

theorem store_cascadeRetrieveScoped {query : String} {k : ℕ} {wingHint : Option String} :
    (b.cascadeRetrieveScoped S C query k wingHint visibility).1.cached.store = b.cached.store := by
  unfold cascadeRetrieveScoped
  dsimp only
  split
  · exact CachedStore.store_retrieve
  · exact CachedStore.store_retrieve

/-! ## Every recall keeps to its context -/

section

variable {Q : MemoryHit → Prop}

/-- **Full-text recall.** -/
theorem forall_mem_recallTopkFts (hQ : b.cached.store.Scoped visibility Q) {query : String}
    {k fetchMult : ℕ} (h : hit ∈ (b.recallTopkFts S query k fetchMult visibility).2) : Q hit := by
  have hresults : ∀ words, ∀ hit ∈ b.topkResults S words k fetchMult visibility, Q hit := by
    intro words hit hhit
    obtain ⟨p, -, hplace⟩ := List.mem_filterMap.1 (List.mem_of_mem_take hhit)
    obtain ⟨candidate, hcandidate, rfl⟩ := Option.map_eq_some_iff.1 hplace
    have hfts := (List.mem_filter.1 (List.mem_of_getElem? hcandidate)).1
    exact hQ.rescored candidate p.2 (hQ.of_mem_ftsSearchScoped hfts)
  unfold recallTopkFts at h
  dsimp only at h
  split at h
  · exact absurd h List.not_mem_nil
  · split at h
    · rcases List.mem_append.1 h with h | h
      · exact hresults _ hit h
      · exact hQ.of_mem_anticipated h
    · exact hresults _ hit h

theorem mem_withinBudget {budget spent : ℕ} {hits : List MemoryHit}
    (h : hit ∈ withinBudget budget spent hits) : hit ∈ hits := by
  induction hits generalizing spent with
  | nil => exact h
  | cons first hits ih =>
    unfold withinBudget at h
    split at h
    · exact List.mem_cons_of_mem first (ih h)
    · rcases List.mem_cons.1 h with rfl | h
      · exact List.mem_cons_self
      · exact List.mem_cons_of_mem first (ih h)

/-- A member of an episode is a candidate only if its own label admits the context. -/
theorem forall_mem_collectMember {s : Store} (hQ : s.Scoped visibility Q) {existing : List String}
    {ts : Option ℤ} {r : MemoryRow} {acc : List String × List (ℤ × MemoryHit)}
    (hr : r ∈ s.memories) (hacc : ∀ p ∈ acc.2, Q p.2) :
    ∀ p ∈ (C.collectMember visibility existing ts acc r).2, Q p.2 := by
  unfold CascadeSetup.collectMember
  split
  · exact hacc
  · split
    · rename_i hallows
      intro p hp
      rcases List.mem_append.1 hp with hp | hp
      · exact hacc p hp
      · rw [List.mem_singleton.1 hp]
        exact hQ.row r hr hallows 0
    · exact hacc

theorem forall_mem_collectEpisode {s : Store} (hQ : s.Scoped visibility Q) {existing : List String}
    {ref : SeedRef} {acc : List String × List String × List (ℤ × MemoryHit)}
    (hacc : ∀ p ∈ acc.2.2, Q p.2) :
    ∀ p ∈ (C.collectEpisode visibility s existing acc ref).2.2, Q p.2 := by
  unfold CascadeSetup.collectEpisode
  split
  · exact hacc
  · split
    · exact hacc
    · refine List.foldlRecOn
        (motive := fun found : List String × List (ℤ × MemoryHit) => ∀ p ∈ found.2, Q p.2)
        _ _ hacc fun found hfound r hr => forall_mem_collectMember hQ ?_ hfound
      exact (List.mem_filter.1 ((List.mem_insertionSort _).1 hr)).1

theorem forall_mem_episodeCandidates {s : Store} (hQ : s.Scoped visibility Q)
    {hits : List MemoryHit} {refs : List SeedRef}
    (h : hit ∈ C.episodeCandidates visibility s hits refs) : Q hit := by
  unfold CascadeSetup.episodeCandidates at h
  obtain ⟨p, hp, rfl⟩ := List.mem_map.1 h
  have hrun : ∀ p ∈ (refs.foldl (C.collectEpisode visibility s (hits.map MemoryHit.key))
      ([], [], [])).2.2, Q p.2 :=
    List.foldlRecOn
      (motive := fun acc : List String × List String × List (ℤ × MemoryHit) =>
        ∀ p ∈ acc.2.2, Q p.2)
      _ _ (fun p hp => absurd hp List.not_mem_nil) fun acc hacc ref _ =>
        forall_mem_collectEpisode hQ hacc
  exact hrun p ((List.mem_insertionSort _).1 hp)

theorem mem_episodeFill {s : Store} (hQ : s.Scoped visibility Q) {hits : List MemoryHit}
    {refs : List SeedRef} {budget : ℕ} (h : hit ∈ C.episodeFill visibility s hits refs budget) :
    hit ∈ hits ∨ Q hit := by
  rcases List.mem_append.1 h with h | h
  · exact Or.inl h
  · exact Or.inr (forall_mem_episodeCandidates hQ (mem_withinBudget h))

/-- What holds of the cross-session loop: the memories are those of before, and what is added
has the property. -/
structure CrossState.Scoped (s : Store) (Q : MemoryHit → Prop) (acc : CrossState L) : Prop where
  memories : acc.brain.cached.store.memories = s.memories
  added : ∀ hit ∈ acc.added, Q hit

theorem CrossState.Scoped.mate {s : Store} {existing : List String} {budget : ℕ}
    {acc : CrossState L} {mate : MemoryHit} (h : acc.Scoped s Q) (hmate : Q mate) :
    (crossMate existing budget acc mate).Scoped s Q := by
  unfold crossMate
  split
  · exact h
  · split
    · exact h
    · split
      · exact ⟨h.memories, h.added⟩
      · refine ⟨h.memories, fun hit hhit => ?_⟩
        rcases List.mem_append.1 hhit with hhit | hhit
        · exact h.added hit hhit
        · rwa [List.mem_singleton.1 hhit]

theorem CrossState.Scoped.seed {s : Store} (hQ : s.Scoped visibility Q) {existing : List String}
    {n budget : ℕ} {acc : CrossState L} {content : String} (h : acc.Scoped s Q) :
    (crossSeed S existing n budget visibility acc content).Scoped s Q := by
  unfold crossSeed
  split
  · exact h
  · refine List.foldlRecOn (motive := fun acc : CrossState L => acc.Scoped s Q) _ _ ?_
      fun acc' hacc' mate hmate => hacc'.mate ?_
    · exact ⟨memories_recallTopkFts.trans h.memories, h.added⟩
    · exact forall_mem_recallTopkFts (hQ.of_memories_eq h.memories) (List.mem_of_mem_take hmate)

theorem scoped_crossSession (hQ : b.cached.store.Scoped visibility Q) {hits : List MemoryHit}
    {seeds n budget : ℕ} :
    (b.crossSession S hits seeds n budget visibility).1.cached.store.memories =
        b.cached.store.memories ∧
      ∀ hit ∈ (b.crossSession S hits seeds n budget visibility).2, Q hit := by
  have hrun : (((hits.take seeds).map MemoryHit.content).foldl
      (crossSeed S (hits.map MemoryHit.key) n budget visibility)
        { brain := b }).Scoped b.cached.store Q :=
    List.foldlRecOn (motive := fun acc : CrossState L => acc.Scoped b.cached.store Q) _ _
      ⟨rfl, fun hit hhit => absurd hhit List.not_mem_nil⟩ fun acc hacc content _ => hacc.seed hQ
  exact ⟨hrun.memories, hrun.added⟩

/-- **Spreading** adds only what the context admits. -/
theorem mem_associativeSpread (hQ : b.cached.store.Scoped visibility Q) {hits : List MemoryHit}
    {cfg : AssocSpreadConfig} (h : hit ∈ (b.associativeSpread S C hits cfg visibility).2) :
    hit ∈ hits ∨ Q hit := by
  have hcross : ∀ seeds n budget, hit ∈ hits ++ (b.crossSession S hits seeds n budget visibility).2 →
      hit ∈ hits ∨ Q hit := by
    intro seeds n budget hmem
    exact (List.mem_append.1 hmem).imp_right ((scoped_crossSession hQ).2 hit)
  unfold associativeSpread at h
  split at h
  · exact Or.inl h
  · exact mem_episodeFill hQ h
  · exact hcross _ _ _ h
  · -- the memories after the cross-session recalls are those of before
    rcases mem_episodeFill (hQ.of_memories_eq (scoped_crossSession hQ).1) h with h | h
    · exact hcross _ _ _ h
    · exact Or.inr h
  · unfold CascadeSetup.rerankDisplace at h
    rcases List.mem_append.1 h with h | h
    · obtain ⟨p, hp, rfl⟩ := List.mem_map.1 h
      exact Or.inl (List.fst_mem_of_mem_zipIdx (List.mem_filter.1 hp).1)
    · exact Or.inr (forall_mem_episodeCandidates hQ (List.mem_of_mem_take h))

/-- **The cascade**: its core recall set, and what it is spread to. -/
theorem forall_mem_recallCascadeScoped {query : String} {context : RecognitionContext}
    {config : CascadePipelineConfig}
    (hcore : ∀ hit ∈ (b.cascadeRetrieveScoped S C query (config.k * max config.fetchMult 1)
      context.focusWing visibility).2, (strToVis hit.visibility).allows visibility = true → Q hit)
    (hQ : ∀ s', b.cached.store.KeepsSigned s' → s'.Scoped visibility Q)
    (h : hit ∈ (b.recallCascadeScoped S C now query context config visibility).2.mergedHits) :
    Q hit := by
  unfold recallCascadeScoped runCascadePipelineScoped at h
  dsimp only at h
  split at h
  · exact absurd h List.not_mem_nil
  · -- spread from the brain the write-back has left
    have hkeeps : ∀ hits, b.cached.store.KeepsSigned (if config.writeBack = true then
        (b.cascadeRetrieveScoped S C query (config.k * max config.fetchMult 1) context.focusWing
          visibility).1.writeBack S now hits
        else (b.cascadeRetrieveScoped S C query (config.k * max config.fetchMult 1)
          context.focusWing visibility).1).cached.store := by
      intro hits
      rw [← store_cascadeRetrieveScoped]
      split
      · exact keepsSigned_writeBack
      · exact keepsSigned_of_memories_eq rfl
    rcases mem_associativeSpread (hQ _ (hkeeps _)) h with h | h
    · -- one of the candidates, with a new score
      obtain ⟨p, -, hplace⟩ := List.mem_filterMap.1 (List.mem_of_mem_take h)
      obtain ⟨candidate, hcandidate, rfl⟩ := Option.map_eq_some_iff.1 hplace
      obtain ⟨hin, hallows⟩ := List.mem_filter.1 (List.mem_of_getElem? hcandidate)
      exact (hQ _ (keepsSigned_of_memories_eq rfl)).rescored candidate p.2
        (hcore candidate hin hallows)
    · exact h

end

/-- What a cascade retrieves. -/
theorem admits_of_mem_cascadeRetrieveScoped (hc : b.cached.Coherent) {query : String} {k : ℕ}
    {wingHint : Option String}
    (h : hit ∈ (b.cascadeRetrieveScoped S C query k wingHint visibility).2) :
    b.cached.store.Admits visibility hit := by
  have htact : ∀ config, ∀ hit ∈ ((b.cached.retrieve S.en S.pf S.ftsFusion query wingHint
      config).2.memories.filter fun h => (strToVis h.visibility).allows visibility),
        b.cached.store.Admits visibility hit := by
    intro config hit hhit
    obtain ⟨hin, hallows⟩ := List.mem_filter.1 hhit
    exact (CachedStore.serves_of_mem_retrieve hc hin).admits hallows
  unfold cascadeRetrieveScoped at h
  dsimp only at h
  split at h
  · rcases List.mem_append.1 h with h | h
    · exact htact _ hit h
    · have hfts := (List.mem_filter.1 (List.mem_of_mem_take h)).1
      rw [CachedStore.store_retrieve] at hfts
      exact (Store.scoped_admits (keepsSigned_of_memories_eq rfl)).of_mem_ftsSearchScoped hfts
  · exact htact _ hit h

/-- **The cascade.** -/
theorem admits_of_mem_recallCascadeScoped (hc : b.cached.Coherent) {query : String}
    {context : RecognitionContext} {config : CascadePipelineConfig}
    (h : hit ∈ (b.recallCascadeScoped S C now query context config visibility).2.mergedHits) :
    b.cached.store.Admits visibility hit :=
  forall_mem_recallCascadeScoped (fun _ hin _ => admits_of_mem_cascadeRetrieveScoped hc hin)
    (fun _ => Store.scoped_admits) h

/-- **Recall with provenance**: the hits and their sources. -/
theorem admits_of_mem_recallWithProvenance {order : Shuffle ConsolidationEdge} {query : String}
    {k fetchMult maxSources : ℕ} {layered : MemoryHit × List MemoryHit}
    (h : layered ∈
      (b.recallWithProvenance S order query k fetchMult visibility maxSources).2)
    (hhit : hit ∈ layered.1 :: layered.2) : b.cached.store.Admits visibility hit := by
  obtain ⟨top, htop, rfl⟩ := List.mem_map.1 h
  rcases List.mem_cons.1 hhit with rfl | hhit
  · exact forall_mem_recallTopkFts (Store.scoped_admits (keepsSigned_of_memories_eq rfl)) htop
  · obtain ⟨edge, -, hsource⟩ := List.mem_filterMap.1 (List.mem_of_mem_take hhit)
    exact (Store.admits_of_getMemory rfl hsource).of_memories_eq memories_recallTopkFts

/-- **Recall across wings**: the first hit, and the memories that resonate with it. -/
theorem admits_of_mem_recallCrossWing (hc : b.cached.Coherent)
    {resonant : MemoryHit → List String} {seedQuery : String}
    (h : hit ∈ (b.recallCrossWing S C now resonant seedQuery visibility).2.1 ∨
      hit ∈ (b.recallCrossWing S C now resonant seedQuery visibility).2.2) :
    b.cached.store.Admits visibility hit := by
  unfold recallCrossWing at h
  dsimp only at h
  split at h
  · simp at h
  · rename_i seed hseed
    rcases h with h | h
    · cases h
      exact CachedStore.admits_of_mem_recallAt hc (List.mem_of_head? hseed)
    · obtain ⟨id, -, hresonant⟩ := List.mem_filterMap.1 h
      have hadmits := Store.admits_of_getMemory rfl hresonant
      unfold CachedStore.recallAt at hadmits
      dsimp only at hadmits
      rwa [CachedStore.store_retrieve] at hadmits

/-! ## All of them -/

/-- A recall with a visibility context. -/
inductive ScopedRecall where
  | recallAt (config : TactConfig) (query : String) (visibility : Visibility) (now : String)
  | recallTopkFts (query : String) (k fetchMult : ℕ) (visibility : Visibility)
  | recallCascade (C : CascadeSetup) (query : String) (context : RecognitionContext)
      (config : CascadePipelineConfig) (visibility : Visibility) (now : String)
  | recallWithProvenance (order : Shuffle ConsolidationEdge) (query : String) (k fetchMult : ℕ)
      (visibility : Visibility) (maxSourcesPerHit : ℕ)
  | recallCrossWing (C : CascadeSetup) (resonant : MemoryHit → List String) (seedQuery : String)
      (visibility : Visibility) (now : String)

/-- The visibility context of a recall. -/
def ScopedRecall.boundary : ScopedRecall → Visibility
  | .recallAt _ _ visibility _ | .recallTopkFts _ _ _ visibility
  | .recallCascade _ _ _ _ visibility _ | .recallWithProvenance _ _ _ _ visibility _
  | .recallCrossWing _ _ _ visibility _ => visibility

/-- All the hits a recall returns. -/
def recallScoped (S : BrainSetup) (b : BrainState L) : ScopedRecall → List MemoryHit
  | .recallAt config query visibility now =>
    (b.cached.recallAt S.en S.pf S.ftsFusion config query visibility now).2.1
  | .recallTopkFts query k fetchMult visibility =>
    (b.recallTopkFts S query k fetchMult visibility).2
  | .recallCascade C query context config visibility now =>
    (b.recallCascadeScoped S C now query context config visibility).2.mergedHits
  | .recallWithProvenance order query k fetchMult visibility maxSourcesPerHit =>
    (b.recallWithProvenance S order query k fetchMult visibility maxSourcesPerHit).2.flatMap
      fun layered => layered.1 :: layered.2
  | .recallCrossWing C resonant seedQuery visibility now =>
    let recalled := b.recallCrossWing S C now resonant seedQuery visibility
    recalled.2.1.toList ++ recalled.2.2

/-- **Every scoped recall** returns memories whose own visibility admits its context. -/
theorem admits_of_mem_recallScoped (hc : b.cached.Coherent) {q : ScopedRecall}
    (h : hit ∈ b.recallScoped S q) : b.cached.store.Admits q.boundary hit := by
  cases q with
  | recallAt config query visibility now => exact CachedStore.admits_of_mem_recallAt hc h
  | recallTopkFts query k fetchMult visibility =>
    exact forall_mem_recallTopkFts (Store.scoped_admits (keepsSigned_of_memories_eq rfl)) h
  | recallCascade C query context config visibility now =>
    exact admits_of_mem_recallCascadeScoped hc h
  | recallWithProvenance order query k fetchMult visibility maxSourcesPerHit =>
    obtain ⟨layered, hlayered, hhit⟩ := List.mem_flatMap.1 h
    exact admits_of_mem_recallWithProvenance hlayered hhit
  | recallCrossWing C resonant seedQuery visibility now =>
    refine admits_of_mem_recallCrossWing hc ((List.mem_append.1 h).imp_left fun h => ?_)
    exact Option.mem_toList.1 h

end BrainState

end Spectral
