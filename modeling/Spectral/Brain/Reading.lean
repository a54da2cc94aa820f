import Spectral.Brain.FanOut

/-!
# What a read writes

A recall logs what it returns, unless the brain was opened read-only, and the cascade reinforces
and logs unless it is asked not to.  A fan-out asks its members not to.

* `recallTopkFtsAs`, `recallCascadeScopedAs` — the recalls of a brain that may be read-only.
* `Member`, `fanOutMembers` — a fan-out, with what it leaves of the brains it asked.
* `fanOut_writes_nothing_iff` — when a fan-out leaves every store as it was: spreading across
  sessions has full-text recalls of its own, and these log.
-/

namespace Spectral

open Spectral.Lib

namespace BrainState

variable {L : WingCache}

/-! ## Recalls of a brain that may be read-only -/

section

variable (S : BrainSetup) (C : CascadeSetup) (now : String) (readOnly : Bool) (b : BrainState L)

/-- `recall_topk_fts`. -/
def recallTopkFtsAs (query : String) (k fetchMult : ℕ) (visibility : Visibility) :
    BrainState L × List MemoryHit :=
  let words := S.ftsQueryWords query
  if words = [] then (b, [])
  else
    let results := b.topkResults S words k fetchMult visibility
    let logged := if readOnly = true then b
      else b.withStore (b.cached.store.logRetrievalEvent (jsonIds (results.map MemoryHit.id)))
    if results ≠ [] ∧ S.anticipatoryRecall = true then
      (logged, results ++ logged.cached.store.anticipated visibility results)
    else (logged, results)

/-- One seed of `cross_session`. -/
def crossSeedAs (existing : List String) (n budget : ℕ) (visibility : Visibility)
    (acc : CrossState L) (content : String) : CrossState L :=
  if acc.full = true then acc
  else
    let recalled := acc.brain.recallTopkFtsAs S readOnly content (n + 4) 3 visibility
    (recalled.2.take n).foldl (crossMate existing budget) { acc with brain := recalled.1 }

/-- `cross_session`: the hits it adds. -/
def crossSessionAs (hits : List MemoryHit) (seeds n budget : ℕ) (visibility : Visibility) :
    BrainState L × List MemoryHit :=
  let final := ((hits.take seeds).map MemoryHit.content).foldl
    (crossSeedAs S readOnly (hits.map MemoryHit.key) n budget visibility) { brain := b }
  (final.brain, final.added)

/-- `associative_spread`. -/
def associativeSpreadAs (hits : List MemoryHit) (cfg : AssocSpreadConfig)
    (visibility : Visibility) : BrainState L × List MemoryHit :=
  match cfg.mode with
  | .off => (b, hits)
  | .episode =>
    (b, C.episodeFill visibility b.cached.store hits (C.topSeedRefs hits cfg.seeds)
      cfg.episodeBudget)
  | .crossSession =>
    let (b, added) :=
      b.crossSessionAs S readOnly hits cfg.seeds cfg.crossN cfg.crossBudget visibility
    (b, hits ++ added)
  | .combined =>
    let refs := C.topSeedRefs hits cfg.seeds
    let (b, added) :=
      b.crossSessionAs S readOnly hits cfg.seeds cfg.crossN cfg.crossBudget visibility
    (b, C.episodeFill visibility b.cached.store (hits ++ added) (refs ++ added.map C.seedRef)
      cfg.episodeBudget)
  | .rerank => (b, C.rerankDisplace visibility b.cached.store hits cfg.seeds cfg.rerankB)

/-- The core recall set of a cascade: what is re-ranked, before anything is spread. -/
def coreHits (query : String) (context : RecognitionContext) (config : CascadePipelineConfig)
    (visibility : Visibility) : List MemoryHit :=
  let candidates := (b.cascadeRetrieveScoped S C query (config.k * max config.fetchMult 1)
    context.focusWing visibility).2.filter fun h => (strToVis h.visibility).allows visibility
  if candidates = [] then []
  else ((C.rerank config context query candidates).filterMap fun p =>
    candidates[p.1]?.map fun hit => { hit with signalScore := p.2 }).take config.k

/-- `run_cascade_pipeline_scoped`. -/
def runCascadePipelineScopedAs (query : String) (context : RecognitionContext)
    (config : CascadePipelineConfig) (visibility : Visibility) : BrainState L × List MemoryHit :=
  let (b, retrieved) := b.cascadeRetrieveScoped S C query (config.k * max config.fetchMult 1)
    context.focusWing visibility
  let candidates := retrieved.filter fun h => (strToVis h.visibility).allows visibility
  if candidates = [] then (b, [])
  else
    let results := ((C.rerank config context query candidates).filterMap fun p =>
      candidates[p.1]?.map fun hit => { hit with signalScore := p.2 }).take config.k
    let b := if config.writeBack = true ∧ readOnly = false then b.writeBack S now results else b
    b.associativeSpreadAs S C readOnly results config.spread visibility

/-- `recall_cascade_scoped`. -/
def recallCascadeScopedAs (query : String) (context : RecognitionContext)
    (config : CascadePipelineConfig) (visibility : Visibility) : BrainState L × CascadeResult :=
  let (b, hits) := b.runCascadePipelineScopedAs S C now readOnly query context config visibility
  (b, { mergedHits := hits
        totalTokensUsed := (hits.map fun h => h.tokens + 5).sum
        maxConfidence := (hits.head?.map fun h => min h.signalScore (85 / 100)).getD 0 })

end

variable {S : BrainSetup} {C : CascadeSetup} {now : String} {readOnly : Bool} {b : BrainState L}
  {visibility : Visibility}

/-! ### A writable brain -/

/-- On a writable brain these are the recalls of a brain. -/
theorem recallTopkFtsAs_writable :
    (b.recallTopkFtsAs S false) = b.recallTopkFts S := rfl

theorem crossSeedAs_writable :
    crossSeedAs (L := L) S false = crossSeed S := rfl

theorem associativeSpreadAs_writable :
    b.associativeSpreadAs S C false = b.associativeSpread S C := rfl

theorem recallCascadeScopedAs_writable :
    b.recallCascadeScopedAs S C now false = b.recallCascadeScoped S C now := by
  unfold recallCascadeScopedAs recallCascadeScoped runCascadePipelineScopedAs
    runCascadePipelineScoped
  simp only [and_true, associativeSpreadAs_writable]

/-! ### What is left of the store -/

/-- The number of retrievals that are logged. -/
def logged (b : BrainState L) : ℕ := b.cached.store.retrievalEvents.rows.length

theorem le_foldr_max {n : ℕ} {ns : List ℕ} (h : n ∈ ns) : n ≤ ns.foldr max 0 := by
  induction ns with
  | nil => exact absurd h List.not_mem_nil
  | cons first ns ih =>
    rw [List.foldr_cons]
    rcases List.mem_cons.1 h with rfl | h
    · exact le_max_left n _
    · exact le_max_of_le_right (ih h)

/-- The id of a logged retrieval is a new one, so that it is logged. -/
theorem length_logRetrievalEvent (s : Store) (json : String) :
    (s.logRetrievalEvent json).retrievalEvents.rows.length =
      s.retrievalEvents.rows.length + 1 := by
  have hnew : ¬ s.retrievalEvents.Clashes
      ⟨(s.retrievalEvents.rows.map RetrievalEvent.id).foldr max 0 + 1, json⟩ := by
    rintro ⟨event, hevent, hid⟩
    have hle := le_foldr_max (List.mem_map_of_mem (f := RetrievalEvent.id) hevent)
    have hsame : event.id = (s.retrievalEvents.rows.map RetrievalEvent.id).foldr max 0 + 1 := hid
    omega
  show (s.retrievalEvents.insertOrIgnore _).rows.length = _
  rw [Table.rows_insertOrIgnore_of_not_clashes hnew, List.length_append, List.length_singleton]

/-- Full-text recall without a word to look for. -/
theorem recallTopkFtsAs_of_no_words {query : String} {k fetchMult : ℕ}
    (h : S.ftsQueryWords query = []) :
    b.recallTopkFtsAs S readOnly query k fetchMult visibility = (b, []) := by
  rw [recallTopkFtsAs, if_pos h]

/-- A read-only brain is left as it is. -/
theorem recallTopkFtsAs_readOnly {query : String} {k fetchMult : ℕ} :
    (b.recallTopkFtsAs S true query k fetchMult visibility).1 = b := by
  unfold recallTopkFtsAs
  dsimp only
  split
  · rfl
  · split <;> rfl

/-- A writable brain logs the recall, if there is a word to look for. -/
theorem store_recallTopkFtsAs {query : String} {k fetchMult : ℕ}
    (h : S.ftsQueryWords query ≠ []) :
    (b.recallTopkFtsAs S false query k fetchMult visibility).1.cached.store =
      b.cached.store.logRetrievalEvent (jsonIds
        ((b.topkResults S (S.ftsQueryWords query) k fetchMult visibility).map MemoryHit.id)) := by
  unfold recallTopkFtsAs
  dsimp only
  rw [if_neg h]
  split <;> rfl

theorem logged_recallTopkFtsAs {query : String} {k fetchMult : ℕ}
    (h : S.ftsQueryWords query ≠ []) :
    logged (b.recallTopkFtsAs S false query k fetchMult visibility).1 = logged b + 1 := by
  rw [logged, store_recallTopkFtsAs h, length_logRetrievalEvent]
  rfl

/-! ### Spreading -/

theorem brain_foldl_crossMate {existing : List String} {budget : ℕ} {mates : List MemoryHit}
    {acc : CrossState L} : (mates.foldl (crossMate existing budget) acc).brain = acc.brain := by
  induction mates generalizing acc with
  | nil => rfl
  | cons mate mates ih =>
    rw [List.foldl_cons, ih]
    unfold crossMate
    split
    · rfl
    · split
      · rfl
      · split <;> rfl

/-- A seed is recalled, until the budget is spent. -/
theorem brain_crossSeedAs {existing : List String} {n budget : ℕ} {acc : CrossState L}
    {content : String} (h : acc.full = false) :
    (crossSeedAs S readOnly existing n budget visibility acc content).brain =
      (acc.brain.recallTopkFtsAs S readOnly content (n + 4) 3 visibility).1 := by
  unfold crossSeedAs
  rw [if_neg (by simp [h])]
  exact brain_foldl_crossMate

/-- A seed without a word to look for is passed over. -/
theorem crossSeedAs_of_no_words {existing : List String} {n budget : ℕ} {acc : CrossState L}
    {content : String} (h : S.ftsQueryWords content = []) :
    crossSeedAs S readOnly existing n budget visibility acc content = acc := by
  unfold crossSeedAs
  split
  · rfl
  · rw [recallTopkFtsAs_of_no_words h]
    dsimp only
    rw [List.take_nil, List.foldl_nil]

/-- No seed takes a retrieval off the log. -/
theorem logged_le_crossSeedAs {existing : List String} {n budget : ℕ} {acc : CrossState L}
    {content : String} :
    logged acc.brain ≤
      logged (crossSeedAs S false existing n budget visibility acc content).brain := by
  by_cases hwords : S.ftsQueryWords content = []
  · rw [crossSeedAs_of_no_words hwords]
  · cases hfull : acc.full with
    | true => simp [crossSeedAs, hfull]
    | false =>
      rw [brain_crossSeedAs hfull, logged_recallTopkFtsAs hwords]
      omega

theorem logged_le_foldl_crossSeedAs {existing contents : List String} {n budget : ℕ}
    {acc : CrossState L} :
    logged acc.brain ≤
      logged (contents.foldl (crossSeedAs S false existing n budget visibility) acc).brain := by
  induction contents generalizing acc with
  | nil => exact le_refl _
  | cons content contents ih => exact logged_le_crossSeedAs.trans ih

/-- The first seed with a word to look for is recalled, and logged. -/
theorem logged_lt_foldl_crossSeedAs {existing contents : List String} {n budget : ℕ}
    {acc : CrossState L} (hfull : acc.full = false)
    (hwords : ∃ content ∈ contents, S.ftsQueryWords content ≠ []) :
    logged acc.brain <
      logged (contents.foldl (crossSeedAs S false existing n budget visibility) acc).brain := by
  induction contents with
  | nil => simp at hwords
  | cons content contents ih =>
    rw [List.foldl_cons]
    by_cases hfirst : S.ftsQueryWords content = []
    · rw [crossSeedAs_of_no_words hfirst]
      refine ih ?_
      simpa [hfirst] using hwords
    · have hseed : logged (crossSeedAs S false existing n budget visibility acc content).brain =
          logged acc.brain + 1 := by
        rw [brain_crossSeedAs hfull, logged_recallTopkFtsAs hfirst]
      have hrest : logged (crossSeedAs S false existing n budget visibility acc content).brain ≤
          logged (contents.foldl (crossSeedAs S false existing n budget visibility)
            (crossSeedAs S false existing n budget visibility acc content)).brain :=
        logged_le_foldl_crossSeedAs
      omega

theorem foldl_crossSeedAs_of_no_words {existing contents : List String} {n budget : ℕ}
    {acc : CrossState L} (h : ∀ content ∈ contents, S.ftsQueryWords content = []) :
    contents.foldl (crossSeedAs S readOnly existing n budget visibility) acc = acc := by
  induction contents with
  | nil => rfl
  | cons content contents ih =>
    rw [List.foldl_cons, crossSeedAs_of_no_words (h content List.mem_cons_self)]
    exact ih fun content hcontent => h content (List.mem_cons_of_mem _ hcontent)

theorem brain_foldl_crossSeedAs_readOnly {existing contents : List String} {n budget : ℕ}
    {acc : CrossState L} :
    (contents.foldl (crossSeedAs S true existing n budget visibility) acc).brain = acc.brain := by
  induction contents generalizing acc with
  | nil => rfl
  | cons content contents ih =>
    rw [List.foldl_cons, ih]
    cases hfull : acc.full with
    | true => simp [crossSeedAs, hfull]
    | false => rw [brain_crossSeedAs hfull, recallTopkFtsAs_readOnly]

/-- No seed is recalled in a way that is logged. -/
def QuietSeeds (S : BrainSetup) (readOnly : Bool) (seeds : List MemoryHit) : Prop :=
  readOnly = true ∨ ∀ hit ∈ seeds, S.ftsQueryWords hit.content = []

/-- **Spreading across sessions** writes, unless the seeds are quiet. -/
theorem crossSessionAs_quiet_iff {hits : List MemoryHit} {seeds n budget : ℕ} :
    (b.crossSessionAs S readOnly hits seeds n budget visibility).1.cached.store.retrievalEvents =
        b.cached.store.retrievalEvents ↔ QuietSeeds S readOnly (hits.take seeds) := by
  unfold crossSessionAs
  dsimp only
  cases readOnly with
  | true =>
    rw [brain_foldl_crossSeedAs_readOnly]
    exact iff_of_true rfl (Or.inl rfl)
  | false =>
    by_cases hquiet : ∀ hit ∈ hits.take seeds, S.ftsQueryWords hit.content = []
    · rw [foldl_crossSeedAs_of_no_words (List.forall_mem_map.2 hquiet)]
      exact iff_of_true rfl (Or.inr hquiet)
    · refine iff_of_false (fun hsame => ?_) (by simp [QuietSeeds, hquiet])
      obtain ⟨hit, hhit, hword⟩ :
          ∃ hit ∈ hits.take seeds, S.ftsQueryWords hit.content ≠ [] := by simpa using hquiet
      have hlogged : logged (CrossState.mk b [] 0 false).brain <
          logged (((hits.take seeds).map MemoryHit.content).foldl
            (crossSeedAs S false (hits.map MemoryHit.key) n budget visibility) { brain := b }).brain :=
        logged_lt_foldl_crossSeedAs rfl ⟨hit.content, List.mem_map_of_mem hhit, hword⟩
      rw [logged, logged, hsame] at hlogged
      exact lt_irrefl _ hlogged

theorem memories_crossSessionAs {hits : List MemoryHit} {seeds n budget : ℕ} :
    (b.crossSessionAs S readOnly hits seeds n budget visibility).1.cached.store.memories =
      b.cached.store.memories := by
  cases readOnly with
  | true =>
    unfold crossSessionAs
    dsimp only
    rw [brain_foldl_crossSeedAs_readOnly]
  | false =>
    have hrow : b.cached.store.Scoped visibility fun _ => True :=
      ⟨fun _ _ _ _ => trivial, fun _ _ _ => trivial⟩
    exact (scoped_crossSession (S := S) hrow).1

theorem associativeSpreadAs_quiet_iff {hits : List MemoryHit} {cfg : AssocSpreadConfig} :
    (b.associativeSpreadAs S C readOnly hits cfg visibility).1.cached.store.retrievalEvents =
        b.cached.store.retrievalEvents ↔
      (cfg.mode = .crossSession ∨ cfg.mode = .combined →
        QuietSeeds S readOnly (hits.take cfg.seeds)) := by
  unfold associativeSpreadAs
  split
  case h_3 hmode | h_4 hmode =>
    -- the modes that recall the seeds
    simpa [hmode] using crossSessionAs_quiet_iff
  all_goals simp [*]

theorem memories_associativeSpreadAs {hits : List MemoryHit} {cfg : AssocSpreadConfig} :
    (b.associativeSpreadAs S C readOnly hits cfg visibility).1.cached.store.memories =
      b.cached.store.memories := by
  unfold associativeSpreadAs
  split
  case h_3 | h_4 => exact memories_crossSessionAs
  all_goals rfl

/-! ### The cascade -/

/-- The recall of a brain that is asked not to write back: what it logs is logged by the
spreading, of its core recall set. -/
theorem recallCascadeScopedAs_quiet_iff {query : String} {context : RecognitionContext}
    {config : CascadePipelineConfig} (h : config.writeBack = false) :
    (b.recallCascadeScopedAs S C now readOnly query context config
        visibility).1.cached.store.retrievalEvents = b.cached.store.retrievalEvents ↔
      (config.spread.mode = .crossSession ∨ config.spread.mode = .combined →
        QuietSeeds S readOnly
          ((b.coreHits S C query context config visibility).take config.spread.seeds)) := by
  unfold recallCascadeScopedAs runCascadePipelineScopedAs coreHits
  dsimp only
  split
  · simp [store_cascadeRetrieveScoped, QuietSeeds]
  · rw [if_neg (by simp [h]), ← store_cascadeRetrieveScoped (S := S) (C := C) (b := b)]
    exact associativeSpreadAs_quiet_iff

theorem memories_recallCascadeScopedAs {query : String} {context : RecognitionContext}
    {config : CascadePipelineConfig} (h : config.writeBack = false) :
    (b.recallCascadeScopedAs S C now readOnly query context config
      visibility).1.cached.store.memories = b.cached.store.memories := by
  unfold recallCascadeScopedAs runCascadePipelineScopedAs
  dsimp only
  split
  · rw [store_cascadeRetrieveScoped]
  · rw [if_neg (by simp [h]), memories_associativeSpreadAs, store_cascadeRetrieveScoped]

end BrainState

/-! ## A fan-out and its members -/

/-- A brain a coordinator holds, opened read-only or not. -/
structure Member (L : WingCache) where
  brainId : Bytes32
  weight : Option ℚ := some 1
  setup : BrainSetup
  cascade : CascadeSetup
  now : String
  readOnly : Bool
  brain : BrainState L

section

variable {L : WingCache}

/-- `recall_cascade_scoped` of a member. -/
def Member.recall (m : Member L) (query : String) (context : RecognitionContext)
    (config : CascadePipelineConfig) (visibility : Visibility) : BrainState L × CascadeResult :=
  m.brain.recallCascadeScopedAs m.setup m.cascade m.now m.readOnly query context config visibility

/-- A member, by what it answers. -/
def Member.child (m : Member L) : Child where
  brainId := m.brainId
  weight := m.weight
  recallCascadeScoped query context config visibility :=
    .ok (m.recall query context config visibility).2

/-- A coordinator and the brains it holds. -/
structure Federation (L : WingCache) where
  members : List (Member L)
  nodup : (members.map Member.brainId).Nodup

/-- The coordinator. -/
def Federation.coordinator (f : Federation L) : FederationCoordinator where
  children := f.members.map Member.child
  nodup := by rw [List.map_map]; exact f.nodup

/-- `fan_out_recall_with_policy`, and the members after it: each is asked once. -/
def Federation.fanOutRecallWithPolicy (env : Env) (pf : Platform) (isWhitespace : Char → Bool)
    (order : Shuffle ((Bytes32 × Bytes32) × ℕ)) (f : Federation L) (query : String)
    (context : RecognitionContext) (config : CascadePipelineConfig) (visibility : Visibility)
    (policy : MergePolicy) : List (Member L) × FanoutResult :=
  (f.members.map fun m =>
      { m with brain := (m.recall query context { config with writeBack := false } visibility).1 },
    f.coordinator.fanOutRecallWithPolicy env pf isWhitespace order query context config visibility
      policy)

/-- What a read should leave alone: the memories, with their scores, and the log of
retrievals. -/
def Member.remembered (m : Member L) :
    Table MemoryRow MemoryRow.Clash × Table RetrievalEvent (SameKey RetrievalEvent.id) :=
  (m.brain.cached.store.memories, m.brain.cached.store.retrievalEvents)

/-- The member was opened read-only, or the spreading does not cross sessions, or no seed of the
core recall set has a word to look for. -/
def Member.Quiet (m : Member L) (query : String) (context : RecognitionContext)
    (config : CascadePipelineConfig) (visibility : Visibility) : Prop :=
  config.spread.mode = .crossSession ∨ config.spread.mode = .combined →
    BrainState.QuietSeeds m.setup m.readOnly
      ((m.brain.coreHits m.setup m.cascade query context { config with writeBack := false }
        visibility).take config.spread.seeds)

/-- **When a fan-out writes nothing.**  Whatever the brains, the query, the boundary, the policy
and the configuration, it leaves the memories and the log of every member as they were exactly
when every member is quiet. -/
theorem fanOut_writes_nothing_iff (env : Env) (pf : Platform) (isWhitespace : Char → Bool)
    (order : Shuffle ((Bytes32 × Bytes32) × ℕ)) (f : Federation L) (query : String)
    (context : RecognitionContext) (config : CascadePipelineConfig) (visibility : Visibility)
    (policy : MergePolicy) :
    (f.fanOutRecallWithPolicy env pf isWhitespace order query context config visibility
        policy).1.map Member.remembered = f.members.map Member.remembered ↔
      ∀ m ∈ f.members, m.Quiet query context config visibility := by
  unfold Federation.fanOutRecallWithPolicy
  dsimp only
  rw [List.map_map, List.map_inj_left]
  refine forall₂_congr fun m _ => ?_
  show (_, _) = (_, _) ↔ _
  rw [Prod.mk.injEq]
  exact (and_iff_right (BrainState.memories_recallCascadeScopedAs rfl)).trans
    (BrainState.recallCascadeScopedAs_quiet_iff rfl)

end

/-! ## A fan-out that writes -/

/-- The peer of before, open for writing. -/
def writablePeer : Member wingCache where
  brainId := peerId
  setup := { authorBrain with ftsQueryWords := fun query => [query] }
  cascade := plainCascade
  now := "2026-01-03 09:10:00"
  readOnly := false
  brain := BrainState.teamNote

/-- It is the only member. -/
def peerFederation : Federation wingCache := ⟨[writablePeer], List.nodup_singleton _⟩

/-- What it is asked for the team, with spreading across sessions. -/
def askedAcrossSessions : List (Member wingCache) × FanoutResult :=
  peerFederation.fanOutRecallWithPolicy authorEnv .plain (fun c => c.isWhitespace) .inOrder "monday"
    {} { spread := { mode := .crossSession } } .team {}

/-- **A fan-out that writes**: it finds the note, and the recall of its content is logged. -/
theorem session_spread_logs : askedAcrossSessions.2.failed = [] ∧
    askedAcrossSessions.1.map Member.remembered ≠ peerFederation.members.map Member.remembered := by
  refine ⟨by decide +kernel, fun h => ?_⟩
  have hlogs := congrArg (List.map fun p => p.2.rows.length) h
  have hgrown : (askedAcrossSessions.1.map Member.remembered).map (fun p => p.2.rows.length) ≠
      (peerFederation.members.map Member.remembered).map fun p => p.2.rows.length := by
    decide +kernel
  exact hgrown hlogs

end Spectral
