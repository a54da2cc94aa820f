import Spectral.Recall.Render
import Spectral.Turn.Policy

/-!
# One retrieval

`retrieve` goes from a question to the text an actor reads: candidates, a re-ranking for the question,
the suppression of superseded facts, the cut to the size of the output, the rendering.

* `retrieve` — the pipeline; `candidates` — what enters the suppression.
* `staleBy` — the key that a candidate is superseded by, if it is.
* `NeverDropsBoth` — a fact that is dropped as superseded from what would have been returned has the
  current one returned in its place.
* `retrieve_neverDropsBoth_iff` — so it is exactly if each of these current ones has, among the
  candidates that are not superseded, fewer before it than are returned.
-/

namespace Spectral

open Spectral.Lib

/-! ## Plans -/

/-- `TOPK_MIN_K`. -/
def topkMinK : ℕ := 40

/-- `RERANK_POOL_WIDEN`. -/
def rerankPoolWiden : ℕ := 2

/-- `RecallTopKConfig`, less the settings that only the re-ranking reads. -/
structure RecallTopKConfig where
  k : ℕ := 40
  fetchMult : ℕ := 3

/-- `AnswerabilityConfig`; the weights are given by what they make of a hit at its place, for a query
of a shape. -/
structure AnswerabilityConfig where
  enabled : Bool := false
  score : String → QuestionShape → ℕ → MemoryHit → ℚ := fun _ _ _ _ => 0

/-- `RetrievePlan`. -/
structure RetrievePlan where
  shape : QuestionShape
  route : RetrievalRoute
  cascade : CascadePipelineConfig
  topk : RecallTopKConfig
  context : RecognitionContext := {}
  visibility : Visibility
  answerability : AnswerabilityConfig := {}
  supersession : Supersession.SupersessionConfig := {}
  render : Render.RenderOptions := {}

namespace RetrievePlan

/-- `v1`. -/
def v1 (isMatch : String → String → Bool) (pf : Platform) (question : String)
    (visibility : Visibility) : RetrievePlan :=
  let shape := QuestionShape.classify isMatch pf question
  let cascade := shape.cascadeProfile.toCascadePipelineConfig
  { shape, route := shape.retrievalRoute, topk := { k := max cascade.k topkMinK }, cascade, visibility }

/-- `output_k`. -/
def outputK (plan : RetrievePlan) : ℕ :=
  match plan.route with
  | .topkFts => plan.topk.k
  | .tact | .graph | .cascade => plan.cascade.k

/-- `widen`. -/
def widen (plan : RetrievePlan) : ℕ :=
  if plan.answerability.enabled || plan.supersession.enabled then rerankPoolWiden else 1

end RetrievePlan

/-- `Retrieved`. -/
structure Retrieved where
  hits : List MemoryHit
  lines : List String
  shape : QuestionShape
  route : RetrievalRoute
  candidatesConsidered : ℕ
  superseded : List (String × String)

/-! ## The stages -/

/-- `answerability::rerank`. -/
def answerabilityRerank (config : AnswerabilityConfig) (query : String) (shape : QuestionShape)
    (hits : List MemoryHit) : List MemoryHit :=
  if !config.enabled || decide (hits.length < 2) then hits
  else
    let score (p : MemoryHit × ℕ) := config.score query shape p.2 p.1
    (hits.zipIdx.insertionSort fun a b =>
      score b < score a ∨ score a = score b ∧ a.1.id ≤ b.1.id).map Prod.fst

/-- What the suppression reads of a hit. -/
def MemoryHit.fact (hit : MemoryHit) : Supersession.Hit :=
  ⟨hit.key, hit.content, some hit.createdAt, hit.episodeId⟩

/-- What the rendering reads of a hit. -/
def MemoryHit.turn (hit : MemoryHit) : Render.Hit := { hit.fact with description := hit.description }

section

variable (u : CharTables) (re : Supersession.Patterns)

/-- `supersession::partition`: the hits kept, and those suppressed with the key of what supersedes
them. -/
def partitionHits (config : Supersession.SupersessionConfig) (hits : List MemoryHit) :
    List MemoryHit × List (MemoryHit × String) :=
  if !config.enabled || decide (hits.length < 2) then (hits, [])
  else
    let facts := hits.map MemoryHit.fact
    let judge (p : MemoryHit × ℕ) :=
      Supersession.suppressor u re config (Supersession.winner u re facts) (p.1.fact, p.2)
    ((hits.zipIdx.filter fun p => (judge p).isNone).map Prod.fst,
      hits.zipIdx.filterMap fun p => (judge p).map fun key => (p.1, key))

/-- The key that a candidate is superseded by. -/
def staleBy (config : Supersession.SupersessionConfig) (candidates : List MemoryHit)
    (p : MemoryHit × ℕ) : Option String :=
  (Supersession.superseder u re config (candidates.map MemoryHit.fact) (p.1.fact, p.2)).map
    fun w => w.1.key

namespace BrainState

variable {L : WingCache} (S : BrainSetup) (C : CascadeSetup) (now : String) (b : BrainState L)

/-- The first two stages of `retrieve`: the recall, with a wider pool if a stage can use it, and the
re-ranking for the question. -/
def candidates (query : String) (plan : RetrievePlan) : BrainState L × List MemoryHit :=
  let (b, hits) :=
    match plan.route with
    | .topkFts =>
      b.recallTopkFts S query (plan.topk.k * plan.widen) plan.topk.fetchMult plan.visibility
    | .graph | .tact | .cascade =>
      let (b, result) := b.recallCascadeScoped S C now query plan.context
        { plan.cascade with k := plan.cascade.k * plan.widen } plan.visibility
      (b, result.mergedHits)
  (b, answerabilityRerank plan.answerability query plan.shape hits)

/-- `retrieve`. -/
def retrieve (query : String) (plan : RetrievePlan) : BrainState L × Retrieved :=
  let (b, candidates) := b.candidates S C now query plan
  let report :=
    if plan.supersession.enabled then partitionHits u re plan.supersession candidates
    else (candidates, [])
  let hits := report.1.take plan.outputK
  (b, { hits, lines := Render.sessionGrouped u plan.render (hits.map MemoryHit.turn)
        shape := plan.shape, route := plan.route, candidatesConsidered := candidates.length
        superseded := report.2.map fun p => (p.1.key, p.2) })

end BrainState

/-! ## What is to be -/

/-- What a retrieval is to make of its candidates: as many of those kept as are returned, in their
order, and no fact dropped from the first candidates without the one that supersedes it. -/
structure NeverDropsBoth (plan : RetrievePlan) (candidates : List MemoryHit) (out : Retrieved) :
    Prop where
  winners : ∀ p ∈ out.superseded, (∃ c ∈ candidates.take plan.outputK, c.key = p.1) →
    ∃ h ∈ out.hits, h.key = p.2
  order : out.hits.Sublist candidates
  count : out.hits.length =
    min plan.outputK (partitionHits u re plan.supersession candidates).1.length

/-- What supersedes one of the first candidates has, among the candidates that are not superseded,
fewer before it than are returned. -/
def WinnersInReach (plan : RetrievePlan) (candidates : List MemoryHit) : Prop :=
  ∀ p ∈ candidates.zipIdx, ∀ key, staleBy u re plan.supersession candidates p = some key →
    (∃ c ∈ candidates.take plan.outputK, c.key = p.1.key) →
      ∃ q ∈ candidates.zipIdx, q.1.key = key ∧ staleBy u re plan.supersession candidates q = none ∧
        (candidates.zipIdx.take q.2).countP (fun x =>
          (staleBy u re plan.supersession candidates x).isNone) < plan.outputK

end

variable {u : CharTables} {re : Supersession.Patterns} {config : Supersession.SupersessionConfig}
  {candidates : List MemoryHit} {plan : RetrievePlan}

/-- The answerability only changes the order. -/
theorem perm_answerabilityRerank (config : AnswerabilityConfig) (query : String)
    (shape : QuestionShape) (hits : List MemoryHit) :
    (answerabilityRerank config query shape hits).Perm hits := by
  unfold answerabilityRerank
  split
  · exact .rfl
  · have hsort := (List.perm_insertionSort (fun a b : MemoryHit × ℕ =>
      config.score query shape b.2 b.1 < config.score query shape a.2 a.1 ∨
        config.score query shape a.2 a.1 = config.score query shape b.2 b.1 ∧ a.1.id ≤ b.1.id)
      hits.zipIdx).map Prod.fst
    rwa [List.zipIdx_map_fst] at hsort

/-- The suppression is that of the facts the hits state. -/
theorem map_fact_partitionHits (u : CharTables) (re : Supersession.Patterns)
    (config : Supersession.SupersessionConfig) (hits : List MemoryHit) :
    (partitionHits u re config hits).1.map MemoryHit.fact =
      (Supersession.partition u re config (hits.map MemoryHit.fact)).kept := by
  unfold partitionHits Supersession.partition
  rw [List.length_map]
  split
  · rfl
  · dsimp only
    rw [List.zipIdx_map, List.filter_map, List.map_map, List.map_map]
    rfl

/-- **The suppression**: what is kept, and what is not, by what supersedes it. -/
theorem partitionHits_eq (henabled : config.enabled = true) :
    partitionHits u re config candidates =
      ((candidates.zipIdx.filter fun p => (staleBy u re config candidates p).isNone).map Prod.fst,
        candidates.zipIdx.filterMap fun p =>
          (staleBy u re config candidates p).map fun key => (p.1, key)) := by
  unfold partitionHits
  split
  · rename_i hshort
    have hlen : candidates.length < 2 := by simpa [henabled] using hshort
    have hfresh : ∀ p ∈ candidates.zipIdx, staleBy u re config candidates p = none := by
      intro p hp
      have hfact : (p.1.fact, p.2) ∈ (candidates.map MemoryHit.fact).zipIdx := by
        rw [List.zipIdx_map]
        exact List.mem_map_of_mem (f := Prod.map MemoryHit.fact id) hp
      rw [staleBy, Option.map_eq_none_iff, Option.eq_none_iff_forall_ne_some]
      intro w hw
      have htwo := Supersession.two_le_of_superseder hfact hw
      rw [List.length_map] at htwo
      omega
    have hkept : candidates.zipIdx.filter (fun p => (staleBy u re config candidates p).isNone) =
        candidates.zipIdx := List.filter_eq_self.2 fun p hp => by rw [hfresh p hp]; rfl
    have hsuppressed : candidates.zipIdx.filterMap (fun p =>
        (staleBy u re config candidates p).map fun key => (p.1, key)) = [] :=
      List.filterMap_eq_nil_iff.2 fun p hp => by rw [hfresh p hp]; rfl
    rw [hkept, hsuppressed, List.zipIdx_map_fst]
  · simp only [Supersession.suppressor_winner, staleBy]

/-- What is returned is the first of what is kept. -/
theorem mem_take_kept_iff {k : ℕ} {h : MemoryHit} (henabled : config.enabled = true) :
    h ∈ (partitionHits u re config candidates).1.take k ↔
      ∃ q ∈ candidates.zipIdx, q.1 = h ∧ staleBy u re config candidates q = none ∧
        (candidates.zipIdx.take q.2).countP
          (fun x => (staleBy u re config candidates x).isNone) < k := by
  rw [partitionHits_eq henabled, ← List.map_take, List.mem_map]
  constructor
  · rintro ⟨q, hq, rfl⟩
    obtain ⟨hmem, hfresh, hlt⟩ := mem_take_filter_zipIdx_iff.1 hq
    exact ⟨q, hmem, rfl, Option.isNone_iff_eq_none.1 hfresh, hlt⟩
  · rintro ⟨q, hmem, rfl, hfresh, hlt⟩
    exact ⟨q, mem_take_filter_zipIdx_iff.2 ⟨hmem, Option.isNone_iff_eq_none.2 hfresh, hlt⟩, rfl⟩

theorem sublist_partitionHits (henabled : config.enabled = true) :
    (partitionHits u re config candidates).1.Sublist candidates := by
  rw [partitionHits_eq henabled]
  have hsub := (List.filter_sublist (p := fun p => (staleBy u re config candidates p).isNone)
    (l := candidates.zipIdx)).map Prod.fst
  rwa [List.zipIdx_map_fst] at hsub

namespace BrainState

variable {L : WingCache}

/-- **No version is lost** exactly if the current ones are in reach. -/
theorem retrieve_neverDropsBoth_iff (u : CharTables) (re : Supersession.Patterns) (S : BrainSetup)
    (C : CascadeSetup) (now : String) (b : BrainState L) (query : String)
    (hplan : plan.supersession.enabled = true) :
    NeverDropsBoth u re plan (b.candidates S C now query plan).2
        (b.retrieve u re S C now query plan).2 ↔
      WinnersInReach u re plan (b.candidates S C now query plan).2 := by
  generalize hcandidates : (b.candidates S C now query plan).2 = candidates
  have hhits : (b.retrieve u re S C now query plan).2.hits =
      (partitionHits u re plan.supersession candidates).1.take plan.outputK := by
    simp only [retrieve, hplan, if_true, hcandidates]
  have hsuperseded : (b.retrieve u re S C now query plan).2.superseded =
      (partitionHits u re plan.supersession candidates).2.map fun p => (p.1.key, p.2) := by
    simp only [retrieve, hplan, if_true, hcandidates]
  -- what is reported as superseded
  have hmem : ∀ pair, pair ∈ (b.retrieve u re S C now query plan).2.superseded ↔
      ∃ p ∈ candidates.zipIdx, ∃ key, staleBy u re plan.supersession candidates p = some key ∧
        (p.1.key, key) = pair := by
    intro pair
    rw [hsuperseded, partitionHits_eq hplan, List.mem_map]
    constructor
    · rintro ⟨_, hstale, rfl⟩
      obtain ⟨p, hp, hstale⟩ := List.mem_filterMap.1 hstale
      obtain ⟨key, hkey, rfl⟩ := Option.map_eq_some_iff.1 hstale
      exact ⟨p, hp, key, hkey, rfl⟩
    · rintro ⟨p, hp, key, hkey, rfl⟩
      exact ⟨(p.1, key), List.mem_filterMap.2 ⟨p, hp, by rw [hkey]; rfl⟩, rfl⟩
  constructor
  · intro hnever p hp key hkey hfirst
    obtain ⟨h, hh, hhkey⟩ := hnever.winners _ ((hmem _).2 ⟨p, hp, key, hkey, rfl⟩) hfirst
    rw [hhits] at hh
    obtain ⟨q, hq, rfl, hfresh, hlt⟩ := (mem_take_kept_iff hplan).1 hh
    exact ⟨q, hq, hhkey, hfresh, hlt⟩
  · intro hreach
    refine ⟨fun pair hpair hfirst => ?_, ?_, ?_⟩
    · obtain ⟨p, hp, key, hkey, rfl⟩ := (hmem pair).1 hpair
      obtain ⟨q, hq, hqkey, hfresh, hlt⟩ := hreach p hp key hkey hfirst
      rw [hhits]
      exact ⟨q.1, (mem_take_kept_iff hplan).2 ⟨q, hq, rfl, hfresh, hlt⟩, hqkey⟩
    · rw [hhits]
      exact (List.take_sublist _ _).trans (sublist_partitionHits hplan)
    · rw [hhits, List.length_take]

end BrainState

/-! ## Neither phone -/

/-- A note of a conversation. -/
def phoneNote (id key content createdAt : String) : MemoryRow :=
  { id, key, content, createdAt, updatedAt := createdAt }

/-- Two notes that state which phone it is, the older one first, and two others between them. -/
def phoneStore : Store where
  memories := .ofList
    [phoneNote "a1" "s1:turn:0:user" "my phone is a Nokia" "2026-01-01 09:00:00",
      phoneNote "b2" "s2:turn:0:user" "the phone case is red" "2026-01-02 09:00:00",
      phoneNote "c3" "s3:turn:0:user" "the phone bill is paid" "2026-01-03 09:00:00",
      phoneNote "d4" "s4:turn:0:user" "my phone is a Pixel" "2026-01-04 09:00:00"]

/-- The brain with these notes. -/
def phoneBrain : BrainState wingCache :=
  { cached := { store := phoneStore, cache := wingCache.empty } }

/-- What the pattern `my X is` captures in them. -/
def phonePatterns : Supersession.Patterns where
  myXIs content :=
    if content ∈ ["my phone is a Nokia", "my phone is a Pixel"] then some "phone" else none
  switchedTo _ := none

/-- Full-text recall in its own order, of single words. -/
def phoneSetup : BrainSetup := { peer with ftsQueryWords := fun query => [query] }

/-- A cascade that does not re-rank. -/
def phoneCascade : CascadeSetup where
  rerank _ _ _ hits := hits.zipIdx.map fun p => (p.2, p.1.signalScore)
  parseTs _ := none

/-- Two hits, without superseded facts. -/
def phonePlan : RetrievePlan where
  shape := .temporal
  route := .topkFts
  cascade := { k := 2 }
  topk := { k := 2 }
  visibility := .priv
  supersession := { enabled := true }

theorem phoneBrain_neverDropsBoth_iff :
    NeverDropsBoth .ascii phonePatterns phonePlan
        (phoneBrain.candidates phoneSetup phoneCascade "2026-01-05 09:00:00" "phone" phonePlan).2
        (phoneBrain.retrieve .ascii phonePatterns phoneSetup phoneCascade "2026-01-05 09:00:00" "phone"
          phonePlan).2 ↔
      WinnersInReach .ascii phonePatterns phonePlan
        (phoneBrain.candidates phoneSetup phoneCascade "2026-01-05 09:00:00" "phone" phonePlan).2 :=
  BrainState.retrieve_neverDropsBoth_iff .ascii phonePatterns phoneSetup phoneCascade
    "2026-01-05 09:00:00" phoneBrain "phone" rfl

/-- **Neither phone is returned**: the old one is dropped for the new one, which is behind the cut. -/
theorem neither_phone :
    ¬ NeverDropsBoth .ascii phonePatterns phonePlan
      (phoneBrain.candidates phoneSetup phoneCascade "2026-01-05 09:00:00" "phone" phonePlan).2
      (phoneBrain.retrieve .ascii phonePatterns phoneSetup phoneCascade "2026-01-05 09:00:00" "phone"
        phonePlan).2 := by
  intro hnever
  have hold : ("s1:turn:0:user", "s4:turn:0:user") ∈ (phoneBrain.retrieve .ascii phonePatterns
      phoneSetup phoneCascade "2026-01-05 09:00:00" "phone" phonePlan).2.superseded := by
    decide +kernel
  have hfirst : ∃ c ∈ (phoneBrain.candidates phoneSetup phoneCascade "2026-01-05 09:00:00" "phone"
      phonePlan).2.take phonePlan.outputK, c.key = "s1:turn:0:user" := by
    decide +kernel
  have hgone : ¬ ∃ h ∈ (phoneBrain.retrieve .ascii phonePatterns phoneSetup phoneCascade
      "2026-01-05 09:00:00" "phone" phonePlan).2.hits, h.key = "s4:turn:0:user" := by
    decide +kernel
  exact hgone (hnever.winners _ hold hfirst)

end Spectral
