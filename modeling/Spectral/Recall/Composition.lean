import Mathlib.Algebra.Order.Field.Basic
import Mathlib.Tactic.Linarith
import Mathlib.Tactic.Positivity
import Spectral.Recall.Rerank
import Spectral.Recall.Signals

/-!
# The re-ranking pipeline

The two compositions of `apply_reranking_pipeline_with_query`: boosts that are added to the place of
a candidate (`additiveScore`), and the fusion of the ranks that each signal gives (`fusedScore`).

* `applyRerankingPipelineWithQuery` — the pipeline.  What comes after the scores is that of
  `Spectral.Recall.Rerank`.
* `PostConditions` — what its output promises: every candidate once, but for references to a context
  that repeat, and no episode beyond its cap before the overflow.
* `postConditions_hits` — they hold wherever the episodes are capped.
* `fused_hits_alike` — candidates that no signal tells apart come out by their ids.
* `postConditions_iff` — the fusion of ranks caps no episode.

Numbers are exact.  The parser of time stamps, in nanoseconds, and the powers of one half are
parameters.
-/

namespace Spectral.Ranking

/-- `AmbientBoostWeights`. -/
structure AmbientBoostWeights where
  wingMatch : ℚ := 1
  mismatchPenalty : ℚ := 7 / 10
  freshHour : ℚ := 13 / 10
  freshDay : ℚ := 11 / 10
  clampMin : ℚ := 1 / 2
  clampMax : ℚ := 2

/-- `RerankingConfig`. -/
structure RerankingConfig where
  applySignalScore : Bool := true
  signalScoreWeight : ℚ := 3 / 10
  applyRecency : Bool := true
  recencyHalfLifeDays : ℚ := 365
  applyEntityBoost : Bool := false
  entityBoostWeight : ℚ := 1 / 20
  applyAmbientBoost : Bool := false
  ambientWeights : AmbientBoostWeights := {}
  applyDeclarativeBoost : Bool := false
  declarativeWeight : ℚ := 1 / 10
  coRetrievalWeight : ℚ := 0
  applyEpisodeDiversity : Bool := false
  maxPerEpisode : ℕ := 5
  applyContextDedup : Bool := true
  applyProximity : Bool := false
  proximityWeight : ℚ := 3 / 20
  useRrf : Bool := false
  rrfBm25Weight : ℚ := 1
  rrfDeclarativeWeight : ℚ := 1
  rrfProximityWeight : ℚ := 1
  rrfRecencyWeight : ℚ := 1
  rrfSignalWeight : ℚ := 1
  rrfEntityWeight : ℚ := 1

/-- `RecognitionContext`: of an activity episode only the wing is read. -/
structure RecognitionContext where
  recentActivity : List (Option String) := []
  now : ℤ
  focusWing : Option String := none
  persona : Option String := none

/-- `is_empty`. -/
def RecognitionContext.isEmpty (context : RecognitionContext) : Bool :=
  context.recentActivity.isEmpty && context.focusWing.isNone && context.persona.isNone

/-- What the pipeline calls and is not part of it. -/
structure Env where
  tables : CharTables
  parseCreatedAt : String → Option ℤ
  /-- `0.5_f64.powf`. -/
  halfPow : ℚ → ℚ

/-! ## Signals -/

section

variable (env : Env) (config : RerankingConfig) (context : RecognitionContext)
  (coRetrievalBoosts : String → Option ℚ) (queryWords : List (List Char))

/-- `num_minutes`, of nanoseconds. -/
def numMinutes (d : ℤ) : ℤ := d.tdiv 60000000000

/-- `num_hours`. -/
def numHours (d : ℤ) : ℤ := d.tdiv 3600000000000

/-- `ambient_boost_with`, where its bounds are in order. -/
def ambientBoostWith (hit : MemoryHit) (w : AmbientBoostWeights) : ℚ :=
  if context.isEmpty then 1
  else
    let wingMatch := hit.wing.isSome &&
      (decide (context.focusWing = hit.wing) || decide (hit.wing ∈ context.recentActivity))
    let boost := if wingMatch then w.wingMatch else 1
    let boost :=
      match env.parseCreatedAt hit.createdAt with
      | none => boost
      | some created =>
        let age := numMinutes (context.now - created)
        if 0 ≤ age ∧ age < 60 then boost * w.freshHour
        else if 60 ≤ age ∧ age < 1440 then boost * w.freshDay
        else boost
    let strong := context.focusWing.isSome || !context.recentActivity.isEmpty
    let boost := if strong && !wingMatch then boost * w.mismatchPenalty else boost
    max w.clampMin (min boost w.clampMax)

/-- `f64::clamp` panics where its bounds are crossed. -/
def ambientPanics : Bool :=
  config.applyAmbientBoost && !context.isEmpty &&
    decide (config.ambientWeights.clampMax < config.ambientWeights.clampMin)

/-- `0.5.powf(age / half_life)`, where the time stamp can be read. -/
def freshness (hit : MemoryHit) : Option ℚ :=
  (env.parseCreatedAt hit.createdAt).map fun created =>
    env.halfPow (max ((numHours (context.now - created) : ℚ) / 24) 0 / config.recencyHalfLifeDays)

/-- The stored density, or that of the content. -/
def densityOf (hit : MemoryHit) : ℚ :=
  hit.declarativeDensity.getD (declarativeDensity env.tables hit.content.toList)

/-- The wing of a hit, if it has one. -/
def wingOf (hit : MemoryHit) : Option String := hit.wing.filter fun w => w ≠ ""

/-! ## Boosts -/

/-- `RECENCY_BOOST_WEIGHT`. -/
def recencyBoostWeight : ℚ := 1 / 10

/-- The score of the `i`-th of `n` candidates, before the boost of its wing. -/
def boostedScore (n i : ℕ) (hit : MemoryHit) : ℚ :=
  let score : ℚ := 1 - i / n
  let score :=
    if config.applySignalScore then
      let w := max 0 (min config.signalScoreWeight 1)
      (1 - w) * score + w * hit.signalScore
    else score
  let score :=
    if config.applyAmbientBoost then score * ambientBoostWith env context hit config.ambientWeights
    else score
  let score :=
    if config.applyDeclarativeBoost then
      score + max 0 (min config.declarativeWeight (1 / 5)) * densityOf env hit
    else score
  let score :=
    match coRetrievalBoosts hit.id with
    | some affinity => score + config.coRetrievalWeight * affinity
    | none => score
  let score :=
    if config.applyRecency ∧ 0 < config.recencyHalfLifeDays then
      match freshness env config context hit with
      | some f => score + recencyBoostWeight * f
      | none => score
    else score
  if config.applyProximity ∧ 2 ≤ queryWords.length then
    score + config.proximityWeight * proximityScore env.tables hit.content.toList queryWords
  else score

/-- `max_by`: the last of the indices with the greatest score. -/
def lastMax (scores : ℕ → ℚ) (indices : List ℕ) : Option ℕ :=
  indices.foldl (fun best i =>
    match best with
    | none => some i
    | some b => if scores i < scores b then some b else some i) none

/-- The candidates of a wing. -/
def wingMembers (candidates : List MemoryHit) (wing : String) : List ℕ :=
  (List.range candidates.length).filter fun i =>
    decide ((candidates[i]?.bind wingOf) = some wing)

/-- The composite score of a candidate. -/
def additiveScore (candidates : List MemoryHit) (i : ℕ) : ℚ :=
  let scores (j : ℕ) : ℚ :=
    (candidates[j]?.map (boostedScore env config context coRetrievalBoosts queryWords
      candidates.length j)).getD 0
  match candidates[i]?.bind wingOf with
  | none => scores i
  | some wing =>
    let indices := wingMembers candidates wing
    if config.applyEntityBoost ∧ 2 ≤ indices.length ∧ lastMax scores indices = some i then
      scores i + config.entityBoostWeight
    else scores i

/-! ## Fusion of ranks -/

/-- `RRF_K`. -/
def rrfK : ℚ := 60

/-- The order of a channel: the greatest value first, then by id. -/
def Precedes (candidates : List MemoryHit) (vals : ℕ → ℚ) (a b : ℕ) : Prop :=
  vals b < vals a ∨ vals a = vals b ∧
    (candidates[a]?.map MemoryHit.id).getD "" ≤ (candidates[b]?.map MemoryHit.id).getD ""

instance (candidates : List MemoryHit) (vals : ℕ → ℚ) : DecidableRel (Precedes candidates vals) :=
  fun a b => inferInstanceAs (Decidable (vals b < vals a ∨ vals a = vals b ∧
    (candidates[a]?.map MemoryHit.id).getD "" ≤ (candidates[b]?.map MemoryHit.id).getD ""))

/-- The candidates that a signal scores, in its order. -/
def channelOrder (candidates : List MemoryHit) (vals : ℕ → ℚ) : List ℕ :=
  ((List.range candidates.length).filter fun i => 0 < vals i).insertionSort (Precedes candidates vals)

/-- `add_channel`: what a candidate gets for its rank. -/
def channel (candidates : List MemoryHit) (vals : ℕ → ℚ) (weight : ℚ) (i : ℕ) : ℚ :=
  if weight ≤ 0 then 0
  else
    match (channelOrder candidates vals).idxOf? i with
    | none => 0
    | some rank => weight / (rrfK + rank + 1)

/-- A signal of the candidates. -/
def valuesOf (candidates : List MemoryHit) (f : MemoryHit → ℚ) (i : ℕ) : ℚ :=
  (candidates[i]?.map f).getD 0

/-- One, for the first of the candidates of a wing that has several. -/
def leadsWing (candidates : List MemoryHit) (i : ℕ) : ℚ :=
  match candidates[i]?.bind wingOf with
  | none => 0
  | some wing =>
    let indices := wingMembers candidates wing
    if 2 ≤ indices.length ∧ indices.head? = some i then 1 else 0

/-- The fused score of a candidate. -/
def fusedScore (candidates : List MemoryHit) (i : ℕ) : ℚ :=
  let score := config.rrfBm25Weight / (rrfK + i + 1)
  let score :=
    if config.applyDeclarativeBoost then
      score + channel candidates (valuesOf candidates (densityOf env)) config.rrfDeclarativeWeight i
    else score
  let score :=
    if config.applyProximity ∧ 2 ≤ queryWords.length then
      score + channel candidates (valuesOf candidates fun hit =>
        proximityScore env.tables hit.content.toList queryWords) config.rrfProximityWeight i
    else score
  let score :=
    if config.applyRecency ∧ 0 < config.recencyHalfLifeDays then
      score + channel candidates (valuesOf candidates fun hit =>
        (freshness env config context hit).getD 0) config.rrfRecencyWeight i
    else score
  let score :=
    if config.applySignalScore then
      score + channel candidates (valuesOf candidates MemoryHit.signalScore) config.rrfSignalWeight i
    else score
  if config.applyEntityBoost then
    score + channel candidates (leadsWing candidates) config.rrfEntityWeight i
  else score

/-! ## The pipeline -/

/-- The composition of boosts. -/
def additive : Reranking where
  score := additiveScore env config context coRetrievalBoosts queryWords
  applyContextDedup := config.applyContextDedup
  maxPerEpisode := if config.applyEpisodeDiversity then some config.maxPerEpisode else none

/-- `rrf_fuse`. -/
def rrfFuse : Reranking where
  score := fusedScore env config context queryWords
  applyContextDedup := config.applyContextDedup
  maxPerEpisode := none

/-- `apply_reranking_pipeline_with_query`, if it does not panic. -/
def applyRerankingPipelineWithQuery (candidates : List MemoryHit) : Option (List MemoryHit) :=
  if candidates = [] then some candidates
  else if config.useRrf then some ((rrfFuse env config context queryWords).hits candidates)
  else if ambientPanics config context then none
  else some ((additive env config context coRetrievalBoosts queryWords).hits candidates)

end

/-! ## What the output promises -/

/-- Up to some place no episode is beyond its cap, and from there on the cap of each is reached. -/
def Diverse (cap : ℕ) (out : List MemoryHit) : Prop :=
  ∃ front tail, out = front ++ tail ∧
    (∀ e, front.countP (fun h => decide (episodeKey h = e)) ≤ cap) ∧
      ∀ h ∈ tail, cap ≤ front.countP fun h' => decide (episodeKey h' = episodeKey h)

/-- Each candidate comes once, with its score, but for references to a context that repeat, of
which the best comes. -/
structure Complete (applyContextDedup : Bool) (scores : ℕ → ℚ) (candidates out : List MemoryHit) :
    Prop where
  once : (out.map MemoryHit.id).Nodup
  scored : ∀ h ∈ out, ∃ i, ∃ c : MemoryHit, candidates[i]? = some c ∧
    h = { c with signalScore := scores i }
  kept : ∀ i, ∀ c : MemoryHit, candidates[i]? = some c → { c with signalScore := scores i } ∈ out ∨
    applyContextDedup = true ∧ contextRef c.content ≠ "" ∧
      ∃ h ∈ out, contextRef h.content = contextRef c.content ∧
        h.StrongerFirst { c with signalScore := scores i }
  single : applyContextDedup = true → ∀ h ∈ out, ∀ h' ∈ out, contextRef h.content ≠ "" →
    contextRef h.content = contextRef h'.content → h = h'

/-- The post-conditions of the pipeline: the output is complete, and the episodes are capped. -/
structure PostConditions (config : RerankingConfig) (scores : ℕ → ℚ)
    (candidates out : List MemoryHit) : Prop
    extends Complete config.applyContextDedup scores candidates out where
  diverse : config.applyEpisodeDiversity = true → 0 < config.maxPerEpisode →
    Diverse config.maxPerEpisode out

/-- The score that the pipeline sorts by. -/
def compositeScore (env : Env) (config : RerankingConfig) (context : RecognitionContext)
    (coRetrievalBoosts : String → Option ℚ) (queryWords : List (List Char))
    (candidates : List MemoryHit) : ℕ → ℚ :=
  if config.useRrf then fusedScore env config context queryWords candidates
  else additiveScore env config context coRetrievalBoosts queryWords candidates

/-- **What is re-ranked is complete**. -/
theorem complete_hits (R : Reranking) {candidates : List MemoryHit}
    (hids : (candidates.map MemoryHit.id).Nodup) :
    Complete R.applyContextDedup (R.score candidates) candidates (R.hits candidates) where
  once := by
    have := Reranking.nodup_id_kept (R := R) hids
    rwa [Reranking.hits, List.map_map]
  scored h hh := by
    obtain ⟨p, hp, rfl⟩ := List.mem_map.1 hh
    obtain ⟨c, hc, hscored⟩ := Reranking.mem_scored_iff.1 (Reranking.mem_scored_of_mem_kept hp)
    exact ⟨p.2, c, hc, hscored⟩
  kept i c hc := by
    let p : Placed := ({ c with signalScore := R.score candidates i }, i)
    have hp : p ∈ R.scored candidates := Reranking.mem_scored_iff.2 ⟨c, hc, rfl⟩
    refine (Reranking.mem_kept_or_better hp).imp (fun h => List.mem_map_of_mem h) ?_
    rintro ⟨hon, hne, q, hq, href, hbetter⟩
    exact ⟨hon, hne, q.1, List.mem_map_of_mem hq, href, hbetter⟩
  single hon h hh h' hh' hne hsame := by
    obtain ⟨p, hp, rfl⟩ := List.mem_map.1 hh
    obtain ⟨q, hq, rfl⟩ := List.mem_map.1 hh'
    rw [Reranking.eq_of_contextRef_eq hon hp hq hne hsame]

/-- **What is re-ranked is diverse**, where the episodes are capped. -/
theorem diverse_hits {R : Reranking} {cap : ℕ} (hcap : R.maxPerEpisode = some cap) (hpos : 0 < cap)
    (candidates : List MemoryHit) : Diverse cap (R.hits candidates) := by
  obtain ⟨front, tail, hkept, hfront, htail⟩ :=
    Reranking.exists_kept_eq_append candidates hcap hpos
  refine ⟨front.map Prod.fst, tail.map Prod.fst, ?_, fun e => ?_, fun h hh => ?_⟩
  · rw [Reranking.hits, hkept, List.map_append]
  · rw [List.countP_map]
    exact hfront e
  · obtain ⟨q, hq, rfl⟩ := List.mem_map.1 hh
    rw [List.countP_map]
    exact htail q hq

/-! ## Candidates that no signal tells apart -/

/-- A candidate with nothing for a signal to read. -/
structure Inert (c : MemoryHit) : Prop where
  content : c.content = ""
  wing : c.wing = none
  signalScore : c.signalScore = 0
  createdAt : c.createdAt = ""
  density : c.declarativeDensity = some 0

section

variable {env : Env} {config : RerankingConfig} {context : RecognitionContext}
  {queryWords : List (List Char)} {candidates : List MemoryHit} {i j : ℕ} {a b : MemoryHit}
  {vals : ℕ → ℚ} {weight : ℚ}

/-- Of two candidates with one value the one that is first has no greater id. -/
theorem Precedes.id_le (h : Precedes candidates vals i j) (hvals : vals i = vals j)
    (ha : candidates[i]? = some a) (hb : candidates[j]? = some b) : a.id ≤ b.id := by
  rcases h with hlt | ⟨-, hle⟩
  · exact absurd hvals hlt.ne'
  · simpa [ha, hb] using hle

theorem mem_channelOrder (ha : candidates[i]? = some a) :
    i ∈ channelOrder candidates vals ↔ 0 < vals i := by
  have hi : i < candidates.length := (List.getElem?_eq_some_iff.1 ha).1
  unfold channelOrder
  simp [List.mem_insertionSort, hi]

instance : Std.Total (Precedes candidates vals) :=
  Lib.total_then vals (Lib.total_key fun i => (candidates[i]?.map MemoryHit.id).getD "")

instance : IsTrans ℕ (Precedes candidates vals) :=
  Lib.isTrans_then vals (Lib.isTrans_key fun i => (candidates[i]?.map MemoryHit.id).getD "")

/-- What a rank is worth. -/
theorem share_nonneg (hweight : 0 < weight) (r : ℕ) : 0 ≤ weight / (rrfK + r + 1) := by
  have : (0 : ℚ) < rrfK + r + 1 := by unfold rrfK; positivity
  exact div_nonneg hweight.le this.le

theorem share_anti (hweight : 0 ≤ weight) {r r' : ℕ} (h : r ≤ r') :
    weight / (rrfK + r' + 1) ≤ weight / (rrfK + r + 1) := by
  have hpos : (0 : ℚ) < rrfK + r + 1 := by unfold rrfK; positivity
  have hle : (r : ℚ) ≤ r' := Nat.cast_le.2 h
  exact div_le_div_of_nonneg_left hweight hpos (by linarith)

/-- Of two candidates with one value the one with the lower id gets no less. -/
theorem channel_anti (hvals : vals i = vals j) (ha : candidates[i]? = some a)
    (hb : candidates[j]? = some b) (hid : a.id < b.id) :
    channel candidates vals weight j ≤ channel candidates vals weight i := by
  unfold channel
  split
  · exact le_rfl
  · rename_i hweight
    have hpos := not_le.1 hweight
    cases hj : (channelOrder candidates vals).idxOf? j with
    | none =>
      cases (channelOrder candidates vals).idxOf? i with
      | none => exact le_rfl
      | some r => exact share_nonneg hpos r
    | some r' =>
      obtain ⟨hr', hrj, -⟩ := List.idxOf?_eq_some_iff.1 hj
      have hscored : 0 < vals i := hvals ▸ (mem_channelOrder hb).1 (hrj ▸ List.getElem_mem hr')
      have hmem := (mem_channelOrder ha).2 hscored
      obtain ⟨r, hr⟩ := Option.isSome_iff_exists.1 (List.isSome_idxOf?.2 hmem)
      obtain ⟨hr, hri, -⟩ := List.idxOf?_eq_some_iff.1 hr
      rw [‹(channelOrder candidates vals).idxOf? i = some r›]
      refine share_anti hpos.le (not_lt.1 fun hlt => ?_)
      have hsorted : (channelOrder candidates vals).Pairwise (Precedes candidates vals) :=
        List.pairwise_insertionSort _ _
      have hfirst := List.pairwise_iff_getElem.1 hsorted r' r hr' hr hlt
      rw [hrj, hri] at hfirst
      exact absurd (hfirst.id_le hvals.symm hb ha) (not_le.2 hid)

/-- Inert candidates have one value for each signal. -/
theorem valuesOf_eq {f : MemoryHit → ℚ} (h : f a = f b) (ha : candidates[i]? = some a)
    (hb : candidates[j]? = some b) : valuesOf candidates f i = valuesOf candidates f j := by
  simp [valuesOf, ha, hb, h]

variable (env config context queryWords) in
/-- **Of two inert candidates** the one with the lower id gets no less, if that is so of what their
places are worth. -/
theorem fusedScore_anti (hinerta : Inert a) (hinertb : Inert b) (ha : candidates[i]? = some a)
    (hb : candidates[j]? = some b) (hid : a.id < b.id)
    (hplace : config.rrfBm25Weight / (rrfK + j + 1) ≤ config.rrfBm25Weight / (rrfK + i + 1)) :
    fusedScore env config context queryWords candidates j ≤
      fusedScore env config context queryWords candidates i := by
  have hdensity : densityOf env a = densityOf env b := by
    simp [densityOf, hinerta.density, hinertb.density]
  have hproximity : proximityScore env.tables a.content.toList queryWords =
      proximityScore env.tables b.content.toList queryWords := by
    rw [hinerta.content, hinertb.content]
  have hfresh : (freshness env config context a).getD 0 = (freshness env config context b).getD 0 := by
    unfold freshness
    rw [hinerta.createdAt, hinertb.createdAt]
  have hsignal : a.signalScore = b.signalScore := by rw [hinerta.signalScore, hinertb.signalScore]
  have hleads : leadsWing candidates i = leadsWing candidates j := by
    simp [leadsWing, ha, hb, wingOf, hinerta.wing, hinertb.wing]
  have hstep : ∀ (p : Prop) [Decidable p] (x y u v : ℚ), x ≤ y → u ≤ v →
      (if p then x + u else x) ≤ if p then y + v else y := by
    intro p _ x y u v hxy huv
    split
    · exact add_le_add hxy huv
    · exact hxy
  unfold fusedScore
  refine hstep _ _ _ _ _ ?_ (channel_anti hleads ha hb hid)
  refine hstep _ _ _ _ _ ?_ (channel_anti (valuesOf_eq hsignal ha hb) ha hb hid)
  refine hstep _ _ _ _ _ ?_ (channel_anti (valuesOf_eq hfresh ha hb) ha hb hid)
  refine hstep _ _ _ _ _ ?_ (channel_anti (valuesOf_eq hproximity ha hb) ha hb hid)
  exact hstep _ _ _ _ _ hplace (channel_anti (valuesOf_eq hdensity ha hb) ha hb hid)

end

/-! ## An episode beyond its cap -/

/-- Ids in their order. -/
def crowdId (i : ℕ) : String := String.ofList (List.replicate i 'a')

theorem strictMono_crowdId : StrictMono crowdId := by
  refine strictMono_nat_of_lt_succ fun n => ?_
  unfold crowdId
  rw [String.lt_iff_toList_lt, String.toList_ofList, String.toList_ofList]
  induction n with
  | zero => exact List.nil_lt_cons 'a' []
  | succ n ih =>
    rw [List.replicate_succ, List.replicate_succ (n := n + 1)]
    exact List.cons_lt_cons_self.2 ih

/-- The episode of an id: the first `cap + 1` are of one. -/
def crowdEpisode (cap : ℕ) (id : String) : String := if id.length ≤ cap then "x" else "y"

/-- An inert candidate. -/
def crowdHit (cap i : ℕ) : MemoryHit where
  id := crowdId i
  key := crowdId i
  content := ""
  wing := none
  hall := none
  signalScore := 0
  visibility := "private"
  hits := 0
  source := none
  deviceId := none
  confidence := 1
  createdAt := ""
  lastReinforcedAt := none
  episodeId := some (crowdEpisode cap (crowdId i))
  declarativeDensity := some 0
  description := none
  sourceBrainId := none
  signature := none

theorem inert_crowdHit (cap i : ℕ) : Inert (crowdHit cap i) := ⟨rfl, rfl, rfl, rfl, rfl⟩

/-- One hit of an episode too many, and one of another episode, in the order of their ids or, if
a later place is worth more, in the opposite one. -/
def crowd (cap : ℕ) (weight : ℚ) : List MemoryHit :=
  if 0 ≤ weight then (List.range (cap + 2)).map (crowdHit cap)
  else ((List.range (cap + 2)).map (crowdHit cap)).reverse

theorem crowd_perm (cap : ℕ) (weight : ℚ) :
    (crowd cap weight).Perm ((List.range (cap + 2)).map (crowdHit cap)) := by
  unfold crowd
  split
  · exact List.Perm.refl _
  · exact List.reverse_perm _

theorem nodup_id_crowd (cap : ℕ) (weight : ℚ) : ((crowd cap weight).map MemoryHit.id).Nodup := by
  refine ((crowd_perm cap weight).map _).nodup_iff.2 ?_
  rw [List.map_map]
  exact List.nodup_range.map strictMono_crowdId.injective

theorem getElem?_crowd {cap i : ℕ} {weight : ℚ} {a : MemoryHit}
    (ha : (crowd cap weight)[i]? = some a) :
    i < cap + 2 ∧ a = crowdHit cap (if 0 ≤ weight then i else cap + 1 - i) := by
  have hi : i < cap + 2 := by
    have := (List.getElem?_eq_some_iff.1 ha).1
    simpa [(crowd_perm cap weight).length_eq] using this
  refine ⟨hi, ?_⟩
  unfold crowd at ha
  split at ha
  · rename_i hweight
    simpa [hi, hweight, eq_comm] using ha
  · rename_i hweight
    have hlen : i < ((List.range (cap + 2)).map (crowdHit cap)).length := by simpa using hi
    rw [List.getElem?_reverse hlen] at ha
    have hsub : cap + 1 - i < cap + 2 := by omega
    have hplace : ((List.range (cap + 2)).map (crowdHit cap)).length - 1 - i = cap + 1 - i := by simp
    rw [hplace, List.getElem?_map, List.getElem?_range hsub] at ha
    rw [if_neg hweight]
    exact (Option.some.inj ha).symm

/-- The place of a lower id is worth no less. -/
theorem place_anti {cap i j : ℕ} {weight : ℚ} {a b : MemoryHit}
    (ha : (crowd cap weight)[i]? = some a) (hb : (crowd cap weight)[j]? = some b)
    (hid : a.id < b.id) : weight / (rrfK + j + 1) ≤ weight / (rrfK + i + 1) := by
  obtain ⟨hi, rfl⟩ := getElem?_crowd ha
  obtain ⟨hj, rfl⟩ := getElem?_crowd hb
  have hlt := strictMono_crowdId.lt_iff_lt.1 hid
  by_cases hweight : 0 ≤ weight
  · rw [if_pos hweight, if_pos hweight] at hlt
    exact share_anti hweight hlt.le
  · rw [if_neg hweight, if_neg hweight] at hlt
    have hle : j ≤ i := by omega
    have hneg : 0 ≤ -weight := (neg_pos.2 (not_le.1 hweight)).le
    have := share_anti hneg hle
    rw [neg_div, neg_div] at this
    exact neg_le_neg_iff.1 this

section

variable (env : Env) (config : RerankingConfig) (context : RecognitionContext)
  (queryWords : List (List Char)) (cap : ℕ)

/-- What the fusion makes of the crowd. -/
def fusedCrowd : List MemoryHit :=
  (rrfFuse env config context queryWords).hits (crowd cap config.rrfBm25Weight)

theorem complete_fusedCrowd : Complete config.applyContextDedup
    (fusedScore env config context queryWords (crowd cap config.rrfBm25Weight))
    (crowd cap config.rrfBm25Weight) (fusedCrowd env config context queryWords cap) :=
  complete_hits (rrfFuse env config context queryWords) (nodup_id_crowd cap _)

/-- **The crowd comes out by its ids**. -/
theorem map_id_fusedCrowd : (fusedCrowd env config context queryWords cap).map MemoryHit.id =
    (List.range (cap + 2)).map crowdId := by
  have hpost := complete_fusedCrowd env config context queryWords cap
  set hits := crowd cap config.rrfBm25Weight with hhits
  -- nobody is dropped, as nobody refers to a context
  have hmem : ∀ id, id ∈ (fusedCrowd env config context queryWords cap).map MemoryHit.id ↔
      id ∈ hits.map MemoryHit.id := by
    intro id
    simp only [List.mem_map]
    constructor
    · rintro ⟨h, hh, rfl⟩
      obtain ⟨i, c, hc, rfl⟩ := hpost.scored h hh
      exact ⟨c, List.mem_of_getElem? hc, rfl⟩
    · rintro ⟨c, hc, rfl⟩
      obtain ⟨i, hi⟩ := List.mem_iff_getElem?.1 hc
      rcases hpost.kept i c hi with hkept | ⟨-, hne, -⟩
      · exact ⟨_, hkept, rfl⟩
      · obtain ⟨-, rfl⟩ := getElem?_crowd hi
        exact absurd rfl hne
  have hperm := ((List.perm_ext_iff_of_nodup hpost.once (nodup_id_crowd cap _)).2 hmem).trans
    ((crowd_perm cap config.rrfBm25Weight).map MemoryHit.id)
  rw [List.map_map] at hperm
  refine List.Perm.eq_of_pairwise' (r := (· ≤ ·)) ?_ ?_ hperm
  · -- of two hits the first has no less a score, and so no greater an id
    obtain ⟨l, -, hsorted, hsub⟩ :=
      Reranking.exists_sorted_deduped (rrfFuse env config context queryWords) hits
    have hkept : ((rrfFuse env config context queryWords).kept hits).Pairwise
        fun p q => p.1.StrongerFirst q.1 := hsorted.sublist hsub
    rw [fusedCrowd, Reranking.hits, List.map_map, List.pairwise_map]
    refine hkept.imp_of_mem fun {p q} hp hq hbefore => not_lt.1 fun hid => ?_
    obtain ⟨c, hc, hpc⟩ := Reranking.mem_scored_iff.1 (Reranking.mem_scored_of_mem_kept hp)
    obtain ⟨d, hd, hqd⟩ := Reranking.mem_scored_iff.1 (Reranking.mem_scored_of_mem_kept hq)
    have hid : d.id < c.id := by simpa [hpc, hqd] using hid
    have hinert : ∀ {i : ℕ} {a : MemoryHit}, hits[i]? = some a → Inert a := fun ha =>
      (getElem?_crowd ha).2 ▸ inert_crowdHit _ _
    have hscore := fusedScore_anti env config context queryWords (hinert hd) (hinert hc) hd hc hid
      (place_anti hd hc hid)
    rw [hpc, hqd] at hbefore
    rcases hbefore with hlt | ⟨-, hle⟩
    · exact absurd hlt (not_lt.2 hscore)
    · exact absurd hid (not_lt.2 hle)
  · rw [List.pairwise_map]
    exact List.pairwise_lt_range.imp fun {i j} h => (strictMono_crowdId h).le

/-- **An episode is beyond its cap** before the last hit, which is within that of its own. -/
theorem not_diverse_fusedCrowd (hcap : 0 < cap) :
    ¬ Diverse cap (fusedCrowd env config context queryWords cap) := by
  rintro ⟨front, tail, hout, hfront, htail⟩
  have hpost := complete_fusedCrowd env config context queryWords cap
  have hepisode : ∀ h ∈ fusedCrowd env config context queryWords cap,
      episodeKey h = crowdEpisode cap h.id := by
    intro h hh
    obtain ⟨i, c, hc, rfl⟩ := hpost.scored h hh
    obtain ⟨-, rfl⟩ := getElem?_crowd hc
    rfl
  have hepisodes : (front ++ tail).map episodeKey = List.replicate (cap + 1) "x" ++ ["y"] := by
    have hids : (fusedCrowd env config context queryWords cap).map (fun h => crowdEpisode cap h.id) =
        ((List.range (cap + 2)).map crowdId).map (crowdEpisode cap) := by
      rw [← map_id_fusedCrowd, List.map_map]
      rfl
    rw [← hout, List.map_congr_left hepisode, hids, List.map_map, List.range_succ, List.map_append]
    congr 1
    · refine List.eq_replicate_iff.2 ⟨by simp, fun e he => ?_⟩
      obtain ⟨i, hi, rfl⟩ := List.mem_map.1 he
      have : i ≤ cap := Nat.lt_succ_iff.1 (List.mem_range.1 hi)
      simp [crowdEpisode, crowdId, this]
    · simp [crowdEpisode, crowdId]
  rw [List.map_append] at hepisodes
  have hcount : ∀ e, front.countP (fun h => decide (episodeKey h = e)) =
      (front.map episodeKey).count e := by
    intro e
    rw [List.count_eq_countP, List.countP_map]
    exact List.countP_congr fun h _ => by simp
  rcases List.eq_nil_or_concat' tail with rfl | ⟨rest, last, rfl⟩
  · -- all of them are in front
    have hle := hfront "x"
    rw [List.map_nil, List.append_nil] at hepisodes
    rw [hcount, hepisodes] at hle
    simp at hle
  · -- the last one is not
    rw [List.map_append, ← List.append_assoc] at hepisodes
    obtain ⟨hrest, hlast⟩ := List.append_inj' hepisodes rfl
    have hlast : episodeKey last = "y" := by simpa using hlast
    have hge := htail last (by simp)
    have hnone : "y" ∉ front.map episodeKey := fun hin => by
      have : "y" ∈ List.replicate (cap + 1) "x" := hrest ▸ List.mem_append_left _ hin
      exact absurd (List.eq_of_mem_replicate this) (by decide)
    rw [hlast, hcount, List.count_eq_zero_of_not_mem hnone] at hge
    omega

end

/-! ## Both compositions -/

section

variable (env : Env) (config : RerankingConfig) (context : RecognitionContext)
  (coRetrievalBoosts : String → Option ℚ) (queryWords : List (List Char))

/-- The pipeline gives an output that keeps the post-conditions. -/
def Keeps (candidates : List MemoryHit) : Prop :=
  ∃ out, applyRerankingPipelineWithQuery env config context coRetrievalBoosts queryWords candidates =
      some out ∧
    PostConditions config
      (compositeScore env config context coRetrievalBoosts queryWords candidates) candidates out

variable {env config context coRetrievalBoosts queryWords} {candidates : List MemoryHit}

/-- A candidate, or more, through the fusion. -/
theorem pipeline_of_useRrf (hrrf : config.useRrf = true) :
    applyRerankingPipelineWithQuery env config context coRetrievalBoosts queryWords candidates =
      some ((rrfFuse env config context queryWords).hits candidates) := by
  unfold applyRerankingPipelineWithQuery
  rw [if_pos hrrf]
  split
  · rename_i hnil
    rw [hnil, Reranking.hits_nil]
  · rfl

/-- A candidate, or more, through the boosts. -/
theorem pipeline_of_not_useRrf (hrrf : config.useRrf = false)
    (hpanics : ambientPanics config context = false) :
    applyRerankingPipelineWithQuery env config context coRetrievalBoosts queryWords candidates =
      some ((additive env config context coRetrievalBoosts queryWords).hits candidates) := by
  unfold applyRerankingPipelineWithQuery
  simp only [hrrf, hpanics, Bool.false_eq_true, if_false]
  split
  · rename_i hnil
    rw [hnil, Reranking.hits_nil]
  · rfl

/-- The fusion keeps the post-conditions where no episode is to be capped. -/
theorem keeps_of_useRrf (hrrf : config.useRrf = true)
    (hids : (candidates.map MemoryHit.id).Nodup)
    (hcap : ¬ (config.applyEpisodeDiversity = true ∧ 0 < config.maxPerEpisode)) :
    Keeps env config context coRetrievalBoosts queryWords candidates := by
  refine ⟨_, pipeline_of_useRrf hrrf, ?_, fun hon hpos => absurd ⟨hon, hpos⟩ hcap⟩
  have h := complete_hits (rrfFuse env config context queryWords) hids
  unfold compositeScore
  rwa [if_pos hrrf]

/-- The boosts keep the post-conditions. -/
theorem keeps_of_not_useRrf (hrrf : config.useRrf = false)
    (hpanics : ambientPanics config context = false)
    (hids : (candidates.map MemoryHit.id).Nodup) :
    Keeps env config context coRetrievalBoosts queryWords candidates := by
  refine ⟨_, pipeline_of_not_useRrf hrrf hpanics, ?_, fun hon hpos => ?_⟩
  · have h := complete_hits (additive env config context coRetrievalBoosts queryWords) hids
    unfold compositeScore
    rwa [if_neg (by simp [hrrf])]
  · exact diverse_hits (by simp [additive, hon]) hpos candidates

/-- The fusion caps no episode. -/
theorem not_keeps_crowd (hrrf : config.useRrf = true) (hon : config.applyEpisodeDiversity = true)
    (hpos : 0 < config.maxPerEpisode) : ¬ Keeps env config context coRetrievalBoosts queryWords
      (crowd config.maxPerEpisode config.rrfBm25Weight) := by
  rintro ⟨out, hout, hpost⟩
  rw [pipeline_of_useRrf hrrf, Option.some.injEq] at hout
  subst hout
  exact not_diverse_fusedCrowd env config context queryWords _ hpos (hpost.diverse hon hpos)

variable (env config context coRetrievalBoosts queryWords) in
/-- **The post-conditions hold of all candidates** exactly if no cap on episodes is asked of the
fusion of ranks, and no boost is clamped between bounds that are crossed. -/
theorem postConditions_iff :
    (∀ candidates, (candidates.map MemoryHit.id).Nodup →
      Keeps env config context coRetrievalBoosts queryWords candidates) ↔
    ¬ (config.useRrf = true ∧ config.applyEpisodeDiversity = true ∧ 0 < config.maxPerEpisode) ∧
      ¬ (config.useRrf = false ∧ ambientPanics config context = true) := by
  constructor
  · intro hall
    constructor
    · rintro ⟨hrrf, hon, hpos⟩
      exact not_keeps_crowd hrrf hon hpos (hall _ (nodup_id_crowd _ _))
    · rintro ⟨hrrf, hpanics⟩
      obtain ⟨out, hout, -⟩ := hall [crowdHit 1 1] (by simp)
      simp [applyRerankingPipelineWithQuery, hrrf, hpanics] at hout
  · rintro ⟨hcap, hpanics⟩ candidates hids
    cases hrrf : config.useRrf with
    | true => exact keeps_of_useRrf hrrf hids fun h => hcap ⟨hrrf, h⟩
    | false =>
      refine keeps_of_not_useRrf hrrf (Bool.eq_false_iff.2 fun h => hpanics ⟨hrrf, h⟩) hids

end

/-- The fusion, of at most two hits of an episode. -/
def fusionOfTwo : RerankingConfig where
  useRrf := true
  applyEpisodeDiversity := true
  maxPerEpisode := 2

/-- **Three hits of one episode** come before the only one of another. -/
theorem fusion_caps_no_episode : ([crowdHit 2 0, crowdHit 2 1, crowdHit 2 2, crowdHit 2 3].map
      MemoryHit.id).Nodup ∧
    ¬ Keeps ⟨.ascii, fun _ => none, fun _ => 1⟩ fusionOfTwo { now := 0 } (fun _ => none) []
      [crowdHit 2 0, crowdHit 2 1, crowdHit 2 2, crowdHit 2 3] := by
  have hcrowd : [crowdHit 2 0, crowdHit 2 1, crowdHit 2 2, crowdHit 2 3] =
      crowd fusionOfTwo.maxPerEpisode fusionOfTwo.rrfBm25Weight := by
    have : (0 : ℚ) ≤ fusionOfTwo.rrfBm25Weight := zero_le_one
    rw [crowd, if_pos this]
    rfl
  rw [hcrowd]
  exact ⟨nodup_id_crowd _ _, not_keeps_crowd rfl rfl (by decide)⟩

end Spectral.Ranking
