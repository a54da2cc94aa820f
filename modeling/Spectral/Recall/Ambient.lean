import Spectral.Recall.Composition

/-!
# The first candidate and the context

`run_cascade_pipeline_scoped` multiplies the score of a candidate by a boost that depends on the
context: less for a wing that is not that of the context, more for a fresh memory.  A query is
decisive when its first candidate has more of its terms than any other.

* `cascadeRanking` — the pipeline, from the candidates on; `ambientQueryIsDecisive`.
* `Reranking.place_first_iff` — where the first candidate comes: after those that stand before it,
  each reference to a context counted once.
* `KeepsStanding` — no more of them stand before it with the boosts than without.
* `first_no_lower_iff` — the context lowers the first candidate unless it keeps its standing.

Numbers are exact.
-/

namespace Spectral

/-! ## Where the first candidate comes -/

/-- What a candidate refers to. -/
def Placed.ref (p : Placed) : String := contextRef p.1.content

/-- The references that were met after some candidates. -/
def metAfter : List String → List Placed → List String
  | seen, [] => seen
  | seen, p :: ps => if p.ref = "" ∨ p.ref ∈ seen then metAfter seen ps else metAfter (p.ref :: seen) ps

theorem exists_dropSeen_cons {seen : List String} {p : Placed} (h : p.ref = "" ∨ p.ref ∉ seen)
    (ps : List Placed) : ∃ seen', dropSeen seen (p :: ps) = p :: dropSeen seen' ps := by
  by_cases hnone : contextRef p.1.content = ""
  · exact ⟨seen, by rw [dropSeen, if_pos hnone]⟩
  · have hnew : contextRef p.1.content ∉ seen := h.resolve_left hnone
    exact ⟨contextRef p.1.content :: seen, by rw [dropSeen, if_neg hnone, if_neg hnew]⟩

theorem dropSeen_cons_of_mem {seen : List String} {p : Placed} (hne : p.ref ≠ "") (h : p.ref ∈ seen)
    (ps : List Placed) : dropSeen seen (p :: ps) = dropSeen seen ps := by
  have hne' : contextRef p.1.content ≠ "" := hne
  have hmem : contextRef p.1.content ∈ seen := h
  rw [dropSeen, if_neg hne', if_pos hmem]

theorem dropSeen_append (seen : List String) (ps qs : List Placed) :
    dropSeen seen (ps ++ qs) = dropSeen seen ps ++ dropSeen (metAfter seen ps) qs := by
  induction ps generalizing seen with
  | nil => rfl
  | cons p ps ih =>
    by_cases hnone : contextRef p.1.content = ""
    · simp [dropSeen, metAfter, Placed.ref, hnone, ih]
    · by_cases hseen : contextRef p.1.content ∈ seen
      · simp [dropSeen, metAfter, Placed.ref, hnone, hseen, ih]
      · simp [dropSeen, metAfter, Placed.ref, hnone, hseen, ih]

theorem mem_metAfter {seen : List String} {ps : List Placed} {ref : String} :
    ref ∈ metAfter seen ps ↔ ref ∈ seen ∨ ref ≠ "" ∧ ∃ p ∈ ps, p.ref = ref := by
  induction ps generalizing seen with
  | nil => simp [metAfter]
  | cons p ps ih =>
    unfold metAfter
    split
    · rename_i hold
      rw [ih]
      constructor
      · rintro (h | ⟨hne, q, hq, href⟩)
        · exact Or.inl h
        · exact Or.inr ⟨hne, q, List.mem_cons_of_mem p hq, href⟩
      · rintro (h | ⟨hne, q, hq, href⟩)
        · exact Or.inl h
        · rcases List.mem_cons.1 hq with rfl | hq
          · exact Or.inl (href ▸ hold.resolve_left (href ▸ hne))
          · exact Or.inr ⟨hne, q, hq, href⟩
    · rename_i hnew
      rw [ih, List.mem_cons]
      constructor
      · rintro ((rfl | h) | ⟨hne, q, hq, href⟩)
        · exact Or.inr ⟨fun hnone => hnew (Or.inl hnone), p, List.mem_cons_self, rfl⟩
        · exact Or.inl h
        · exact Or.inr ⟨hne, q, List.mem_cons_of_mem p hq, href⟩
      · rintro (h | ⟨hne, q, hq, href⟩)
        · exact Or.inl (Or.inr h)
        · rcases List.mem_cons.1 hq with rfl | hq
          · exact Or.inl (Or.inl href.symm)
          · exact Or.inr ⟨hne, q, hq, href⟩

/-- How many of some candidates are kept: each reference once. -/
def keptCount (refs : List String) : ℕ :=
  refs.count "" + (refs.filter fun ref => ref ≠ "").dedup.length

theorem keptCount_perm {refs refs' : List String} (h : refs.Perm refs') :
    keptCount refs = keptCount refs' := by
  unfold keptCount
  rw [h.count_eq, (h.filter _).dedup.length_eq]

theorem length_dedup_cons (a : String) (l : List String) :
    (a :: l).dedup.length = (l.filter fun b => b ≠ a).dedup.length + 1 := by
  have hset : (a :: l).toFinset = insert a (l.filter fun b => b ≠ a).toFinset := by
    ext b
    by_cases hb : b = a <;> simp [hb]
  rw [← List.card_toFinset, ← List.card_toFinset, hset, Finset.card_insert_of_notMem (by simp)]

theorem length_dropSeen (seen : List String) (ps : List Placed) :
    (dropSeen seen ps).length = (ps.map Placed.ref).count "" +
      (((ps.map Placed.ref).filter fun ref => decide (ref ≠ "" ∧ ref ∉ seen)).dedup).length := by
  induction ps generalizing seen with
  | nil => rfl
  | cons p ps ih =>
    unfold dropSeen
    dsimp only
    rw [List.map_cons, List.count_cons, List.filter_cons]
    by_cases hnone : contextRef p.1.content = ""
    · simp only [Placed.ref, hnone, if_true, List.length_cons, ih, beq_self_eq_true, ne_eq,
        not_true_eq_false, false_and, decide_false, Bool.false_eq_true, if_false]
      omega
    · by_cases hseen : contextRef p.1.content ∈ seen
      · simp only [Placed.ref, hnone, hseen, if_true, if_false, ih, beq_iff_eq, ne_eq,
          not_true_eq_false, and_false, decide_false, Bool.false_eq_true]
        omega
      · -- a new reference: the others are those that differ from it
        have hothers : ((ps.map Placed.ref).filter fun ref => decide (ref ≠ "" ∧
              ref ∉ contextRef p.1.content :: seen)) =
            ((ps.map Placed.ref).filter fun ref => decide (ref ≠ "" ∧ ref ∉ seen)).filter
              fun ref => ref ≠ contextRef p.1.content := by
          rw [List.filter_filter]
          refine List.filter_congr fun ref _ => ?_
          simp only [List.mem_cons, not_or, ne_eq, Bool.decide_and]
          exact Bool.and_left_comm _ _ _
        simp only [Placed.ref, hnone, hseen, if_false, List.length_cons, ih, beq_iff_eq, ne_eq,
          not_false_eq_true, and_self, decide_true, if_true, length_dedup_cons]
        simp only [ne_eq] at hothers
        rw [hothers]
        omega

namespace Reranking

variable {R : Reranking} {first : MemoryHit} {rest : List MemoryHit}

/-- The candidates that stand before the first one by their scores. -/
def ahead (score : ℕ → ℚ) (first : MemoryHit) (rest : List MemoryHit) : List MemoryHit :=
  ((rest.zipIdx 1).filter fun p =>
    decide (score 0 < score p.2 ∨ score 0 = score p.2 ∧ p.1.id < first.id)).map Prod.fst

/-- The references of candidates. -/
def refs (hits : List MemoryHit) : List String := hits.map fun h => contextRef h.content

/-- The first candidate refers to no context that one before it refers to. -/
def Unhindered (first : MemoryHit) (before : List MemoryHit) : Prop :=
  contextRef first.content = "" ∨ contextRef first.content ∉ refs before

instance (first : MemoryHit) (before : List MemoryHit) : Decidable (Unhindered first before) :=
  inferInstanceAs (Decidable (_ ∨ _))

/-- The first candidate, with its score. -/
def placedFirst (R : Reranking) (first : MemoryHit) (rest : List MemoryHit) : Placed :=
  ({ first with signalScore := R.score (first :: rest) 0 }, 0)

/-- The other candidates, with theirs. -/
def placedRest (R : Reranking) (first : MemoryHit) (rest : List MemoryHit) : List Placed :=
  (rest.zipIdx 1).map fun p => ({ p.1 with signalScore := R.score (first :: rest) p.2 }, p.2)

theorem scored_cons : R.scored (first :: rest) = R.placedFirst first rest :: R.placedRest first rest := by
  rfl

theorem pos_of_mem_placedRest {p : Placed} (h : p ∈ R.placedRest first rest) : 0 < p.2 := by
  obtain ⟨q, hq, rfl⟩ := List.mem_map.1 h
  exact (List.mem_zipIdx hq).1

/-- The others that the first candidate does not come before are those that stand before it. -/
theorem refs_ahead : ((R.placedRest first rest).filter fun p =>
      decide (¬ (R.placedFirst first rest).1.StrongerFirst p.1)).map Placed.ref =
    refs (ahead (R.score (first :: rest)) first rest) := by
  unfold placedRest ahead refs
  rw [List.filter_map, List.map_map, List.map_map]
  have hfilter : ∀ p : MemoryHit × ℕ,
      ¬ (R.placedFirst first rest).1.StrongerFirst
          { p.1 with signalScore := R.score (first :: rest) p.2 } ↔
        R.score (first :: rest) 0 < R.score (first :: rest) p.2 ∨
          R.score (first :: rest) 0 = R.score (first :: rest) p.2 ∧ p.1.id < first.id := by
    intro p
    simp only [placedFirst, MemoryHit.StrongerFirst, not_or, not_and, not_lt, not_le]
    constructor
    · rintro ⟨hle, htie⟩
      exact hle.lt_or_eq.imp_right fun heq => ⟨heq, htie heq⟩
    · rintro (hlt | ⟨heq, hid⟩)
      · exact ⟨hlt.le, fun heq => absurd heq hlt.ne⟩
      · exact ⟨heq.le, fun _ => hid⟩
  refine congrArg₂ List.map rfl (List.filter_congr fun p _ => ?_)
  exact decide_eq_decide.2 (hfilter p)

/-- **The sort** puts the first candidate after those that stand before it. -/
theorem exists_sorted_eq : ∃ front back,
    R.sorted (first :: rest) = front ++ R.placedFirst first rest :: back ∧
      (front.map Placed.ref).Perm (refs (ahead (R.score (first :: rest)) first rest)) ∧
        ∀ p ∈ front ++ back, 0 < p.2 := by
  have htrans : IsTrans Placed fun p q => p.1.StrongerFirst q.1 :=
    ⟨fun _ _ _ hpq hqr => trans_of MemoryHit.StrongerFirst hpq hqr⟩
  let sortedRest := (R.placedRest first rest).insertionSort fun p q => p.1.StrongerFirst q.1
  have hpairwise : sortedRest.Pairwise fun p q => p.1.StrongerFirst q.1 :=
    List.pairwise_insertionSort (fun p q : Placed => p.1.StrongerFirst q.1) _
  have hperm : sortedRest.Perm (R.placedRest first rest) := List.perm_insertionSort _ _
  have hpos : ∀ p ∈ sortedRest, 0 < p.2 := fun p hp => pos_of_mem_placedRest (hperm.mem_iff.1 hp)
  refine ⟨sortedRest.takeWhile fun p => decide (¬ (R.placedFirst first rest).1.StrongerFirst p.1),
    sortedRest.dropWhile fun p => decide (¬ (R.placedFirst first rest).1.StrongerFirst p.1),
    ?_, ?_, ?_⟩
  · rw [sorted, scored_cons, List.insertionSort_cons, List.orderedInsert_eq_take_drop]
  · rw [Lib.takeWhile_eq_filter_of_pairwise (r := fun p q : Placed => p.1.StrongerFirst q.1) hpairwise,
      ← refs_ahead]
    exact (hperm.filter _).map _
  · intro p hp
    rw [List.takeWhile_append_dropWhile] at hp
    exact hpos p hp

/-- How many candidates come before the first one: of those that stand before it, each reference
once. -/
def standing (before : List MemoryHit) : ℕ := keptCount (refs before)

/-- The only place zero is that of the candidate in the middle. -/
theorem getElem?_append_cons_iff {front back : List Placed}
    (hfront : ∀ p ∈ front, 0 < p.2) (hback : ∀ p ∈ back, 0 < p.2) {i : ℕ} :
    (front.map Prod.snd ++ 0 :: back.map Prod.snd)[i]? = some 0 ↔ i = front.length := by
  constructor
  · intro hzero
    rcases lt_trichotomy i front.length with hlt | heq | hgt
    · rw [List.getElem?_append_left (by simpa using hlt)] at hzero
      obtain ⟨p, hp, hplace⟩ := List.mem_map.1 (List.mem_of_getElem? hzero)
      exact absurd hplace (hfront p hp).ne'
    · exact heq
    · obtain ⟨j, rfl⟩ : ∃ j, i = front.length + (j + 1) := ⟨i - front.length - 1, by omega⟩
      rw [List.getElem?_append_right (by simp), List.length_map, Nat.add_sub_cancel_left,
        List.getElem?_cons_succ] at hzero
      obtain ⟨p, hp, hplace⟩ := List.mem_map.1 (List.mem_of_getElem? hzero)
      exact absurd hplace (hback p hp).ne'
  · rintro rfl
    rw [List.getElem?_append_right (by simp), List.length_map, Nat.sub_self, List.getElem?_cons_zero]

/-- **Where the first candidate comes**, if no episodes are capped. -/
theorem place_first_iff (hdedup : R.applyContextDedup = true) (hcap : R.maxPerEpisode = none) {i : ℕ} :
    ((R.kept (first :: rest)).map Prod.snd)[i]? = some 0 ↔
      Unhindered first (ahead (R.score (first :: rest)) first rest) ∧
        i = standing (ahead (R.score (first :: rest)) first rest) := by
  obtain ⟨front, back, hsorted, hrefs, hpos⟩ := @exists_sorted_eq R first rest
  have hpairwise : (R.sorted (first :: rest)).Pairwise fun p q => p.1.StrongerFirst q.1 :=
    List.pairwise_insertionSort (fun p q : Placed => p.1.StrongerFirst q.1) _
  have hkept : R.kept (first :: rest) = dropSeen [] front ++
      dropSeen (metAfter [] front) (R.placedFirst first rest :: back) := by
    unfold kept deduped dedupContextChains
    rw [hcap, hdedup, if_pos rfl, hpairwise.insertionSort_eq, hsorted, dropSeen_append]
  have hlength : (dropSeen [] front).length = standing (ahead (R.score (first :: rest)) first rest) := by
    rw [length_dropSeen, standing, ← keptCount_perm hrefs]
    simp [keptCount]
  have hfront : ∀ p ∈ dropSeen [] front, 0 < p.2 := fun p hp =>
    hpos p (List.mem_append_left _ ((dropSeen_sublist _ _).subset hp))
  have hback : ∀ seen, ∀ p ∈ dropSeen seen back, 0 < p.2 := fun seen p hp =>
    hpos p (List.mem_append_right _ ((dropSeen_sublist _ _).subset hp))
  -- the first candidate is kept if what it refers to was not met in front
  have hmet : (contextRef first.content = "" ∨ contextRef first.content ∉ metAfter [] front) ↔
      Unhindered first (ahead (R.score (first :: rest)) first rest) := by
    rw [mem_metAfter, Unhindered, ← hrefs.mem_iff, List.mem_map]
    by_cases hnone : contextRef first.content = ""
    · simp [hnone]
    · simp [hnone]
  rw [← hmet, ← hlength, hkept, List.map_append]
  by_cases hfree : contextRef first.content = "" ∨ contextRef first.content ∉ metAfter [] front
  · obtain ⟨seen, hcons⟩ := @exists_dropSeen_cons (metAfter [] front) (R.placedFirst first rest) hfree back
    rw [hcons, and_iff_right hfree, List.map_cons]
    exact getElem?_append_cons_iff hfront (hback seen)
  · obtain ⟨hne, hold⟩ := not_or.1 hfree
    have hcons := @dropSeen_cons_of_mem (metAfter [] front) (R.placedFirst first rest) hne
      (not_not.1 hold) back
    rw [hcons, ← List.map_append]
    refine iff_of_false (fun hzero => ?_) fun h => hfree h.1
    obtain ⟨p, hp, hplace⟩ := List.mem_map.1 (List.mem_of_getElem? hzero)
    rcases List.mem_append.1 hp with hp | hp
    · exact (hfront p hp).ne' hplace
    · exact (hback _ p hp).ne' hplace

end Reranking

/-! ## The pipeline -/

namespace Ranking

/-- `CascadePipelineConfig`, the settings of the re-ranking. -/
structure CascadeRankingConfig where
  k : ℕ := 40
  applyAmbientBoost : Bool := true
  ambientWeights : AmbientBoostWeights := {}
  adaptiveAmbient : Bool := true
  applySignalReranking : Bool := true
  applyRecency : Bool := true
  recencyHalfLifeDays : ℚ := 365
  applyEpisodeDiversity : Bool := false
  maxPerEpisode : ℕ := 5
  applyContextDedup : Bool := true
  applyProximity : Bool := false
  proximityWeight : ℚ := 3 / 20
  useRrf : Bool := false
  rrfBm25Weight : ℚ := 1
  rrfDeclarativeWeight : ℚ := 1
  rrfProximityWeight : ℚ := 1
  rrfRecencyWeight : ℚ := 1
  rrfSignalWeight : ℚ := 1
  rrfEntityWeight : ℚ := 1
  coRetrievalWeight : ℚ := 0
  applyDeclarativeBoost : Bool := true

/-- The settings that `run_cascade_pipeline_scoped` re-ranks with. -/
def CascadeRankingConfig.reranking (config : CascadeRankingConfig) (weights : AmbientBoostWeights) :
    RerankingConfig where
  applySignalScore := config.applySignalReranking
  signalScoreWeight := 3 / 10
  applyRecency := config.applyRecency
  recencyHalfLifeDays := config.recencyHalfLifeDays
  applyEntityBoost := false
  entityBoostWeight := 1 / 20
  applyAmbientBoost := config.applyAmbientBoost
  ambientWeights := weights
  applyDeclarativeBoost := config.applyDeclarativeBoost
  declarativeWeight := 1 / 10
  coRetrievalWeight := config.coRetrievalWeight
  applyEpisodeDiversity := config.applyEpisodeDiversity
  maxPerEpisode := config.maxPerEpisode
  applyContextDedup := config.applyContextDedup
  applyProximity := config.applyProximity
  proximityWeight := config.proximityWeight
  useRrf := config.useRrf
  rrfBm25Weight := config.rrfBm25Weight
  rrfDeclarativeWeight := config.rrfDeclarativeWeight
  rrfProximityWeight := config.rrfProximityWeight
  rrfRecencyWeight := config.rrfRecencyWeight
  rrfSignalWeight := config.rrfSignalWeight
  rrfEntityWeight := config.rrfEntityWeight

section

variable (u : CharTables)

/-- The parts of a text between what is not alphanumeric. -/
def alphanumericParts (text : List Char) : List (List Char) :=
  text.splitOnP fun c => !u.isAlphanumeric c

/-- The terms of a query: of more than two bytes, and none of four words. -/
def queryTerms (query : String) : List (List Char) :=
  (((alphanumericParts u query.toList).map u.toLowercase).filter fun t =>
    decide (2 < (String.ofList t).utf8ByteSize) &&
      decide (String.ofList t ∉ ["the", "and", "for", "with"])).dedup

/-- How many of the terms the key or the content of a hit has. -/
def termOverlap (terms : List (List Char)) (hit : MemoryHit) : ℕ :=
  let tokens := (alphanumericParts u (u.toLowercase (hit.key ++ " " ++ hit.content).toList)).filter
    fun t => t ≠ []
  terms.countP tokens.contains

/-- `ambient_query_is_decisive`. -/
def ambientQueryIsDecisive (query : String) (candidates : List MemoryHit) : Bool :=
  match candidates with
  | [] => true
  | [_] => true
  | first :: rest =>
    let terms := queryTerms u query
    if terms.length < 2 then false
    else
      let overlap := termOverlap u terms first
      let runnerUp := (rest.map (termOverlap u terms)).max?.getD 0
      decide (2 ≤ overlap) && decide (runnerUp < overlap)

end

section

variable (env : Env) (config : CascadeRankingConfig) (coRetrievalBoosts : String → Option ℚ)
  (queryWords : List (List Char)) (query : String) (context : RecognitionContext)
  (candidates : List MemoryHit)

/-- The weights of a run: a stronger penalty unless the query is decisive. -/
def runWeights : AmbientBoostWeights :=
  if config.applyAmbientBoost && config.adaptiveAmbient &&
      !ambientQueryIsDecisive env.tables query candidates then
    { config.ambientWeights with mismatchPenalty := 9 / 20 }
  else config.ambientWeights

/-- The boosts for what was retrieved together, which are computed only if they count. -/
def runBoosts : String → Option ℚ :=
  if 0 < config.coRetrievalWeight then coRetrievalBoosts else fun _ => none

/-- `run_cascade_pipeline_scoped` from the candidates to the cut at `k`, if it does not panic: the
places of the results among the candidates, and their scores. -/
def cascadeRanking : Option (List (ℕ × ℚ)) :=
  let reranking := config.reranking (runWeights env config query candidates)
  if candidates = [] then some []
  else if config.useRrf then
    some (((rrfFuse env reranking context queryWords).places candidates).take config.k)
  else if ambientPanics reranking context then none
  else
    some (((additive env reranking context (runBoosts config coRetrievalBoosts)
      queryWords).places candidates).take config.k)

/-- The results, read off the candidates, are those of the pipeline. -/
theorem hits_cascadeRanking :
    (cascadeRanking env config coRetrievalBoosts queryWords query context candidates).map
        (fun places => places.filterMap fun p =>
          candidates[p.1]?.map fun hit => { hit with signalScore := p.2 }) =
      (applyRerankingPipelineWithQuery env (config.reranking (runWeights env config query candidates))
        context (runBoosts config coRetrievalBoosts) queryWords candidates).map
          (List.take config.k) := by
  have htake : ∀ R : Reranking, ((R.places candidates).take config.k).filterMap (fun p =>
      candidates[p.1]?.map fun hit => { hit with signalScore := p.2 }) =
        (R.hits candidates).take config.k := by
    intro R
    unfold Reranking.places Reranking.hits
    rw [← List.map_take, ← List.map_take, List.filterMap_map, ← List.filterMap_eq_map]
    refine List.filterMap_congr fun p hp => ?_
    have hkept := Reranking.mem_scored_of_mem_kept (List.mem_of_mem_take hp)
    obtain ⟨c, hc, hscored⟩ := Reranking.mem_scored_iff.1 hkept
    simp [hc, hscored]
  unfold cascadeRanking applyRerankingPipelineWithQuery
  dsimp only
  by_cases hnil : candidates = []
  · rw [if_pos hnil, if_pos hnil, hnil]
    simp
  · rw [if_neg hnil, if_neg hnil]
    by_cases hrrf : config.useRrf = true
    · have hrrf' : (config.reranking (runWeights env config query candidates)).useRrf = true := hrrf
      rw [if_pos hrrf, if_pos hrrf', Option.map_some, Option.map_some, htake]
    · have hrrf' : ¬ (config.reranking (runWeights env config query candidates)).useRrf = true := hrrf
      rw [if_neg hrrf, if_neg hrrf']
      split
      · rfl
      · rw [Option.map_some, Option.map_some, htake]

end

/-! ## With the default settings -/

section

variable (env : Env) (context : RecognitionContext)

/-- The score of the `i`-th of `n` candidates with the default settings, for a boost. -/
def standingScore (boost : MemoryHit → ℚ) (n i : ℕ) (hit : MemoryHit) : ℚ :=
  (7 / 10 * (1 - i / n) + 3 / 10 * hit.signalScore) * boost hit + 1 / 10 * densityOf env hit +
    1 / 10 * (freshness env {} context hit).getD 0

/-- The candidates that stand before the first one, for a boost. -/
def standsBefore (boost : MemoryHit → ℚ) (first : MemoryHit) (rest : List MemoryHit) :
    List MemoryHit :=
  Reranking.ahead (fun i => ((first :: rest)[i]?.map
    (standingScore env context boost (rest.length + 1) i)).getD 0) first rest

/-- The boost of the context. -/
def contextBoost (hit : MemoryHit) : ℚ := ambientBoostWith env context hit {}

/-- The first candidate keeps its standing: if it is among the first forty without the boosts, then
with them no more stand before it, and it refers to nothing that they refer to. -/
def KeepsStanding (first : MemoryHit) (rest : List MemoryHit) : Prop :=
  let without := standsBefore env context (fun _ => 1) first rest
  let boosted := standsBefore env context (contextBoost env context) first rest
  Reranking.Unhindered first without → Reranking.standing without < 40 →
    Reranking.Unhindered first boosted ∧ Reranking.standing boosted ≤ Reranking.standing without

instance (first : MemoryHit) (rest : List MemoryHit) :
    Decidable (KeepsStanding env context first rest) :=
  inferInstanceAs (Decidable (_ → _ → _ ∧ _))

end

section

variable {env : Env} {coRetrievalBoosts : String → Option ℚ} {queryWords : List (List Char)}
  {query : String} {context : RecognitionContext} {first : MemoryHit} {rest : List MemoryHit}

/-- The settings of a decisive query. -/
abbrev decisiveSettings : RerankingConfig := ({} : CascadeRankingConfig).reranking {}

theorem boostedScore_default (n i : ℕ) (hit : MemoryHit) :
    boostedScore env decisiveSettings context (fun _ => none) queryWords n i hit =
      standingScore env context (contextBoost env context) n i hit := by
  have hsignal : max 0 (min (3 / 10 : ℚ) 1) = 3 / 10 := by norm_num
  have hdensity : max 0 (min (1 / 10 : ℚ) (1 / 5)) = 1 / 10 := by norm_num
  have hfresh : freshness env decisiveSettings context hit = freshness env {} context hit := rfl
  unfold boostedScore standingScore contextBoost
  rw [← hfresh]
  generalize freshness env decisiveSettings context hit = fresh
  simp only [CascadeRankingConfig.reranking, if_true, hsignal, hdensity, recencyBoostWeight,
    Bool.false_eq_true, false_and, if_false, true_and]
  rw [if_pos (by norm_num)]
  cases fresh with
  | none =>
    simp only [Option.getD_none]
    ring
  | some f =>
    simp only [Option.getD_some]
    ring

/-- **The score of a candidate** with the default settings, for a decisive query. -/
theorem additiveScore_default : additiveScore env decisiveSettings context (fun _ => none) queryWords
      (first :: rest) = fun i => ((first :: rest)[i]?.map
        (standingScore env context (contextBoost env context) (rest.length + 1) i)).getD 0 := by
  funext i
  have hscores : ((first :: rest)[i]?.map (boostedScore env decisiveSettings context (fun _ => none)
      queryWords (first :: rest).length i)).getD 0 = ((first :: rest)[i]?.map
        (standingScore env context (contextBoost env context) (rest.length + 1) i)).getD 0 := by
    congr 2
    funext hit
    exact boostedScore_default _ _ _
  unfold additiveScore
  dsimp only
  split
  · exact hscores
  · rw [if_neg (fun h => Bool.false_ne_true h.1)]
    exact hscores

/-- **Where the first candidate comes** with the default settings, for a decisive query. -/
theorem cascadeRanking_first_iff
    (hdecisive : ambientQueryIsDecisive env.tables query (first :: rest) = true) :
    ∃ places, cascadeRanking env {} coRetrievalBoosts queryWords query context (first :: rest) =
        some places ∧
      ∀ i, (places[i]?.map Prod.fst) = some 0 ↔
        i < 40 ∧ Reranking.Unhindered first
          (standsBefore env context (contextBoost env context) first rest) ∧
            i = Reranking.standing (standsBefore env context (contextBoost env context) first rest) := by
  have hweights : runWeights env {} query (first :: rest) = {} := by
    unfold runWeights
    rw [hdecisive]
    rfl
  have hboosts : runBoosts {} coRetrievalBoosts = fun _ => none := rfl
  have hpanics : ambientPanics decisiveSettings context = false := by
    unfold ambientPanics
    simp only [CascadeRankingConfig.reranking]
    norm_num
  refine ⟨((additive env decisiveSettings context (fun _ => none) queryWords).places
    (first :: rest)).take 40, ?_, fun i => ?_⟩
  · unfold cascadeRanking
    dsimp only
    rw [if_neg (List.cons_ne_nil _ _), if_neg Bool.false_ne_true, hweights, hboosts, hpanics,
      if_neg Bool.false_ne_true]
  · have hplace := @Reranking.place_first_iff
      (additive env decisiveSettings context (fun _ => none) queryWords) first rest rfl rfl i
    have hscore : (additive env decisiveSettings context (fun _ => none) queryWords).score
        (first :: rest) = fun i => ((first :: rest)[i]?.map
          (standingScore env context (contextBoost env context) (rest.length + 1) i)).getD 0 :=
      additiveScore_default
    rw [hscore] at hplace
    have hplaces : ((additive env decisiveSettings context (fun _ => none) queryWords).places
        (first :: rest)).map Prod.fst = ((additive env decisiveSettings context (fun _ => none)
          queryWords).kept (first :: rest)).map Prod.snd := by
      rw [Reranking.places, List.map_map]
      rfl
    rw [← List.getElem?_map, List.map_take, hplaces, List.getElem?_take]
    by_cases hi : i < 40
    · rw [if_pos hi, and_iff_right hi]
      exact hplace
    · rw [if_neg hi]
      exact iff_of_false (by simp) fun h => hi h.1

/-- The empty context, at the same time. -/
def RecognitionContext.emptied (context : RecognitionContext) : RecognitionContext :=
  { now := context.now }

theorem standsBefore_emptied :
    standsBefore env context.emptied (contextBoost env context.emptied) first rest =
      standsBefore env context (fun _ => 1) first rest := by
  have hboost : contextBoost env context.emptied = fun _ => 1 := by
    funext hit
    rfl
  have hfresh : freshness env {} context.emptied = freshness env {} context := rfl
  unfold standsBefore standingScore
  rw [hboost, hfresh]

variable (env coRetrievalBoosts queryWords query context) in
/-- **No lower**: where the empty context has the first candidate among the results, so does the
context, and no further down. -/
def FirstNoLower (candidates : List MemoryHit) : Prop :=
  ∀ places, cascadeRanking env {} coRetrievalBoosts queryWords query context.emptied candidates =
      some places →
    ∀ i : ℕ, places[i]?.map Prod.fst = some 0 → ∃ places',
      cascadeRanking env {} coRetrievalBoosts queryWords query context candidates = some places' ∧
        ∃ j ≤ i, places'[j]?.map Prod.fst = some 0

variable (env coRetrievalBoosts queryWords query context first rest) in
/-- **The context ranks the first candidate of a decisive query no lower** if and only if it keeps
its standing. -/
theorem first_no_lower_iff
    (hdecisive : ambientQueryIsDecisive env.tables query (first :: rest) = true) :
    FirstNoLower env coRetrievalBoosts queryWords query context (first :: rest) ↔
      KeepsStanding env context first rest := by
  obtain ⟨without, hwithout, hplace⟩ := @cascadeRanking_first_iff env coRetrievalBoosts queryWords
    query context.emptied first rest hdecisive
  obtain ⟨boosted, hboosted, hplace'⟩ := @cascadeRanking_first_iff env coRetrievalBoosts queryWords
    query context first rest hdecisive
  rw [standsBefore_emptied] at hplace
  unfold FirstNoLower KeepsStanding
  dsimp only
  constructor
  · intro hlower hfree hlt
    obtain ⟨_, heq, j, hj, hfirst⟩ := hlower without hwithout _ ((hplace _).2 ⟨hlt, hfree, rfl⟩)
    obtain rfl : boosted = _ := Option.some.inj (hboosted.symm.trans heq)
    obtain ⟨-, hfree', rfl⟩ := (hplace' j).1 hfirst
    exact ⟨hfree', hj⟩
  · intro hkeeps _ heq i hfirst
    obtain rfl : without = _ := Option.some.inj (hwithout.symm.trans heq)
    obtain ⟨hlt, hfree, rfl⟩ := (hplace i).1 hfirst
    obtain ⟨hfree', hle⟩ := hkeeps hfree hlt
    exact ⟨boosted, hboosted, _, hle, (hplace' _).2 ⟨hle.trans_lt hlt, hfree', rfl⟩⟩

end

/-! ## Two plans -/

/-- A plan, of a wing, with a signal. -/
def plan (id content wing : String) (signalScore : ℚ) : MemoryHit :=
  { crowdHit 0 0 with id, key := id, content, wing := some wing, signalScore }

/-- A note that the query names, and another. -/
def plans (wing : String) : List MemoryHit :=
  [plan "a" "deploy plan" wing (1 / 2), plan "b" "garden plan" "home" 1]

/-- Without time stamps. -/
def undated : Env := ⟨.ascii, fun _ => none, fun _ => 1⟩

/-- At home. -/
def atHome : RecognitionContext := { now := 0, focusWing := some "home" }

/-- At home, the plan for home that the query names stays first. -/
theorem first_no_lower_home :
    FirstNoLower undated (fun _ => none) [] "deploy plan" atHome (plans "home") :=
  (first_no_lower_iff undated (fun _ => none) [] "deploy plan" atHome
    (plan "a" "deploy plan" "home" (1 / 2)) [plan "b" "garden plan" "home" 1]
    (by decide +kernel)).2 (by decide +kernel)

/-- **The context hijacks the query**: at home, the plan for work that it names comes second. -/
theorem not_first_no_lower_ops :
    ambientQueryIsDecisive undated.tables "deploy plan" (plans "ops") = true ∧
      ¬ FirstNoLower undated (fun _ => none) [] "deploy plan" atHome (plans "ops") := by
  refine ⟨by decide +kernel, fun hlower => ?_⟩
  have hwithout : cascadeRanking undated {} (fun _ => none) [] "deploy plan" atHome.emptied
      (plans "ops") = some [(0, 17 / 20), (1, 13 / 20)] := by decide +kernel
  have hboosted : cascadeRanking undated {} (fun _ => none) [] "deploy plan" atHome
      (plans "ops") = some [(1, 13 / 20), (0, 119 / 200)] := by decide +kernel
  obtain ⟨_, heq, j, hj, hfirst⟩ := hlower _ hwithout 0 rfl
  obtain rfl := Option.some.inj (hboosted.symm.trans heq)
  obtain rfl : j = 0 := Nat.le_zero.1 hj
  exact absurd hfirst (by decide)

end Ranking

end Spectral
