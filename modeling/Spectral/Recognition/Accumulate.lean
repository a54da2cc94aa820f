import Spectral.Lib.HashMap
import Spectral.Lib.Ranking
import Spectral.Recognition.Score
import Mathlib.Data.List.Fold

/-!
# The accumulators of the scoring

`score_candidates` collects what it finds in hash maps: an accumulator for each memory, and the
weights of the features of the two best ones.  It then iterates over these maps, and the order of
an iteration is seeded anew by every process.

* `scoreCandidatesIn` — the function with its maps, for any orders of its iterations.
* `scoreCandidatesIn_eq` — the orders do not show in the result, which is that of
  `scoreCandidates`.
* `scoreCandidates_perm` — nor does the order of the matches.
-/

namespace Spectral

open Spectral.Lib

/-! ## Maps -/

/-- `Accum`. -/
structure Accum where
  score : ℚ := 0
  pairHits : ℕ := 0
  gramHits : ℕ := 0
  evidence : List Evidence := []
  deriving DecidableEq

/-- What a match adds to the accumulator of its memory. -/
def Accum.add (c : Contribution) (a : Accum) : Accum :=
  { score := a.score + c.evidence.weight
    pairHits := a.pairHits + if c.channel = .pair then 1 else 0
    gramHits := a.gramHits + if c.channel = .gram then 1 else 0
    evidence := a.evidence ++ [c.evidence] }

/-- `acc`. -/
def accumulate (cs : List Contribution) : HashMap String Accum :=
  HashMap.groupFold (fun c => c.evidence.memoryId) {} Accum.add cs

/-- The trace of an entry of `acc`. -/
def Accum.trace (stimulusFeatures : ℕ) (entry : String × Accum) : TraceMatch :=
  { memoryId := entry.1
    score := entry.2.score
    pairHits := entry.2.pairHits
    gramHits := entry.2.gramHits
    coverage := if 0 < stimulusFeatures then
      min ((entry.2.pairHits + entry.2.gramHits : ℕ) / stimulusFeatures) 1 else 0 }

/-- The orders of the iterations over `acc`, for the traces and for the evidence, and over the
weights of a memory's features. -/
structure IterationOrders where
  traces : Shuffle (String × Accum) := .inOrder
  evidence : Shuffle (String × Accum) := .inOrder
  weights : Shuffle ((UInt64 × Channel) × ℚ) := .inOrder

section

variable (o : IterationOrders)

/-- `best_f` and `runner_f`: the features of the two hashed channels a memory matched. -/
def featureWeights (cs : List Contribution) : HashMap (UInt64 × Channel) ℚ :=
  HashMap.groupFold (fun c => (c.hash, c.channel)) 0 (fun c w => max w c.evidence.weight) cs

/-- `excl`: the weight of the features of `a` that are not in `b`. -/
def exclusiveWeight (a b : HashMap (UInt64 × Channel) ℚ) : ℚ :=
  (((o.weights.run a.entries).filter fun e => (b.get? e.1).isNone).map Prod.snd).sum

/-- `exclusive_evidence`. -/
def exclusiveEvidenceIn (cs : List Contribution) (bestId runnerId : String) : ℚ × ℚ :=
  let hashed := cs.filter fun c => c.channel ≠ .minhash
  let bestF := featureWeights (hashed.filter fun c => c.evidence.memoryId = bestId)
  let runnerF := featureWeights (hashed.filter fun c =>
    c.evidence.memoryId ≠ bestId ∧ c.evidence.memoryId = runnerId)
  (exclusiveWeight o bestF runnerF, exclusiveWeight o runnerF bestF)

/-- `clear_lead`. -/
def clearLeadIn (config : ScoreConfig) (cs : List Contribution) (best : TraceMatch)
    (rest : List TraceMatch) : Bool :=
  decide ((rest.head?.map TraceMatch.score).getD 0 * config.recognizeMargin ≤ best.score) ||
    config.discriminativeMargin && rest.head?.any fun rival =>
      let (exclBest, exclRival) := exclusiveEvidenceIn o cs best.memoryId rival.memoryId
      decide (config.recognizeMinScore ≤ exclBest ∧ exclRival * config.recognizeMargin ≤ exclBest)

/-- The verdict and the odds. -/
def verdictIn (config : ScoreConfig) (cs : List Contribution)
    (coverageFamiliarity bestSimilarity : ℚ) : List TraceMatch → Verdict × ℚ
  | [] => (.novel, 0)
  | best :: rest =>
    if config.recognizeCoverage ≤ best.coverage ∧ config.recognizeMinScore ≤ best.score ∧
        config.recognizeMinFamiliarity ≤ max coverageFamiliarity bestSimilarity ∧
          clearLeadIn o config cs best rest = true then
      (.recognized best.memoryId, best.score)
    else if config.familiarFloor ≤ coverageFamiliarity ∨
        config.familiarMinSimilarity ≤ bestSimilarity ∨
          config.familiarMinScore ≤ best.score ∧
            config.familiarMinFeatures ≤ best.pairHits + best.gramHits then
      (.familiar, best.score)
    else (.novel, best.score)

/-- `score_candidates`, with its maps. -/
def scoreCandidatesIn (nu : Numerics) (prints : StimulusPrints)
    (pairMatches gramMatches : List FeatureMatch) (minhashMatches : List MinHashMatch)
    (enrolled : ℕ) (config : ScoreConfig) (minhashWeight minSimilarity : ℚ) :
    RecognitionResult :=
  let cs := contributions nu config pairMatches gramMatches minhashMatches enrolled minhashWeight
    minSimilarity
  let acc := accumulate cs
  let traces := ((o.traces.run acc.entries).map
    (Accum.trace (prints.pairHashes.length + prints.gramHashes.length))).insertionSort
      TraceMatch.StrongerFirst
  let totalPotential := rarity nu enrolled 1 *
    (prints.pairHashes.length + config.gramWeight * prints.gramHashes.length)
  let coverageFamiliarity := (traces.head?.map fun t =>
    if 0 < totalPotential then min (t.score / totalPotential) 1 else 0).getD 0
  let similarity := bestSimilarity minhashMatches minhashWeight minSimilarity
  let familiarity := max coverageFamiliarity similarity
  let (verdict, oddsOfOld) := verdictIn o config cs coverageFamiliarity similarity traces
  { verdict, familiarity, oddsOfOld, novelty := 1 - familiarity
    traces := traces.take config.maxTraces
    evidence := (((o.evidence.run acc.entries).flatMap fun e => e.2.evidence).insertionSort
      Evidence.StrongerFirst).take config.maxEvidence
    stimulusPeaks := prints.peaks.length
    stimulusPairs := prints.pairHashes.length }

end

/-! ## The sorts -/

instance : Std.Total TraceMatch.StrongerFirst :=
  Lib.total_then TraceMatch.score (Lib.total_key TraceMatch.memoryId)

instance : IsTrans TraceMatch TraceMatch.StrongerFirst :=
  Lib.isTrans_then TraceMatch.score (Lib.isTrans_key TraceMatch.memoryId)

instance : Std.Total Evidence.StrongerFirst :=
  Lib.total_then Evidence.weight (Lib.total_then (fun e => OrderDual.toDual e.feature)
    (Lib.total_key Evidence.memoryId))

instance : IsTrans Evidence Evidence.StrongerFirst :=
  Lib.isTrans_then Evidence.weight (Lib.isTrans_then (fun e => OrderDual.toDual e.feature)
    (Lib.isTrans_key Evidence.memoryId))

/-- Evidence that ties with other evidence is the same evidence. -/
theorem Evidence.StrongerFirst.antisymm {a b : Evidence} (hab : a.StrongerFirst b)
    (hba : b.StrongerFirst a) : a = b := by
  obtain ⟨feature, memoryId, weight⟩ := a
  obtain ⟨feature', memoryId', weight'⟩ := b
  unfold Evidence.StrongerFirst at hab hba
  simp only [Evidence.mk.injEq]
  grind

/-- Traces that tie are of one memory. -/
theorem TraceMatch.StrongerFirst.memoryId_eq {a b : TraceMatch} (hab : a.StrongerFirst b)
    (hba : b.StrongerFirst a) : a.memoryId = b.memoryId := by
  unfold TraceMatch.StrongerFirst at hab hba
  grind

/-! ## What the maps hold -/

/-- The accumulator of a memory. -/
def accumOf (cs : List Contribution) (id : String) : Accum :=
  { score := ((contributionsTo cs id).map fun c => c.evidence.weight).sum
    pairHits := channelHits cs .pair id
    gramHits := channelHits cs .gram id
    evidence := (contributionsTo cs id).map Contribution.evidence }

theorem foldl_add (cs : List Contribution) (a : Accum) :
    cs.foldl (fun a c => Accum.add c a) a =
      { score := a.score + (cs.map fun c => c.evidence.weight).sum
        pairHits := a.pairHits + cs.countP fun c => c.channel = .pair
        gramHits := a.gramHits + cs.countP fun c => c.channel = .gram
        evidence := a.evidence ++ cs.map Contribution.evidence } := by
  induction cs generalizing a with
  | nil => simp
  | cons c cs ih =>
    rw [List.foldl_cons, ih]
    simp only [Accum.add, List.map_cons, List.sum_cons, List.countP_cons, Accum.mk.injEq,
      decide_eq_true_eq, List.append_assoc, List.cons_append, List.nil_append, and_true]
    exact ⟨add_assoc _ _ _, by omega, by omega⟩

theorem perm_entries_accumulate (cs : List Contribution) : (accumulate cs).entries.Perm
    (((cs.map fun c => c.evidence.memoryId).dedup).map fun id => (id, accumOf cs id)) := by
  have h := HashMap.perm_entries_groupFold (fun c => c.evidence.memoryId) ({} : Accum) Accum.add cs
  simp only [foldl_add] at h
  simpa [accumulate, accumOf, contributionsTo, channelHits] using h

theorem foldl_max_weight (cs : List Contribution) :
    cs.foldl (fun w c => max w c.evidence.weight) 0 =
      (cs.map fun c => c.evidence.weight).foldr max 0 := by
  rw [← List.foldl_eq_foldr, List.foldl_map]

/-- The features of one memory's hashed matches, with their weights. -/
theorem perm_entries_featureWeights (cs : List Contribution) : (featureWeights cs).entries.Perm
    (((cs.map fun c => (c.hash, c.channel)).dedup).map fun f => (f, featureWeight cs f)) := by
  have h := HashMap.perm_entries_groupFold (fun c : Contribution => (c.hash, c.channel)) (0 : ℚ)
    (fun c w => max w c.evidence.weight) cs
  simp only [foldl_max_weight] at h
  exact h

theorem get?_featureWeights_isNone {cs : List Contribution} {f : UInt64 × Channel} :
    ((featureWeights cs).get? f).isNone = true ↔ f ∉ cs.map fun c => (c.hash, c.channel) := by
  rw [featureWeights, HashMap.get?_groupFold]
  by_cases h : f ∈ cs.map fun c => (c.hash, c.channel)
  · simp only [h, ↓reduceIte, Option.isNone_some, Bool.false_eq_true, not_true]
  · simp only [h, ↓reduceIte, Option.isNone_none, not_false_eq_true]

theorem mem_hashedFeatures {cs : List Contribution} {f : UInt64 × Channel} :
    f ∈ hashedFeatures cs ↔ f ∈ (cs.filter fun c => c.channel ≠ .minhash).map fun c =>
      (c.hash, c.channel) := List.mem_dedup

/-- A hashed feature weighs the same among all matches and among the hashed ones. -/
theorem featureWeight_hashed {cs : List Contribution} {f : UInt64 × Channel}
    (h : f ∈ hashedFeatures cs) :
    featureWeight (cs.filter fun c => c.channel ≠ .minhash) f = featureWeight cs f := by
  obtain ⟨c₀, hc₀, rfl⟩ := List.mem_map.1 (mem_hashedFeatures.1 h)
  have hchannel : c₀.channel ≠ .minhash := by simpa using (List.mem_filter.1 hc₀).2
  unfold featureWeight
  rw [List.filter_filter]
  congr 2
  refine List.filter_congr fun c _ => ?_
  by_cases hc : (c.hash, c.channel) = (c₀.hash, c₀.channel)
  · have : c.channel ≠ .minhash := (Prod.mk.inj hc).2 ▸ hchannel
    simp [hc, this]
  · simp [hc]

/-- The weight of what one memory matched and the other did not, from the maps. -/
theorem exclusiveWeight_eq (o : IterationOrders) (cs cs' : List Contribution) :
    exclusiveWeight o (featureWeights (cs.filter fun c => c.channel ≠ .minhash))
        (featureWeights (cs'.filter fun c => c.channel ≠ .minhash)) =
      (((hashedFeatures cs).filter fun f => f ∉ hashedFeatures cs').map (featureWeight cs)).sum := by
  have hperm := (o.weights.perm _).trans
    (perm_entries_featureWeights (cs.filter fun c => c.channel ≠ .minhash))
  unfold exclusiveWeight
  rw [((hperm.filter _).map Prod.snd).sum_eq, List.filter_map, List.map_map]
  refine congrArg List.sum ?_
  have hfilter : ((cs.filter fun c => c.channel ≠ .minhash).map fun c =>
      (c.hash, c.channel)).dedup = hashedFeatures cs := rfl
  rw [hfilter]
  have htest : ∀ f ∈ hashedFeatures cs,
      ((fun e : (UInt64 × Channel) × ℚ =>
        ((featureWeights (cs'.filter fun c => c.channel ≠ .minhash)).get? e.1).isNone) ∘ fun f =>
          (f, featureWeight (cs.filter fun c => c.channel ≠ .minhash) f)) f =
        decide (f ∉ hashedFeatures cs') := by
    intro f _
    rw [Bool.eq_iff_iff, decide_eq_true_iff, mem_hashedFeatures]
    exact get?_featureWeights_isNone
  rw [List.filter_congr htest]
  exact List.map_congr_left fun f hf => featureWeight_hashed (List.mem_of_mem_filter hf)

theorem exclusiveEvidenceIn_eq (o : IterationOrders) (cs : List Contribution) {id other : String}
    (h : other ≠ id) : exclusiveEvidenceIn o cs id other =
      (exclusiveEvidence cs id other, exclusiveEvidence cs other id) := by
  have hbest : (cs.filter fun c => c.channel ≠ .minhash).filter
      (fun c => c.evidence.memoryId = id) =
        (contributionsTo cs id).filter fun c => c.channel ≠ .minhash := by
    rw [contributionsTo, List.filter_filter, List.filter_filter]
    exact List.filter_congr fun c _ => Bool.and_comm _ _
  have hother : (cs.filter fun c => c.channel ≠ .minhash).filter
      (fun c => c.evidence.memoryId ≠ id ∧ c.evidence.memoryId = other) =
        (contributionsTo cs other).filter fun c => c.channel ≠ .minhash := by
    rw [contributionsTo, List.filter_filter, List.filter_filter]
    refine List.filter_congr fun c _ => ?_
    by_cases hc : c.evidence.memoryId = other
    · simp [hc, h]
    · simp [hc]
  unfold exclusiveEvidenceIn
  dsimp only
  rw [hbest, hother, exclusiveWeight_eq, exclusiveWeight_eq]
  rfl

/-! ## The orders do not show -/

section

variable (o : IterationOrders) (nu : Numerics) (prints : StimulusPrints)
  {pairMatches pairMatches' gramMatches gramMatches' : List FeatureMatch}
  {minhashMatches minhashMatches' : List MinHashMatch} (enrolled : ℕ) (config : ScoreConfig)
  (minhashWeight minSimilarity : ℚ)

/-- A memory has one trace. -/
theorem nodup_rankedTraces (cs : List Contribution) (n : ℕ) :
    ((rankedTraces cs n).map TraceMatch.memoryId).Nodup := by
  have hperm := (List.perm_insertionSort TraceMatch.StrongerFirst
    (((cs.map fun c => c.evidence.memoryId).dedup).map (traceOf cs n))).map TraceMatch.memoryId
  refine hperm.nodup_iff.2 ?_
  rw [List.map_map]
  have hid : (TraceMatch.memoryId ∘ traceOf cs n) = fun id => id := rfl
  rw [hid, List.map_id']
  exact List.nodup_dedup _

theorem clearLeadIn_eq {cs : List Contribution} {best : TraceMatch} {rest : List TraceMatch}
    (h : ∀ rival ∈ rest, rival.memoryId ≠ best.memoryId) :
    clearLeadIn o config cs best rest = clearLead config cs best rest := by
  cases rest with
  | nil => rfl
  | cons rival rest =>
    unfold clearLeadIn clearLead
    simp only [List.head?_cons, Option.any_some,
      exclusiveEvidenceIn_eq o cs (h rival List.mem_cons_self)]

theorem verdictIn_eq {cs : List Contribution} {coverageFamiliarity similarity : ℚ}
    {traces : List TraceMatch} (h : (traces.map TraceMatch.memoryId).Nodup) :
    verdictIn o config cs coverageFamiliarity similarity traces =
      verdictOf config cs coverageFamiliarity similarity traces := by
  cases traces with
  | nil => rfl
  | cons best rest =>
    have hrival : ∀ rival ∈ rest, rival.memoryId ≠ best.memoryId := by
      rintro rival hrival heq
      exact (List.nodup_cons.1 h).1 (heq ▸ List.mem_map_of_mem hrival)
    rw [verdictIn, verdictOf, clearLeadIn_eq o config hrival]

/-- The traces, collected in any order and sorted. -/
theorem sort_traces_eq (cs : List Contribution) (n : ℕ) :
    ((o.traces.run (accumulate cs).entries).map (Accum.trace n)).insertionSort
      TraceMatch.StrongerFirst = rankedTraces cs n := by
  have hperm := ((o.traces.perm _).trans (perm_entries_accumulate cs)).map (Accum.trace n)
  have htrace : Accum.trace n ∘ (fun id => (id, accumOf cs id)) = traceOf cs n := rfl
  rw [List.map_map, htrace] at hperm
  refine Lib.insertionSort_eq_of_perm hperm fun a ha b hb hab hba => ?_
  obtain ⟨id, -, rfl⟩ := List.mem_map.1 (hperm.mem_iff.1 ha)
  obtain ⟨id', -, rfl⟩ := List.mem_map.1 (hperm.mem_iff.1 hb)
  have hid : id = id' := hab.memoryId_eq hba
  rw [hid]

/-- The evidence, collected in any order and sorted. -/
theorem sort_evidence_eq (cs : List Contribution) :
    ((o.evidence.run (accumulate cs).entries).flatMap fun e => e.2.evidence).insertionSort
      Evidence.StrongerFirst = (cs.map Contribution.evidence).insertionSort Evidence.StrongerFirst := by
  have hperm := ((o.evidence.perm _).trans (perm_entries_accumulate cs)).flatMap_right
    fun e => e.2.evidence
  rw [List.flatMap_map] at hperm
  have hgroups := (perm_flatMap_groups (fun c : Contribution => c.evidence.memoryId) cs).map
    Contribution.evidence
  rw [List.map_flatMap] at hgroups
  exact Lib.insertionSort_eq_of_perm (hperm.trans hgroups) fun a _ b _ => Evidence.StrongerFirst.antisymm

/-- **The maps leave no mark.**  Whatever the orders of the iterations, the result is the one
that is read off the matches. -/
theorem scoreCandidatesIn_eq : scoreCandidatesIn o nu prints pairMatches gramMatches minhashMatches
      enrolled config minhashWeight minSimilarity =
    scoreCandidates nu prints pairMatches gramMatches minhashMatches enrolled config minhashWeight
      minSimilarity := by
  unfold scoreCandidatesIn scoreCandidates
  simp only [sort_traces_eq, sort_evidence_eq, verdictIn_eq o config (nodup_rankedTraces _ _)]

/-! ## The order of the matches does not show -/

section Perm

variable {cs cs' : List Contribution} (h : cs.Perm cs')

theorem contributions_perm (hpairs : pairMatches.Perm pairMatches')
    (hgrams : gramMatches.Perm gramMatches') (hminhash : minhashMatches.Perm minhashMatches') :
    (contributions nu config pairMatches gramMatches minhashMatches enrolled minhashWeight
      minSimilarity).Perm
    (contributions nu config pairMatches' gramMatches' minhashMatches' enrolled minhashWeight
      minSimilarity) := by
  unfold contributions
  refine ((hpairs.map _).append (hgrams.map _)).append ?_
  split
  · exact hminhash.filterMap _
  · exact .rfl

include h

theorem traceOf_perm (n : ℕ) (id : String) : traceOf cs n id = traceOf cs' n id := by
  have hto : (contributionsTo cs id).Perm (contributionsTo cs' id) := h.filter _
  have hhits : ∀ channel, channelHits cs channel id = channelHits cs' channel id :=
    fun channel => hto.countP_eq _
  unfold traceOf
  simp only [hhits, (hto.map fun c => c.evidence.weight).sum_eq]

theorem rankedTraces_perm (n : ℕ) : rankedTraces cs n = rankedTraces cs' n := by
  have hids := ((h.map fun c => c.evidence.memoryId).dedup).map (traceOf cs n)
  have htraces : (((cs'.map fun c => c.evidence.memoryId).dedup).map (traceOf cs n)) =
      ((cs'.map fun c => c.evidence.memoryId).dedup).map (traceOf cs' n) :=
    List.map_congr_left fun id _ => traceOf_perm h n id
  rw [htraces] at hids
  refine Lib.insertionSort_eq_of_perm hids fun a ha b hb hab hba => ?_
  obtain ⟨id, -, rfl⟩ := List.mem_map.1 ha
  obtain ⟨id', -, rfl⟩ := List.mem_map.1 hb
  have hid : id = id' := hab.memoryId_eq hba
  rw [hid]

theorem featureWeight_perm (f : UInt64 × Channel) : featureWeight cs f = featureWeight cs' f :=
  ((h.filter _).map _).foldr_eq 0

theorem hashedFeatures_perm : (hashedFeatures cs).Perm (hashedFeatures cs') :=
  ((h.filter _).map _).dedup

theorem exclusiveEvidence_perm (id other : String) :
    exclusiveEvidence cs id other = exclusiveEvidence cs' id other := by
  have hto : ∀ id, (contributionsTo cs id).Perm (contributionsTo cs' id) := fun id => h.filter _
  have hweight : featureWeight (contributionsTo cs id) = featureWeight (contributionsTo cs' id) :=
    funext (featureWeight_perm (hto id))
  have htest : (fun f => decide (f ∉ hashedFeatures (contributionsTo cs other))) =
      fun f => decide (f ∉ hashedFeatures (contributionsTo cs' other)) := by
    funext f
    simp only [(hashedFeatures_perm (hto other)).mem_iff]
  unfold exclusiveEvidence
  rw [hweight, htest]
  exact (((hashedFeatures_perm (hto id)).filter _).map _).sum_eq

theorem verdictOf_perm (coverageFamiliarity similarity : ℚ) (traces : List TraceMatch) :
    verdictOf config cs coverageFamiliarity similarity traces =
      verdictOf config cs' coverageFamiliarity similarity traces := by
  have hlead : ∀ best rest, clearLead config cs best rest = clearLead config cs' best rest := by
    intro best rest
    unfold clearLead
    simp only [exclusiveEvidence_perm h]
  cases traces with
  | nil => rfl
  | cons best rest => rw [verdictOf, verdictOf, hlead]

end Perm

/-- **The order of the matches leaves no mark.** -/
theorem scoreCandidates_perm (hpairs : pairMatches.Perm pairMatches')
    (hgrams : gramMatches.Perm gramMatches') (hminhash : minhashMatches.Perm minhashMatches') :
    scoreCandidates nu prints pairMatches gramMatches minhashMatches enrolled config minhashWeight
        minSimilarity =
      scoreCandidates nu prints pairMatches' gramMatches' minhashMatches' enrolled config
        minhashWeight minSimilarity := by
  have hcs := contributions_perm nu enrolled config minhashWeight minSimilarity hpairs hgrams
    hminhash
  have hevidence := Lib.insertionSort_eq_of_perm (hcs.map Contribution.evidence)
    fun a _ b _ => Evidence.StrongerFirst.antisymm
  have hbest : bestSimilarity minhashMatches minhashWeight minSimilarity =
      bestSimilarity minhashMatches' minhashWeight minSimilarity := by
    unfold bestSimilarity
    rw [((hminhash.filter _).map _).foldr_eq 0]
  unfold scoreCandidates
  simp only [rankedTraces_perm hcs, hevidence, hbest, verdictOf_perm config hcs]

end

end Spectral
