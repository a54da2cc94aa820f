import Mathlib.Algebra.BigOperators.Group.List.Basic
import Mathlib.Data.Rat.Defs
import Mathlib.Algebra.Order.Ring.Rat
import Mathlib.Data.List.Dedup
import Mathlib.Data.List.Sort
import Mathlib.Data.String.Basic

/-!
# Scoring

`score_candidates` weighs the features a stimulus shares with the memories of the index, by
their rarity, and forms a verdict.

* `contributions` — the weighed matches.  What the code accumulates for a memory in a map is
  here what they come to for its id.
* `scoreCandidates` — the traces, the verdict and the evidence.
* `matched_of_names` — a result names memories that were matched.

Scores are exact rationals; the logarithm and the formatting of numbers are the parameters
collected in `Numerics`.
-/

namespace Spectral

/-- The functions on numbers the scoring calls. -/
structure Numerics where
  /-- `f64::ln`. -/
  ln : ℚ → ℚ
  /-- `format!("{:.2}", x)`. -/
  twoDecimals : ℚ → String

/-- `Landmark`. -/
structure Landmark where
  key : String
  position : ℕ
  anchor : Bool
  deriving DecidableEq

/-- `StimulusPrints`. -/
structure StimulusPrints where
  peaks : List Landmark := []
  pairHashes : List (UInt64 × String) := []
  gramHashes : List (UInt64 × String) := []
  deriving DecidableEq

/-- `FeatureMatch`. -/
structure FeatureMatch where
  hash : UInt64
  memoryId : String
  label : String
  docFrequency : ℕ
  deriving DecidableEq

/-- `MinHashMatch`. -/
structure MinHashMatch where
  memoryId : String
  similarity : ℚ
  deriving DecidableEq

/-- `ScoreConfig`. -/
structure ScoreConfig where
  recognizeCoverage : ℚ := 35 / 100
  recognizeMinScore : ℚ := 3
  recognizeMinFamiliarity : ℚ := 60 / 100
  recognizeMargin : ℚ := 15 / 10
  familiarFloor : ℚ := 10 / 100
  familiarMinSimilarity : ℚ := 20 / 100
  familiarMinScore : ℚ := 25 / 10
  familiarMinFeatures : ℕ := 2
  gramWeight : ℚ := 2
  maxEvidence : ℕ := 12
  maxTraces : ℕ := 5
  discriminativeMargin : Bool := false
  deriving DecidableEq

/-- `Verdict`. -/
inductive Verdict where
  | recognized (memoryId : String)
  | familiar
  | novel
  deriving DecidableEq, Repr

/-- `Evidence`. -/
structure Evidence where
  feature : String
  memoryId : String
  weight : ℚ
  deriving DecidableEq

/-- `TraceMatch`. -/
structure TraceMatch where
  memoryId : String
  score : ℚ
  pairHits : ℕ
  gramHits : ℕ
  coverage : ℚ
  deriving DecidableEq

/-- `RecognitionResult`. -/
structure RecognitionResult where
  verdict : Verdict
  familiarity : ℚ
  oddsOfOld : ℚ
  novelty : ℚ
  traces : List TraceMatch
  evidence : List Evidence
  stimulusPeaks : ℕ
  stimulusPairs : ℕ
  deriving DecidableEq

/-- The result names a memory: as recognized, in a trace or in the evidence. -/
def RecognitionResult.Names (result : RecognitionResult) (id : String) : Prop :=
  (∃ t ∈ result.traces, t.memoryId = id) ∨ (∃ e ∈ result.evidence, e.memoryId = id) ∨
    result.verdict = .recognized id

/-! ## What matches contribute -/

/-- The channel of a match. -/
inductive Channel where
  | pair
  | gram
  | minhash
  deriving DecidableEq

/-- What one match adds to the score of its memory. -/
structure Contribution where
  channel : Channel
  hash : UInt64 := 0
  evidence : Evidence
  deriving DecidableEq

section

variable (nu : Numerics) (config : ScoreConfig)

/-- `rarity`. -/
def rarity (enrolled df : ℕ) : ℚ := max (nu.ln ((enrolled + 1 : ℕ) / (max df 1 : ℕ))) (1 / 10)

/-- The contribution of a pair. -/
def pairContribution (enrolled : ℕ) (m : FeatureMatch) : Contribution :=
  { channel := .pair, hash := m.hash,
    evidence := ⟨m.label, m.memoryId, rarity nu enrolled m.docFrequency⟩ }

/-- The contribution of a gram. -/
def gramContribution (enrolled : ℕ) (m : FeatureMatch) : Contribution :=
  { channel := .gram, hash := m.hash,
    evidence := ⟨m.label, m.memoryId, rarity nu enrolled m.docFrequency * config.gramWeight⟩ }

/-- The contribution of a shingle set that is similar enough. -/
def minhashContribution (enrolled : ℕ) (minhashWeight minSimilarity : ℚ) (m : MinHashMatch) :
    Option Contribution :=
  if m.similarity < minSimilarity then none
  else some { channel := .minhash,
              evidence := ⟨"minhash: containment " ++ nu.twoDecimals m.similarity, m.memoryId,
                m.similarity * minhashWeight * rarity nu enrolled 1⟩ }

/-- Everything that is added to a score. -/
def contributions (pairMatches gramMatches : List FeatureMatch)
    (minhashMatches : List MinHashMatch) (enrolled : ℕ) (minhashWeight minSimilarity : ℚ) :
    List Contribution :=
  pairMatches.map (pairContribution nu enrolled) ++
    gramMatches.map (gramContribution nu config enrolled) ++
      if 0 < minhashWeight then
        minhashMatches.filterMap (minhashContribution nu enrolled minhashWeight minSimilarity)
      else []

end

/-- The contributions to one memory. -/
def contributionsTo (cs : List Contribution) (id : String) : List Contribution :=
  cs.filter fun c => c.evidence.memoryId = id

/-- How many matches of a channel a memory has. -/
def channelHits (cs : List Contribution) (channel : Channel) (id : String) : ℕ :=
  (contributionsTo cs id).countP fun c => c.channel = channel

/-- The trace of a memory. -/
def traceOf (cs : List Contribution) (stimulusFeatures : ℕ) (id : String) : TraceMatch :=
  let pairHits := channelHits cs .pair id
  let gramHits := channelHits cs .gram id
  { memoryId := id
    score := ((contributionsTo cs id).map fun c => c.evidence.weight).sum
    pairHits
    gramHits
    coverage := if 0 < stimulusFeatures then min ((pairHits + gramHits : ℕ) / stimulusFeatures) 1
      else 0 }

/-- The strongest trace first, ties by id. -/
def TraceMatch.StrongerFirst (a b : TraceMatch) : Prop :=
  b.score < a.score ∨ a.score = b.score ∧ a.memoryId ≤ b.memoryId

instance : DecidableRel TraceMatch.StrongerFirst := fun a b =>
  inferInstanceAs (Decidable (b.score < a.score ∨ a.score = b.score ∧ a.memoryId ≤ b.memoryId))

/-- The strongest evidence first, ties by feature and id. -/
def Evidence.StrongerFirst (a b : Evidence) : Prop :=
  b.weight < a.weight ∨ a.weight = b.weight ∧
    (a.feature < b.feature ∨ a.feature = b.feature ∧ a.memoryId ≤ b.memoryId)

instance : DecidableRel Evidence.StrongerFirst := fun a b =>
  inferInstanceAs (Decidable (b.weight < a.weight ∨ a.weight = b.weight ∧
    (a.feature < b.feature ∨ a.feature = b.feature ∧ a.memoryId ≤ b.memoryId)))

/-- All traces, the strongest first. -/
def rankedTraces (cs : List Contribution) (stimulusFeatures : ℕ) : List TraceMatch :=
  (((cs.map fun c => c.evidence.memoryId).dedup).map (traceOf cs stimulusFeatures)).insertionSort
    TraceMatch.StrongerFirst

/-! ## The verdict -/

/-- The weight of a feature that a memory matched: the most of its matches. -/
def featureWeight (cs : List Contribution) (feature : UInt64 × Channel) : ℚ :=
  ((cs.filter fun c => (c.hash, c.channel) = feature).map fun c => c.evidence.weight).foldr max 0

/-- The features of the two hashed channels a memory matched. -/
def hashedFeatures (cs : List Contribution) : List (UInt64 × Channel) :=
  ((cs.filter fun c => c.channel ≠ .minhash).map fun c => (c.hash, c.channel)).dedup

/-- `exclusive_evidence`, one way: the weight of what one memory matched and the other did
not. -/
def exclusiveEvidence (cs : List Contribution) (id other : String) : ℚ :=
  (((hashedFeatures (contributionsTo cs id)).filter fun f =>
    f ∉ hashedFeatures (contributionsTo cs other)).map
      (featureWeight (contributionsTo cs id))).sum

/-- The best trace leads clearly. -/
def clearLead (config : ScoreConfig) (cs : List Contribution) (best : TraceMatch)
    (rest : List TraceMatch) : Bool :=
  decide ((rest.head?.map TraceMatch.score).getD 0 * config.recognizeMargin ≤ best.score) ||
    config.discriminativeMargin && rest.head?.any fun rival =>
      let exclBest := exclusiveEvidence cs best.memoryId rival.memoryId
      let exclRival := exclusiveEvidence cs rival.memoryId best.memoryId
      decide (config.recognizeMinScore ≤ exclBest ∧ exclRival * config.recognizeMargin ≤ exclBest)

/-- The verdict on the traces, and the odds that go with it. -/
def verdictOf (config : ScoreConfig) (cs : List Contribution)
    (coverageFamiliarity bestSimilarity : ℚ) : List TraceMatch → Verdict × ℚ
  | [] => (.novel, 0)
  | best :: rest =>
    if config.recognizeCoverage ≤ best.coverage ∧ config.recognizeMinScore ≤ best.score ∧
        config.recognizeMinFamiliarity ≤ max coverageFamiliarity bestSimilarity ∧
          clearLead config cs best rest = true then
      (.recognized best.memoryId, best.score)
    else if config.familiarFloor ≤ coverageFamiliarity ∨
        config.familiarMinSimilarity ≤ bestSimilarity ∨
          config.familiarMinScore ≤ best.score ∧
            config.familiarMinFeatures ≤ best.pairHits + best.gramHits then
      (.familiar, best.score)
    else (.novel, best.score)

/-- The similarity of the most similar shingle set that counts. -/
def bestSimilarity (minhashMatches : List MinHashMatch) (minhashWeight minSimilarity : ℚ) : ℚ :=
  if 0 < minhashWeight then
    ((minhashMatches.filter fun m => decide (minSimilarity ≤ m.similarity)).map
      MinHashMatch.similarity).foldr max 0
  else 0

/-- `score_candidates`. -/
def scoreCandidates (nu : Numerics) (prints : StimulusPrints)
    (pairMatches gramMatches : List FeatureMatch) (minhashMatches : List MinHashMatch)
    (enrolled : ℕ) (config : ScoreConfig) (minhashWeight minSimilarity : ℚ) :
    RecognitionResult :=
  let cs := contributions nu config pairMatches gramMatches minhashMatches enrolled minhashWeight
    minSimilarity
  let traces := rankedTraces cs (prints.pairHashes.length + prints.gramHashes.length)
  let totalPotential := rarity nu enrolled 1 *
    (prints.pairHashes.length + config.gramWeight * prints.gramHashes.length)
  let coverageFamiliarity := (traces.head?.map fun t =>
    if 0 < totalPotential then min (t.score / totalPotential) 1 else 0).getD 0
  let similarity := bestSimilarity minhashMatches minhashWeight minSimilarity
  let familiarity := max coverageFamiliarity similarity
  let (verdict, oddsOfOld) := verdictOf config cs coverageFamiliarity similarity traces
  { verdict, familiarity, oddsOfOld, novelty := 1 - familiarity
    traces := traces.take config.maxTraces
    evidence := ((cs.map Contribution.evidence).insertionSort Evidence.StrongerFirst).take
      config.maxEvidence
    stimulusPeaks := prints.peaks.length
    stimulusPairs := prints.pairHashes.length }

/-! ## The ids in a result -/

section

variable {nu : Numerics} {prints : StimulusPrints} {pairMatches gramMatches : List FeatureMatch}
  {minhashMatches : List MinHashMatch} {enrolled : ℕ} {config : ScoreConfig}
  {minhashWeight minSimilarity : ℚ}

/-- A contribution goes to the memory of a match. -/
theorem memoryId_of_mem_contributions {c : Contribution}
    (h : c ∈ contributions nu config pairMatches gramMatches minhashMatches enrolled minhashWeight
      minSimilarity) :
    (∃ m ∈ pairMatches ++ gramMatches, m.memoryId = c.evidence.memoryId) ∨
      ∃ m ∈ minhashMatches, m.memoryId = c.evidence.memoryId := by
  unfold contributions at h
  rcases List.mem_append.1 h with h | h
  · left
    rcases List.mem_append.1 h with h | h
    · obtain ⟨m, hm, rfl⟩ := List.mem_map.1 h
      exact ⟨m, List.mem_append_left _ hm, rfl⟩
    · obtain ⟨m, hm, rfl⟩ := List.mem_map.1 h
      exact ⟨m, List.mem_append_right _ hm, rfl⟩
  · right
    split at h
    · obtain ⟨m, hm, hc⟩ := List.mem_filterMap.1 h
      unfold minhashContribution at hc
      split at hc
      · cases hc
      · cases hc
        exact ⟨m, hm, rfl⟩
    · cases h

/-- A trace is that of a memory something is contributed to. -/
theorem mem_rankedTraces {cs : List Contribution} {n : ℕ} {t : TraceMatch} :
    t ∈ rankedTraces cs n ↔ ∃ c ∈ cs, t = traceOf cs n c.evidence.memoryId := by
  unfold rankedTraces
  rw [List.mem_insertionSort, List.mem_map]
  constructor
  · rintro ⟨id, hid, rfl⟩
    obtain ⟨c, hc, rfl⟩ := List.mem_map.1 (List.mem_dedup.1 hid)
    exact ⟨c, hc, rfl⟩
  · rintro ⟨c, hc, rfl⟩
    exact ⟨_, List.mem_dedup.2 (List.mem_map_of_mem hc), rfl⟩

/-- Only the best trace is recognized. -/
theorem head?_of_verdictOf {cs : List Contribution} {coverageFamiliarity similarity : ℚ}
    {traces : List TraceMatch} {id : String}
    (h : (verdictOf config cs coverageFamiliarity similarity traces).1 = .recognized id) :
    traces.head?.map TraceMatch.memoryId = some id := by
  cases traces with
  | nil => cases h
  | cons best rest =>
    rw [verdictOf] at h
    split_ifs at h with hrecognized hfamiliar
    · cases h
      rfl

/-- **The ids in a result.**  Traces, evidence and verdict name memories that were matched. -/
theorem matched_of_names {id : String}
    (h : (scoreCandidates nu prints pairMatches gramMatches minhashMatches enrolled config
      minhashWeight minSimilarity).Names id) :
    (∃ m ∈ pairMatches ++ gramMatches, m.memoryId = id) ∨
      ∃ m ∈ minhashMatches, m.memoryId = id := by
  have htrace : ∀ t ∈ rankedTraces (contributions nu config pairMatches gramMatches minhashMatches
      enrolled minhashWeight minSimilarity) (prints.pairHashes.length + prints.gramHashes.length),
      (∃ m ∈ pairMatches ++ gramMatches, m.memoryId = t.memoryId) ∨
        ∃ m ∈ minhashMatches, m.memoryId = t.memoryId := by
    intro t ht
    obtain ⟨c, hc, rfl⟩ := mem_rankedTraces.1 ht
    exact memoryId_of_mem_contributions hc
  rcases h with ⟨t, ht, rfl⟩ | ⟨e, he, rfl⟩ | hverdict
  · exact htrace t (List.mem_of_mem_take ht)
  · obtain ⟨c, hc, rfl⟩ := List.mem_map.1 ((List.mem_insertionSort _).1 (List.mem_of_mem_take he))
    exact memoryId_of_mem_contributions hc
  · obtain ⟨best, hbest, rfl⟩ := Option.map_eq_some_iff.1 (head?_of_verdictOf hverdict)
    exact htrace best (List.mem_of_mem_head? hbest)

end

end Spectral
