import Mathlib.Data.Rat.Floor
import Spectral.Brain.Retrieve
import Spectral.Lib.Displacement

/-!
# Re-ranking for a question

A hit is scored by its place and by how well it answers the question: the words of the question it
has, whether it has what the question asks for, and whether it only acknowledges.  The hits are then
sorted by their scores.

* `scoreHit`, `rerank` — the score and the re-ranking; `answerabilityRerank_eq` says that it is the one
  of a retrieval.
* `rankScore_lt` — of two hits whose places are further apart than the weights reach, the first scores
  more.
* `rerank_bounded` — the re-ranking is a permutation that keeps the order of hits whose places are
  further apart than that, and that moves no hit further.

The matching of a pattern is that of the `regex` crate: a parameter.  Scores are exact rationals.
-/

namespace Spectral.Answerability

open Spectral.Lib

/-! ## The patterns -/

def reNumber : String :=
  "\\b\\d+(?:[.,]\\d+)?\\b|\\b(?:one|two|three|four|five|six|seven|eight|nine|ten|eleven|twelve|dozen|couple|several)\\b"

def reDate : String :=
  "\\b(?:19|20)\\d\x7b2\x7d\\b|\\b\\d\x7b1,2\x7d[/-]\\d\x7b1,2\x7d\\b|\\b(?:jan|feb|mar|apr|may|jun|jul|aug|sep|oct|nov|dec)[a-z]*\\b|\\b(?:mon|tue|wed|thu|fri|sat|sun)[a-z]*day\\b|\\b(?:yesterday|today|tomorrow|last (?:week|month|year)|next (?:week|month|year)|ago)\\b"

def reProperNoun : String := "\\b[A-Z][a-z]\x7b2,\x7d\\b"

def rePreferenceCue : String :=
  "\\b(?:prefer|prefers|preferred|favou?rite|i like|i love|i hate|i enjoy|can't stand|cannot stand|rather|i'd rather|instead of)\\b"

def reAckOnly : String :=
  "^\\W*(?:ok|okay|sure|thanks|thank you|got it|great|awesome|nice|cool|yeah|yep|yes|no problem|sounds good|will do|perfect|haha|lol|np|np!|同意)\\b"

def reStopword : String :=
  "^(?:the|a|an|and|or|but|of|to|in|on|at|for|with|is|are|was|were|be|been|do|does|did|i|you|he|she|it|we|they|my|your|his|her|its|our|their|me|him|them|this|that|these|those|what|when|where|who|which|how|why|did|had|have|has|can|could|would|should|will|about|from|as|by|so|if|than|then|there|here|any|some|all|most|more|much|many|last|first)$"

/-! ## What a question asks for -/

/-- `AnswerType`. -/
inductive AnswerType where
  | number
  | date
  | entity
  | preference
  | any
  deriving DecidableEq

/-- `for_shape`. -/
def AnswerType.forShape : QuestionShape → AnswerType
  | .counting | .countingCurrentState => .number
  | .temporal => .date
  | .factual | .factualCurrentState => .entity
  | .generalPreference => .preference
  | .generalRecall | .general => .any

/-- `AnswerabilityConfig`. -/
structure AnswerabilityConfig where
  enabled : Bool := false
  answerTypeWeight : ℚ := 12 / 100
  coverageWeight : ℚ := 10 / 100
  ackPenalty : ℚ := 15 / 100
  topicOnlyPenalty : ℚ := 8 / 100
  rankStep : ℚ := 3 / 100

/-- `AnswerabilityScore`. -/
structure AnswerabilityScore where
  coverage : ℚ
  hasAnswerType : Bool
  isAck : Bool
  topicOnly : Bool
  delta : ℚ
  deriving DecidableEq

section

variable (u : CharTables) (isMatch : String → String → Bool)

/-- `to_lowercase`. -/
def lowercase (text : String) : String := String.ofList (u.toLowercase text.toList)

/-- `present_in`. -/
def AnswerType.presentIn (content : String) : AnswerType → Bool
  | .number => isMatch reNumber (lowercase u content)
  | .date => isMatch reDate (lowercase u content)
  | .entity => isMatch reProperNoun content
  | .preference => isMatch rePreferenceCue (lowercase u content)
  | .any => true

/-- `content_words`. -/
def contentWords (query : String) : List String :=
  ((((u.toLowercase query.toList).splitOnP fun c => !u.isAlphanumeric c && decide (c ≠ '\x27')).map
    String.ofList).filter fun w => decide (2 < w.utf8ByteSize) && !isMatch reStopword w).dedup

/-- `score_hit`. -/
def scoreHit (content : String) (queryWords : List String) (answerType : AnswerType)
    (config : AnswerabilityConfig) : AnswerabilityScore :=
  let contentLower := lowercase u content
  let matched := queryWords.countP fun w => strContains contentLower w
  let coverage : ℚ := if queryWords = [] then 0 else matched / queryWords.length
  let hasAnswerType := answerType.presentIn u isMatch content
  let isAck := isMatch reAckOnly (String.ofList (trimMatches u.isWhitespace contentLower.toList))
  let topicOnly := !hasAnswerType && decide (0 < matched) && decide (answerType ≠ .any)
  { coverage, hasAnswerType, isAck, topicOnly
    delta := coverage * config.coverageWeight +
      (if hasAnswerType && decide (answerType ≠ .any) then config.answerTypeWeight else 0) -
        (if isAck then config.ackPenalty else 0) -
          if topicOnly then config.topicOnlyPenalty else 0 }

/-! ## The re-ranking -/

section

variable (config : AnswerabilityConfig) (query : String) (shape : QuestionShape)

/-- The score of a hit at its place. -/
def rankScore (p : MemoryHit × ℕ) : ℚ :=
  -config.rankStep * p.2 + (scoreHit u isMatch p.1.content (contentWords u isMatch query)
    (AnswerType.forShape shape) config).delta

/-- `scored`: the places, with the scores and the ids of the hits there. -/
def scored (hits : List MemoryHit) : List (ℕ × ℚ × String) :=
  hits.zipIdx.map fun p => (p.2, rankScore u isMatch config query shape p, p.1.id)

/-- The greater score first, then the lesser id. -/
def Before (a b : ℕ × ℚ × String) : Prop := b.2.1 < a.2.1 ∨ a.2.1 = b.2.1 ∧ a.2.2 ≤ b.2.2

instance : DecidableRel Before := fun _ _ => inferInstanceAs (Decidable (_ ∨ _ ∧ _))

/-- `order`: the places in their new order. -/
def rerankOrder (hits : List MemoryHit) : List ℕ :=
  if !config.enabled || decide (hits.length < 2) then List.range hits.length
  else ((scored u isMatch config query shape hits).insertionSort Before).map Prod.fst

/-- `rerank`. -/
def rerank (hits : List MemoryHit) : List MemoryHit :=
  if !config.enabled || decide (hits.length < 2) then hits
  else (((scored u isMatch config query shape hits).insertionSort Before).map Prod.fst).filterMap
    fun i => hits[i]?

end

end

/-! ## What the features come to -/

namespace AnswerabilityConfig

variable (config : AnswerabilityConfig)

/-- No weight is negative. -/
structure NonNegative : Prop where
  answerType : 0 ≤ config.answerTypeWeight
  coverage : 0 ≤ config.coverageWeight
  ack : 0 ≤ config.ackPenalty
  topicOnly : 0 ≤ config.topicOnlyPenalty

/-- The sum of the weights. -/
def spread : ℚ :=
  config.coverageWeight + config.answerTypeWeight + config.ackPenalty + config.topicOnlyPenalty

theorem NonNegative.spread_nonneg {config : AnswerabilityConfig} (h : config.NonNegative) : 0 ≤ config.spread := by
  unfold spread
  linarith [h.answerType, h.coverage, h.ack, h.topicOnly]

end AnswerabilityConfig

section

variable {u : CharTables} {isMatch : String → String → Bool} {config : AnswerabilityConfig}
  {query : String} {shape : QuestionShape} {hits : List MemoryHit}

theorem coverage_bounds (content : String) (queryWords : List String) (answerType : AnswerType) :
    0 ≤ (scoreHit u isMatch content queryWords answerType config).coverage ∧
      (scoreHit u isMatch content queryWords answerType config).coverage ≤ 1 := by
  show 0 ≤ (ite _ _ _ : ℚ) ∧ (ite _ _ _ : ℚ) ≤ 1
  split
  · exact ⟨le_rfl, zero_le_one⟩
  · refine ⟨by positivity, div_le_one_of_le₀ ?_ (by positivity)⟩
    exact_mod_cast List.countP_le_length

theorem weight_bounds {w : ℚ} (h : 0 ≤ w) (b : Bool) :
    0 ≤ (if b then w else 0) ∧ (if b then w else 0) ≤ w := by
  cases b with
  | true => exact ⟨h, le_rfl⟩
  | false => exact ⟨le_rfl, h⟩

/-- What a hit gains and loses by its content. -/
theorem delta_bounds (h : config.NonNegative) (content : String) (queryWords : List String)
    (answerType : AnswerType) :
    -(config.ackPenalty + config.topicOnlyPenalty) ≤
        (scoreHit u isMatch content queryWords answerType config).delta ∧
      (scoreHit u isMatch content queryWords answerType config).delta ≤
        config.coverageWeight + config.answerTypeWeight := by
  have hcoverage := @coverage_bounds u isMatch config content queryWords answerType
  have hgain := mul_nonneg hcoverage.1 h.coverage
  have hgain' := mul_le_mul_of_nonneg_right hcoverage.2 h.coverage
  have htype := weight_bounds h.answerType
    (answerType.presentIn u isMatch content && decide (answerType ≠ .any))
  have hack := weight_bounds h.ack (scoreHit u isMatch content queryWords answerType config).isAck
  have htopic := weight_bounds h.topicOnly
    (scoreHit u isMatch content queryWords answerType config).topicOnly
  have hdelta : (scoreHit u isMatch content queryWords answerType config).delta =
      (scoreHit u isMatch content queryWords answerType config).coverage * config.coverageWeight +
        (if answerType.presentIn u isMatch content && decide (answerType ≠ .any) then
          config.answerTypeWeight else 0) -
          (if (scoreHit u isMatch content queryWords answerType config).isAck then
            config.ackPenalty else 0) -
            if (scoreHit u isMatch content queryWords answerType config).topicOnly then
              config.topicOnlyPenalty else 0 := rfl
  rw [hdelta]
  exact ⟨by linarith [htype.1, hack.2, htopic.2], by linarith [htype.2, hack.1, htopic.1]⟩

/-- **The spread**: of two hits whose places are further apart than the weights can make up for, the
first scores more. -/
theorem rankScore_lt (h : config.NonNegative) {p q : MemoryHit × ℕ}
    (hfar : config.spread < ((q.2 : ℚ) - p.2) * config.rankStep) :
    rankScore u isMatch config query shape q < rankScore u isMatch config query shape p := by
  have hp := @delta_bounds u isMatch config h p.1.content (contentWords u isMatch query)
    (AnswerType.forShape shape)
  have hq := @delta_bounds u isMatch config h q.1.content (contentWords u isMatch query)
    (AnswerType.forShape shape)
  unfold AnswerabilityConfig.spread at hfar
  unfold rankScore
  linarith [hp.1, hq.2]

/-! ## The new order -/

theorem map_fst_scored (hits : List MemoryHit) :
    (scored u isMatch config query shape hits).map Prod.fst = List.range hits.length := by
  unfold scored
  rw [List.map_map]
  exact (List.zipIdx_map_snd 0 hits).trans List.range_eq_range'.symm

/-- The new order is one of the places. -/
theorem perm_rerankOrder (hits : List MemoryHit) :
    (rerankOrder u isMatch config query shape hits).Perm (List.range hits.length) := by
  unfold rerankOrder
  split
  · exact .rfl
  · rw [← map_fst_scored hits]
    exact (List.perm_insertionSort Before _).map Prod.fst

/-- The re-ranking reads the hits off in the new order. -/
theorem rerank_eq (hits : List MemoryHit) : rerank u isMatch config query shape hits =
    (rerankOrder u isMatch config query shape hits).filterMap fun i => hits[i]? := by
  unfold rerank rerankOrder
  split
  · exact (filterMap_range hits).symm
  · rfl

instance : Std.Total Before :=
  total_then (fun a : ℕ × ℚ × String => a.2.1) (total_key fun a : ℕ × ℚ × String => a.2.2)

instance : IsTrans (ℕ × ℚ × String) Before :=
  isTrans_then (fun a : ℕ × ℚ × String => a.2.1) (isTrans_key fun a : ℕ × ℚ × String => a.2.2)

/-- A place and what is scored there. -/
theorem mem_scored_iff {a : ℕ × ℚ × String} : a ∈ scored u isMatch config query shape hits ↔
    ∃ hit, hits[a.1]? = some hit ∧
      a = (a.1, rankScore u isMatch config query shape (hit, a.1), hit.id) := by
  unfold scored
  rw [List.mem_map]
  constructor
  · rintro ⟨p, hp, rfl⟩
    exact ⟨p.1, List.mem_zipIdx_iff_getElem?.1 hp, rfl⟩
  · rintro ⟨hit, hhit, heq⟩
    exact ⟨(hit, a.1), List.mem_zipIdx_iff_getElem?.2 hhit, heq.symm⟩

/-- Places far apart keep their order. -/
theorem idxOf_rerankOrder_lt (h : config.NonNegative) {i j : ℕ} (hlt : i < j) (hj : j < hits.length)
    (hfar : config.spread < ((j : ℚ) - i) * config.rankStep) :
    (rerankOrder u isMatch config query shape hits).idxOf i <
      (rerankOrder u isMatch config query shape hits).idxOf j := by
  have hmem : ∀ k < hits.length, k ∈ rerankOrder u isMatch config query shape hits := fun k hk =>
    (perm_rerankOrder hits).mem_iff.2 (List.mem_range.2 hk)
  by_cases hnoop : (!config.enabled || decide (hits.length < 2)) = true
  · unfold rerankOrder
    rw [if_pos hnoop, idxOf_range (hlt.trans hj), idxOf_range hj]
    exact hlt
  · have hsorted : (rerankOrder u isMatch config query shape hits).Pairwise fun i j =>
        ∀ hit hit', hits[i]? = some hit → hits[j]? = some hit' →
          rankScore u isMatch config query shape (hit', j) ≤
            rankScore u isMatch config query shape (hit, i) := by
      unfold rerankOrder
      rw [if_neg hnoop, List.pairwise_map]
      refine (List.pairwise_insertionSort Before _).imp_of_mem fun {a b} ha hb hab => ?_
      obtain ⟨hit, hget, hscore⟩ := mem_scored_iff.1 ((List.mem_insertionSort Before).1 ha)
      obtain ⟨hit', hget', hscore'⟩ := mem_scored_iff.1 ((List.mem_insertionSort Before).1 hb)
      intro hit₀ hit₁ hhit₀ hhit₁
      obtain rfl := Option.some.inj (hget.symm.trans hhit₀)
      obtain rfl := Option.some.inj (hget'.symm.trans hhit₁)
      have hle : b.2.1 ≤ a.2.1 := by
        rcases hab with hless | ⟨heq, -⟩
        · exact hless.le
        · exact heq.ge
      rw [hscore, hscore'] at hle
      exact hle
    refine idxOf_lt_idxOf_of_pairwise hsorted (hmem i (hlt.trans hj)) (hmem j hj) hlt.ne ?_
    intro hle
    have hscore := hle hits[j] hits[i] (List.getElem?_eq_getElem hj)
      (List.getElem?_eq_getElem (hlt.trans hj))
    exact absurd hscore (not_le.2 (rankScore_lt h hfar))

/-- The settings, as a retrieval has them. -/
def AnswerabilityConfig.plan (u : CharTables) (isMatch : String → String → Bool)
    (config : AnswerabilityConfig) : Spectral.AnswerabilityConfig where
  enabled := config.enabled
  score query shape place hit := rankScore u isMatch config query shape (hit, place)

/-- **The re-ranking of a retrieval** under these settings is this one. -/
theorem answerabilityRerank_eq (hits : List MemoryHit) :
    answerabilityRerank (config.plan u isMatch) query shape hits =
      rerank u isMatch config query shape hits := by
  unfold answerabilityRerank rerank
  refine if_congr Iff.rfl rfl ?_
  dsimp only [AnswerabilityConfig.plan]
  set sorted := hits.zipIdx.insertionSort fun a b : MemoryHit × ℕ =>
    rankScore u isMatch config query shape b < rankScore u isMatch config query shape a ∨
      rankScore u isMatch config query shape a = rankScore u isMatch config query shape b ∧
        a.1.id ≤ b.1.id with hsorted
  have hscored : (scored u isMatch config query shape hits).insertionSort Before =
      sorted.map fun p => (p.2, rankScore u isMatch config query shape p, p.1.id) :=
    (List.map_insertionSort _ Before _ hits.zipIdx fun _ _ _ _ => Iff.rfl).symm
  rw [hscored, List.map_map, List.filterMap_map]
  refine (List.filterMap_eq_map_iff_forall_eq_some.2 fun p hp => ?_).symm
  have hmem : p ∈ hits.zipIdx := (List.mem_insertionSort _).1 hp
  exact List.mem_zipIdx_iff_getElem?.1 hmem

/-- **A bounded permutation**: all hits, in an order of their places that keeps those in order that
are further apart than the weights reach, so that none moves further. -/
structure BoundedPermutation (config : AnswerabilityConfig) (hits result : List MemoryHit)
    (order : List ℕ) : Prop where
  perm : result.Perm hits
  places : order.Perm (List.range hits.length)
  read : result = order.filterMap fun i => hits[i]?
  keeps : ∀ i j, i < j → j < hits.length →
    config.spread < ((j : ℚ) - i) * config.rankStep → order.idxOf i < order.idxOf j
  moves : ∀ i < hits.length, |(order.idxOf i : ℚ) - i| * config.rankStep ≤ config.spread

/-- **Any hits, for any question.** -/
theorem rerank_bounded (u : CharTables) (isMatch : String → String → Bool)
    (config : AnswerabilityConfig) (h : config.NonNegative) (hstep : 0 < config.rankStep)
    (query : String) (shape : QuestionShape) (hits : List MemoryHit) :
    BoundedPermutation config hits (rerank u isMatch config query shape hits)
      (rerankOrder u isMatch config query shape hits) := by
  have hperm : (rerankOrder u isMatch config query shape hits).Perm (List.range hits.length) :=
    perm_rerankOrder hits
  have hkeeps := fun i j => @idxOf_rerankOrder_lt u isMatch config query shape hits h i j
  refine ⟨?_, hperm, rerank_eq hits, hkeeps,
    fun i hi => abs_sub_mul_le h.spread_nonneg hstep hperm hkeeps hi⟩
  rw [rerank_eq]
  have hread := hperm.filterMap fun i => hits[i]?
  rwa [filterMap_range] at hread

end

/-! ## A question for a number -/

/-- The patterns on what is matched below. -/
def plantMatch (pattern text : String) : Bool :=
  if pattern = reStopword then decide (text ∈ ["how", "many"])
  else if pattern = reAckOnly then decide (text = "sure")
  else if pattern = reNumber then decide (text = "i bought 3 plants")
  else false

/-- A hit of a turn. -/
def turnHit (id content : String) : MemoryHit :=
  memoryHitFromRow 1 { id, key := "turn:" ++ id, content, createdAt := "2026-03-01 09:00:00",
                       updatedAt := "2026-03-01 09:00:00" }

/-- An acknowledgement, the subject without a number, and the answer. -/
def plantHits : List MemoryHit :=
  [turnHit "0aa1" "Sure", turnHit "0bb2" "I like plants", turnHit "0cc3" "I bought 3 plants"]

/-- The answer comes first, and the acknowledgement last. -/
theorem rerank_plantHits :
    BoundedPermutation { enabled := true } plantHits
      (rerank .ascii plantMatch { enabled := true } "How many plants?" .counting plantHits)
      (rerankOrder .ascii plantMatch { enabled := true } "How many plants?" .counting plantHits) ∧
    rerankOrder .ascii plantMatch { enabled := true } "How many plants?" .counting plantHits =
      [2, 1, 0] :=
  ⟨rerank_bounded .ascii plantMatch { enabled := true }
    ⟨by decide +kernel, by decide +kernel, by decide +kernel, by decide +kernel⟩ (by decide +kernel)
    "How many plants?" .counting plantHits, by decide +kernel⟩

end Spectral.Answerability
