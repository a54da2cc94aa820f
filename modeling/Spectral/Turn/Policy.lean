import Spectral.Brain.Cascade

/-!
# The retrieval policy

A question is put into a shape by the patterns it matches, and the shape says how to retrieve.

* `QuestionShape.classifyWith` — the patterns, in the order they are tried.
* `QuestionShape.cascadeProfile`, `QuestionShape.retrievalRoute` — what a shape asks for.
* `classify_eq_temporal_iff` — the one shape that is not routed to the cascade.

The matching of a pattern is that of the `regex` crate: a parameter.
-/

namespace Spectral

/-! ## The patterns -/

def reTemporalCounting : String :=
  "how many (?:days|weeks|months|years) (?:ago|since|passed|before|after|between|had passed|have passed|did it take)|how old"

def reCounting : String := "how many|how much|total|in total|altogether"

def reCountingRecency : String :=
  "\\b(currently|right now|most recent|latest|newest|do i still|now)\\b"

def reWhere : String := "^where\\b"

def reWhereRecency : String :=
  "\\b(currently|right now|most recent|latest|newest|do i still|now|recent)\\b"

def reTemporal : String :=
  "when did|how long|(?:^|\\W)first\\b|(?:^|\\W)last\\b|before|after|ago|since|order.+(?:earliest|latest)|from earliest|chronological|(?:^|\\W)order of\\b"

def reFactual : String := "^(?:what|where|who|which)\\b"

def reFactualRecency : String :=
  "\\b(currently|right now|most recent|most recently|latest|newest|do i still|now)\\b"

def reGeneralPreference : String :=
  "\\b(suggest|recommend|tips?|advice|recommendations?|what should i)\\b"

def reGeneralPreferenceAny : String :=
  "\\bany (tips?|advice|suggestions?|ideas?|thoughts?|recommendations?)\\b"

def reCountingRecencyV2 : String :=
  "\\b(current|currently|right now|most recent|latest|newest|do i still|now)\\b"

def reWhereRecencyV2 : String :=
  "\\b(current|currently|right now|most recent|latest|newest|do i still|now|recent)\\b"

def reFactualRecencyV2 : String :=
  "\\b(current|currently|right now|most recent|most recently|latest|newest|do i still|now)\\b"

def reGeneralRecall : String :=
  "\\b(remind me|going back to|previous|earlier conversation|we (discussed|talked about)|can you remind me)\\b"

/-! ## Shapes -/

/-- `RetrievalRoute`. -/
inductive RetrievalRoute where
  | topkFts
  | tact
  | graph
  | cascade
  deriving DecidableEq

/-- `RetrievalPolicyVersion`. -/
inductive RetrievalPolicyVersion where
  | v1
  | v2Fixed
  deriving DecidableEq

/-- `QuestionShape`. -/
inductive QuestionShape where
  | counting
  | countingCurrentState
  | temporal
  | factual
  | factualCurrentState
  | generalPreference
  | generalRecall
  | general
  deriving DecidableEq

/-- `CascadePipelineConfig`, with the settings of it that a profile sets for the re-ranking. -/
structure CascadeProfile extends CascadePipelineConfig where
  maxPerEpisode : ℕ := 5
  recencyHalfLifeDays : ℚ := 365

namespace QuestionShape

section

variable (isMatch : String → String → Bool) (pf : Platform)

/-- `classify_with`. -/
def classifyWith (question : String) (version : RetrievalPolicyVersion) : QuestionShape :=
  let q := pf.toLowercase question
  -- the second version tries the preferences before anything else
  if version = .v2Fixed ∧ (isMatch reGeneralPreference q ∨ isMatch reGeneralPreferenceAny q) then
    .generalPreference
  else if isMatch reTemporalCounting q then .temporal
  else if isMatch reCounting q then
    let recency := if version = .v2Fixed then reCountingRecencyV2 else reCountingRecency
    if isMatch recency q then .countingCurrentState else .counting
  else if isMatch reWhere q then
    let recency := if version = .v2Fixed then reWhereRecencyV2 else reWhereRecency
    if isMatch recency q then .factualCurrentState else .factual
  else if isMatch reTemporal q then .temporal
  else if isMatch reFactual q then
    let recency := if version = .v2Fixed then reFactualRecencyV2 else reFactualRecency
    if isMatch recency q then .factualCurrentState else .factual
  else if isMatch reGeneralPreference q then .generalPreference
  else if isMatch reGeneralPreferenceAny q then .generalPreference
  else if isMatch reGeneralRecall q then .generalRecall
  else .general

/-- `classify`. -/
def classify (question : String) : QuestionShape := classifyWith isMatch pf question .v1

end

/-- `cascade_profile`. -/
def cascadeProfile : QuestionShape → CascadeProfile
  | .counting | .countingCurrentState =>
    { k := 60, maxPerEpisode := 3, recencyHalfLifeDays := 730 }
  | .temporal => { k := 40, maxPerEpisode := 5, recencyHalfLifeDays := 60 }
  | .factual | .factualCurrentState => { k := 30, maxPerEpisode := 8 }
  | .generalPreference | .generalRecall | .general => {}

/-- `retrieval_route`. -/
def retrievalRoute : QuestionShape → RetrievalRoute
  | .temporal => .topkFts
  | _ => .cascade

/-- Temporal is the only shape that is routed off the cascade. -/
theorem retrievalRoute_eq_cascade_iff {shape : QuestionShape} :
    shape.retrievalRoute = .cascade ↔ shape ≠ .temporal := by
  cases shape <;> simp [retrievalRoute]

/-- No profile spreads. -/
theorem spread_cascadeProfile (shape : QuestionShape) : shape.cascadeProfile.spread = {} := by
  cases shape <;> rfl

variable {isMatch : String → String → Bool} {pf : Platform}

/-- What the first version takes for a temporal question. -/
theorem classify_eq_temporal_iff {question : String} :
    classify isMatch pf question = .temporal ↔
      let q := pf.toLowercase question
      isMatch reTemporalCounting q = true ∨
        isMatch reCounting q = false ∧ isMatch reWhere q = false ∧ isMatch reTemporal q = true := by
  simp only [classify, classifyWith, reduceCtorEq, false_and, if_false]
  by_cases hcount : isMatch reTemporalCounting (pf.toLowercase question) = true
  · simp [hcount]
  · rw [if_neg hcount]
    split
    · split <;> simp_all
    · split
      · split <;> simp_all
      · split
        · simp_all
        · -- no pattern further down is for a temporal question
          repeat' split
          all_goals simp_all

end QuestionShape

end Spectral
