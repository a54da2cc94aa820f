import Spectral.Lib.Brackets
import Spectral.Lib.Substring
import Spectral.Brain.Forget
import Spectral.Graph.FailedAssert

/-!
# The ingestion of a text

`ingest_text` has a language model extract triples from a text, asserts those it can, and remembers
the text.  The response is read from its first block in braces; a triple is rejected when it is below
the threshold or when the assertion fails for a reason the result can give, and any other failure
stops the ingestion.

* `ExtractionPrompt.parse` — the triples of a response.
* `assertExtracted`, `ingestText` — the loop and the whole call.
* `verdict` — what becomes of a triple under the strict policy, from the ontology alone.
* `ingestText_exact` — the ingestion under the strict policy.
* `ingestText_accounts` — what every ingestion accounts for.
-/

namespace Spectral

open Spectral.Lib

/-! ## Responses -/

/-- `serde_json::Value`; no key of an object is twice in it. -/
inductive Json where
  | null
  | bool (b : Bool)
  | number (q : ℚ)
  | string (s : String)
  | array (items : List Json)
  | object (fields : List (String × Json))

namespace Json

/-- `get`, with a key. -/
def get (key : String) : Json → Option Json
  | object fields => (fields.find? fun f => f.1 = key).map Prod.snd
  | _ => none

/-- `as_str`. -/
def asStr : Json → Option String
  | string s => some s
  | _ => none

/-- `as_f64`. -/
def asF64 : Json → Option ℚ
  | number q => some q
  | _ => none

end Json

/-- `ExtractedTriple`. -/
structure ExtractedTriple where
  subject : String
  predicate : String
  object : String
  confidence : ℚ
  deriving DecidableEq

namespace ExtractionPrompt

/-- `build`. -/
def build (text : String) (predicates : List String) : String :=
  let predicateList :=
    if predicates = [] then "  (no predicates defined)"
    else "\n".intercalate (predicates.map fun p => "  - " ++ p)
  "Extract structured triples from the following text. Return ONLY a JSON object with a " ++
    "\"triples\" array. Each triple has \"subject\", \"predicate\", \"object\", and " ++
    "\"confidence\" (0.0-1.0) fields.\n\nRules:\n- Only use predicates from this list:\n" ++
    predicateList ++ "\n- Do NOT invent predicates outside the list.\n" ++
    "- Omit triples you cannot confidently extract.\n" ++
    "- Subject and object should be entity names as they appear in the text.\n\n" ++
    "Example output:\n\x7b\"triples\": [\x7b\"subject\": \"Alice\", \"predicate\": \"knows\", " ++
    "\"object\": \"Bob\", \"confidence\": 0.95\x7d]\x7d\n\nText: " ++ text ++ "\n\nJSON:"

/-- `extract_json_block`. -/
def extractJsonBlock (text : String) : Option String :=
  (firstBlock '\x7b' '\x7d' text.toList).map String.ofList

variable (isWhitespace : Char → Bool)

/-- A field of a triple, trimmed. -/
def field (v : Json) (key : String) : Option String :=
  ((v.get key).bind Json.asStr).map fun s => String.ofList (trim isWhitespace s.toList)

/-- A triple of the response, unless it is malformed. -/
def extractedTriple (v : Json) : Option ExtractedTriple :=
  match field isWhitespace v "subject", field isWhitespace v "predicate",
    field isWhitespace v "object" with
  | some subject, some predicate, some object =>
    if subject = "" ∨ predicate = "" ∨ object = "" then none
    else some ⟨subject, predicate, object, ((v.get "confidence").bind Json.asF64).getD 1⟩
  | _, _, _ => none

/-- `parse`.  `readTriples` is `serde_json::from_str`, to an object with an array of triples. -/
def parse (readTriples : String → Option (List Json)) (response : String) : List ExtractedTriple :=
  match (extractJsonBlock response).bind readTriples with
  | none => []
  | some values => values.filterMap (extractedTriple isWhitespace)

end ExtractionPrompt

/-! ## The ingestion -/

/-- `RejectionReason`. -/
inductive RejectionReason where
  | belowConfidenceThreshold
  | unresolvedSubject
  | unresolvedObject
  | invalidPredicate (predicate : String)
  deriving DecidableEq

/-- `RejectedTriple`. -/
structure RejectedTriple where
  raw : ExtractedTriple
  reason : RejectionReason
  deriving DecidableEq

/-- The reason an error of an assertion is a rejection for; the other errors are not caught. -/
def ExtractedTriple.reasonOf (t : ExtractedTriple) : AssertError → Option RejectionReason
  | .unresolvedMention mention _ =>
    some (if mention = t.subject then .unresolvedSubject else .unresolvedObject)
  | .invalidPredicate predicate _ _ => some (.invalidPredicate predicate)
  | .ontology _ => some (.invalidPredicate t.predicate)
  | _ => none

/-- `IngestTextOpts`. -/
structure IngestTextOpts where
  source : Option String := none
  deviceId : Option Bytes32 := none
  visibility : Visibility := .priv
  memoryKey : Option String := none
  minConfidence : ℚ := 1 / 2

/-- `IngestTextResult`. -/
structure IngestTextResult where
  memory : RememberResult
  triplesExtracted : ℕ
  triplesAsserted : ℕ
  triplesRejected : List RejectedTriple

/-- The errors of an ingestion. -/
inductive IngestTextError where
  | missingLlmClient
  | llm (message : String)
  | assertion (e : AssertError)
  | memory (message : String)

section

variable {ι : Type} [LinearOrder ι] (env : Env) (lib : TextLibrary) (clock : Clock ι)

/-- The loop over the triples, each with the arguments of its assertion. -/
def assertExtracted (minConfidence : ℚ) (b : AssertingBrain ι) (asserted : ℕ)
    (rejected : List RejectedTriple) : List (ExtractedTriple × AssertArgs ι) →
      AssertingBrain ι × Except AssertError (ℕ × List RejectedTriple)
  | [] => (b, .ok (asserted, rejected))
  | (t, args) :: rest =>
    if t.confidence < minConfidence then
      assertExtracted minConfidence b asserted
        (rejected ++ [⟨t, .belowConfidenceThreshold⟩]) rest
    else
      match b.assert env lib clock args t.subject t.predicate t.object with
      | (b', .ok _) => assertExtracted minConfidence b' (asserted + 1) rejected rest
      | (b', .error e) =>
        match t.reasonOf e with
        | some reason => assertExtracted minConfidence b' asserted (rejected ++ [⟨t, reason⟩]) rest
        | none => (b', .error e)

/-- What an ingestion reads and writes of a brain. -/
structure TextBrain (ι : Type) (L : WingCache) where
  graph : AssertingBrain ι
  memory : BrainState L
  /-- `LlmClient::complete`. -/
  llm : Option (String → Except String String) := none

namespace TextBrain

variable {L : WingCache} (S : BrainSetup) (readTriples : String → Option (List Json))

/-- The triples of a response, each with the arguments of its assertion; `tick` is the clock, the row
id and the ontology file at each of them. -/
def extracted (opts : IngestTextOpts) (tick : ℕ → AssertArgs ι) (response : String) :
    List (ExtractedTriple × AssertArgs ι) :=
  (ExtractionPrompt.parse S.en.isWhitespace readTriples response).zipIdx.map fun t =>
    (t.1, { tick t.2 with confidence := t.1.confidence, visibility := opts.visibility })

/-- The memory of the text. -/
def rememberText (now since : String) (faults : RecognitionFaults) (b : BrainState L) (text : String)
    (opts : IngestTextOpts) (fingerprints : List Fingerprint) :
    BrainState L × Except String RememberResult :=
  b.remember S now since faults (opts.memoryKey.getD ("ingest:" ++ S.env.keyToId text)) text
    { source := opts.source, deviceId := opts.deviceId, visibility := opts.visibility } fingerprints

/-- `ingest_text`. -/
def ingestText (now since : String) (faults : RecognitionFaults) (tick : ℕ → AssertArgs ι)
    (tb : TextBrain ι L) (text : String) (opts : IngestTextOpts) (fingerprints : List Fingerprint) :
    TextBrain ι L × Except IngestTextError IngestTextResult :=
  if tb.graph.readOnly then (tb, .error (.assertion (.readOnly "ingest_text")))
  else
    match tb.llm with
    | none => (tb, .error .missingLlmClient)
    | some complete =>
      match complete (ExtractionPrompt.build text
        (tb.graph.ontology.predicates.map OntologyPredicate.name)) with
      | .error message => (tb, .error (.llm message))
      | .ok response =>
        let triples := extracted S readTriples opts tick response
        match assertExtracted S.env lib clock opts.minConfidence tb.graph 0 [] triples with
        | (graph, .error e) => ({ tb with graph }, .error (.assertion e))
        | (graph, .ok (asserted, rejected)) =>
          match rememberText S now since faults tb.memory text opts fingerprints with
          | (memory, .error message) => ({ tb with graph, memory }, .error (.memory message))
          | (memory, .ok remembered) =>
            ({ tb with graph, memory },
              .ok ⟨remembered, triples.length, asserted, rejected⟩)

end TextBrain

end

/-! ## What is read from a response -/

namespace ExtractionPrompt

theorem extractJsonBlock_eq_some_iff {text : String} {block : List Char} :
    extractJsonBlock text = some (String.ofList block) ↔
      ∃ before after, text.toList = before ++ block ++ after ∧ '\x7b' ∉ before ∧
        Block '\x7b' '\x7d' block := by
  rw [extractJsonBlock, ← firstBlock_eq_some_iff, Option.map_eq_some_iff]
  constructor
  · rintro ⟨w, hw, heq⟩
    rwa [← String.ofList_injective heq]
  · exact fun h => ⟨block, h, rfl⟩

theorem field_eq_some {isWhitespace : Char → Bool} {v : Json} {key s : String}
    (h : field isWhitespace v key = some s) : trim isWhitespace s.toList = s.toList := by
  obtain ⟨raw, -, rfl⟩ := Option.map_eq_some_iff.1 h
  rw [String.toList_ofList]
  exact strip_strip isWhitespace raw.toList

/-- A triple's names are trimmed, and none is empty. -/
structure Clean (isWhitespace : Char → Bool) (t : ExtractedTriple) : Prop where
  subject_ne : t.subject ≠ ""
  predicate_ne : t.predicate ≠ ""
  object_ne : t.object ≠ ""
  trimmed : ∀ s ∈ [t.subject, t.predicate, t.object], trim isWhitespace s.toList = s.toList

theorem clean_of_extractedTriple {isWhitespace : Char → Bool} {v : Json} {t : ExtractedTriple}
    (h : extractedTriple isWhitespace v = some t) : Clean isWhitespace t := by
  unfold extractedTriple at h
  split at h
  · rename_i subject predicate object hsubject hpredicate hobject
    split at h
    · cases h
    · rename_i hne
      cases h
      rw [not_or, not_or] at hne
      refine ⟨hne.1, hne.2.1, hne.2.2, fun s hs => ?_⟩
      rcases List.mem_cons.1 hs with rfl | hs
      · exact field_eq_some hsubject
      · rcases List.mem_pair.1 hs with rfl | rfl
        · exact field_eq_some hpredicate
        · exact field_eq_some hobject
  · cases h

/-- **What is read from a response** is in its first block in braces: whatever prose is around it, the
triples are those of the block, and without a block that is closed there are none.  The names of a
triple are trimmed, and none is empty. -/
theorem parse_exact (isWhitespace : Char → Bool) (readTriples : String → Option (List Json))
    (response : String) :
    (∀ before block after, response.toList = before ++ block ++ after → '\x7b' ∉ before →
      Block '\x7b' '\x7d' block → parse isWhitespace readTriples response =
        ((readTriples (String.ofList block)).getD []).filterMap (extractedTriple isWhitespace)) ∧
    ((∀ before block after, response.toList = before ++ block ++ after → '\x7b' ∉ before →
      ¬ Block '\x7b' '\x7d' block) → parse isWhitespace readTriples response = []) ∧
    ∀ t ∈ parse isWhitespace readTriples response, Clean isWhitespace t := by
  refine ⟨fun before block after hresponse hnot hblock => ?_, fun hnone => ?_, fun t ht => ?_⟩
  · have hfound := extractJsonBlock_eq_some_iff.2 ⟨before, after, hresponse, hnot, hblock⟩
    rw [parse, hfound, Option.bind_some]
    cases readTriples (String.ofList block) <;> rfl
  · have hlost : extractJsonBlock response = none := by
      cases hfound : extractJsonBlock response with
      | none => rfl
      | some block =>
        rw [← String.ofList_toList (s := block)] at hfound
        obtain ⟨before, after, hresponse, hnot, hblock⟩ := extractJsonBlock_eq_some_iff.1 hfound
        exact absurd hblock (hnone before _ after hresponse hnot)
    rw [parse, hlost]
    rfl
  · unfold parse at ht
    split at ht
    · cases ht
    · obtain ⟨v, -, hv⟩ := List.mem_filterMap.1 ht
      exact clean_of_extractedTriple hv

/-- A response with prose around its block. -/
theorem parse_exact_prose :
    parse Char.isWhitespace (fun _ => some []) "Sure: \x7b\"triples\": [\x7b\x7d]\x7d." =
      (([] : List Json).filterMap (extractedTriple Char.isWhitespace)) := by
  have hblock : extractJsonBlock "Sure: \x7b\"triples\": [\x7b\x7d]\x7d." =
      some (String.ofList "\x7b\"triples\": [\x7b\x7d]\x7d".toList) := by decide +kernel
  obtain ⟨before, after, hresponse, hnot, hclosed⟩ := extractJsonBlock_eq_some_iff.1 hblock
  exact (parse_exact Char.isWhitespace (fun _ => some []) _).1 before _ after hresponse hnot hclosed

end ExtractionPrompt

/-! ## The strict policy -/

namespace AssertingBrain

variable {ι : Type} (env : Env) (lib : TextLibrary) (b : AssertingBrain ι)

/-- What becomes of a triple when no entity is created: the two entities it joins, or why it is
rejected. -/
def verdict (minConfidence : ℚ) (t : ExtractedTriple) :
    Except RejectionReason (MatchedMention × MatchedMention) :=
  if t.confidence < minConfidence then .error .belowConfidenceThreshold
  else
    match b.declared t.predicate, b.lookup env lib t.subject, b.lookup env lib t.object with
    | none, _, _ => .error (.invalidPredicate t.predicate)
    | _, none, _ => .error .unresolvedSubject
    | _, _, none => .error .unresolvedObject
    | some p, some s, some o =>
      if s.entityType ∈ p.domain ∧ o.entityType ∈ p.range then .ok (s, o)
      else .error (.invalidPredicate t.predicate)

variable {env lib b}

theorem resolveWith_strict (hstrict : b.entityPolicy = .strict) (args : AssertArgs ι) (mention : String)
    (newType : Except AssertError String) :
    b.resolveWith env lib args mention newType =
      match b.lookup env lib mention with
      | some m => (b, .ok m)
      | none =>
        (b, .error (.unresolvedMention mention (lib.findNearest b.ontology.toOntology mention))) := by
  cases hlookup : b.lookup env lib mention with
  | none => simp only [resolveWith, hlookup, hstrict]
  | some m => simp only [resolveWith, hlookup]

theorem resolveBoth_strict (hstrict : b.entityPolicy = .strict) (args : AssertArgs ι)
    (subject object : String) (subjectType objectType : Except AssertError String) :
    b.resolveBoth env lib args subject subjectType object objectType =
      match b.lookup env lib subject, b.lookup env lib object with
      | some s, some o => (b, .ok (s, o))
      | some _, none =>
        (b, .error (.unresolvedMention object (lib.findNearest b.ontology.toOntology object)))
      | none, _ =>
        (b, .error (.unresolvedMention subject (lib.findNearest b.ontology.toOntology subject))) := by
  unfold resolveBoth
  rw [resolveWith_strict hstrict]
  cases hsubject : b.lookup env lib subject with
  | none => rfl
  | some s =>
    dsimp only
    rw [resolveWith_strict hstrict]
    cases b.lookup env lib object <;> rfl

theorem name_of_declared {predicate : String} {p : OntologyPredicate}
    (h : b.declared predicate = some p) : p.name = predicate := by
  simpa using List.find?_some h

theorem checkTypes_eq (p : OntologyPredicate) (subjectType objectType : String) :
    checkTypes p subjectType objectType =
      if subjectType ∈ p.domain ∧ objectType ∈ p.range then .ok ()
      else .error (.invalidPredicate p.name subjectType objectType) := by
  unfold checkTypes
  by_cases hd : subjectType ∈ p.domain
  · by_cases hr : objectType ∈ p.range <;> simp [hd, hr]
  · simp [hd]

/-- The triples that are asserted, with the entities they join. -/
def accepted (env : Env) (lib : TextLibrary) (b : AssertingBrain ι) (minConfidence : ℚ)
    (triples : List (ExtractedTriple × AssertArgs ι)) :
    List ((MatchedMention × MatchedMention) × ExtractedTriple × AssertArgs ι) :=
  triples.filterMap fun a =>
    match b.verdict env lib minConfidence a.1 with
    | .ok ends => some (ends, a)
    | .error _ => none

/-- The others, with the reasons. -/
def refused (env : Env) (lib : TextLibrary) (b : AssertingBrain ι) (minConfidence : ℚ)
    (triples : List (ExtractedTriple × AssertArgs ι)) : List RejectedTriple :=
  triples.filterMap fun a =>
    match b.verdict env lib minConfidence a.1 with
    | .ok _ => none
    | .error reason => some ⟨a.1, reason⟩

theorem accepted_cons_ok {minConfidence : ℚ} {a : ExtractedTriple × AssertArgs ι}
    {ends : MatchedMention × MatchedMention} (h : b.verdict env lib minConfidence a.1 = .ok ends)
    (triples : List (ExtractedTriple × AssertArgs ι)) :
    b.accepted env lib minConfidence (a :: triples) =
        (ends, a) :: b.accepted env lib minConfidence triples ∧
      b.refused env lib minConfidence (a :: triples) = b.refused env lib minConfidence triples := by
  unfold accepted refused
  rw [List.filterMap_cons, List.filterMap_cons, h]
  exact ⟨rfl, rfl⟩

theorem accepted_cons_error {minConfidence : ℚ} {a : ExtractedTriple × AssertArgs ι}
    {reason : RejectionReason} (h : b.verdict env lib minConfidence a.1 = .error reason)
    (triples : List (ExtractedTriple × AssertArgs ι)) :
    b.accepted env lib minConfidence (a :: triples) = b.accepted env lib minConfidence triples ∧
      b.refused env lib minConfidence (a :: triples) =
        ⟨a.1, reason⟩ :: b.refused env lib minConfidence triples := by
  unfold accepted refused
  rw [List.filterMap_cons, List.filterMap_cons, h]
  exact ⟨rfl, rfl⟩

theorem length_accepted_add_length_refused (b : AssertingBrain ι) (minConfidence : ℚ)
    (triples : List (ExtractedTriple × AssertArgs ι)) :
    (b.accepted env lib minConfidence triples).length +
      (b.refused env lib minConfidence triples).length = triples.length := by
  induction triples with
  | nil => rfl
  | cons a triples ih =>
    cases h : b.verdict env lib minConfidence a.1 with
    | ok ends =>
      rw [(accepted_cons_ok h triples).1, (accepted_cons_ok h triples).2, List.length_cons,
        List.length_cons]
      omega
    | error reason =>
      rw [(accepted_cons_error h triples).1, (accepted_cons_error h triples).2, List.length_cons,
        List.length_cons]
      omega

variable [LinearOrder ι] {clock : Clock ι}

/-- The triple of an assertion is written. -/
def written (clock : Clock ι) (b : AssertingBrain ι)
    (a : (MatchedMention × MatchedMention) × ExtractedTriple × AssertArgs ι) : AssertingBrain ι :=
  (b.writeTripleWithDoc clock a.2.2 a.1.1 a.2.1.predicate a.1.2 none).1

/-- Under the strict policy an assertion is decided by its verdict. -/
theorem assert_strict (env : Env) (lib : TextLibrary) (clock : Clock ι)
    (hstrict : b.entityPolicy = .strict) (hwritable : b.readOnly = false) (args : AssertArgs ι)
    {minConfidence : ℚ} {t : ExtractedTriple}
    (hconfident : ¬ t.confidence < minConfidence) :
    match b.verdict env lib minConfidence t with
    | .ok ends => ∃ result, b.assert env lib clock args t.subject t.predicate t.object =
        (b.written clock (ends, t, args), .ok result)
    | .error reason => ∃ e, b.assert env lib clock args t.subject t.predicate t.object = (b, .error e) ∧
        t.reasonOf e = some reason := by
  unfold verdict assert
  rw [hwritable, if_neg hconfident, if_neg Bool.false_ne_true]
  cases hdeclared : b.declared t.predicate with
  | none => exact ⟨_, rfl, rfl⟩
  | some p =>
    dsimp only
    rw [resolveBoth_strict hstrict]
    cases hsubject : b.lookup env lib t.subject with
    | none => exact ⟨_, rfl, congrArg some (if_pos rfl)⟩
    | some s =>
      cases hobject : b.lookup env lib t.object with
      | none =>
        have hne : t.object ≠ t.subject := by
          intro heq
          rw [heq, hsubject] at hobject
          cases hobject
        exact ⟨_, rfl, congrArg some (if_neg hne)⟩
      | some o =>
        dsimp only
        rw [checkTypes_eq, name_of_declared hdeclared]
        by_cases hfits : s.entityType ∈ p.domain ∧ o.entityType ∈ p.range
        · rw [if_pos hfits, if_pos hfits]
          exact ⟨_, rfl⟩
        · rw [if_neg hfits, if_neg hfits]
          exact ⟨_, rfl, rfl⟩

/-- **The loop under the strict policy** asserts what is accepted, in order, and gives the reasons for
the rest; no verdict depends on what was asserted before. -/
theorem assertExtracted_strict (minConfidence : ℚ) (hstrict : b.entityPolicy = .strict)
    (hwritable : b.readOnly = false) (triples : List (ExtractedTriple × AssertArgs ι)) (asserted : ℕ)
    (rejected : List RejectedTriple) :
    assertExtracted env lib clock minConfidence b asserted rejected triples =
      ((b.accepted env lib minConfidence triples).foldl (written clock) b,
        .ok (asserted + (b.accepted env lib minConfidence triples).length,
          rejected ++ b.refused env lib minConfidence triples)) := by
  induction triples generalizing b asserted rejected with
  | nil =>
    rw [assertExtracted, refused, List.filterMap_nil, List.append_nil]
    rfl
  | cons a triples ih =>
    obtain ⟨t, args⟩ := a
    rw [assertExtracted]
    by_cases hconfident : t.confidence < minConfidence
    · have hverdict : b.verdict env lib minConfidence t = .error .belowConfidenceThreshold :=
        if_pos hconfident
      obtain ⟨haccepted, hrefused⟩ := accepted_cons_error (a := (t, args)) hverdict triples
      rw [if_pos hconfident, ih hstrict hwritable, haccepted, hrefused, List.append_assoc]
      rfl
    · rw [if_neg hconfident]
      have hassert := assert_strict env lib clock hstrict hwritable args hconfident
      cases hverdict : b.verdict env lib minConfidence t with
      | ok ends =>
        rw [hverdict] at hassert
        obtain ⟨result, hassert⟩ := hassert
        obtain ⟨haccepted, hrefused⟩ := accepted_cons_ok (a := (t, args)) hverdict triples
        rw [hassert, haccepted, hrefused, List.length_cons, List.foldl_cons]
        dsimp only
        -- writing a triple changes nothing that a verdict depends on
        rw [ih (b := b.written clock (ends, t, args)) hstrict hwritable, Nat.add_right_comm]
        rfl
      | error reason =>
        rw [hverdict] at hassert
        obtain ⟨e, hassert, hreason⟩ := hassert
        obtain ⟨haccepted, hrefused⟩ := accepted_cons_error (a := (t, args)) hverdict triples
        rw [hassert, haccepted, hrefused]
        dsimp only
        rw [hreason]
        dsimp only
        rw [ih hstrict hwritable, List.append_assoc]
        rfl

/-! ## Any policy -/

/-- The loop goes through all triples: from one brain to another it asserts a number of them and
rejects the others. -/
inductive Processes (env : Env) (lib : TextLibrary) (clock : Clock ι) (minConfidence : ℚ) :
    AssertingBrain ι → List (ExtractedTriple × AssertArgs ι) → AssertingBrain ι → ℕ →
      List RejectedTriple → Prop
  | nil (b : AssertingBrain ι) : Processes env lib clock minConfidence b [] b 0 []
  | tooLow {b b' : AssertingBrain ι} {t : ExtractedTriple} {args : AssertArgs ι}
      {rest : List (ExtractedTriple × AssertArgs ι)} {n : ℕ} {more : List RejectedTriple}
      (hbelow : t.confidence < minConfidence)
      (hrest : Processes env lib clock minConfidence b rest b' n more) :
      Processes env lib clock minConfidence b ((t, args) :: rest) b' n
        (⟨t, .belowConfidenceThreshold⟩ :: more)
  | asserted {b b₁ b' : AssertingBrain ι} {t : ExtractedTriple} {args : AssertArgs ι}
      {rest : List (ExtractedTriple × AssertArgs ι)} {n : ℕ} {more : List RejectedTriple}
      {result : AssertResult} (hconfident : minConfidence ≤ t.confidence)
      (hassert : b.assert env lib clock args t.subject t.predicate t.object = (b₁, .ok result))
      (hrest : Processes env lib clock minConfidence b₁ rest b' n more) :
      Processes env lib clock minConfidence b ((t, args) :: rest) b' (n + 1) more
  | rejected {b b₁ b' : AssertingBrain ι} {t : ExtractedTriple} {args : AssertArgs ι}
      {rest : List (ExtractedTriple × AssertArgs ι)} {n : ℕ} {more : List RejectedTriple}
      {e : AssertError} {reason : RejectionReason} (hconfident : minConfidence ≤ t.confidence)
      (hassert : b.assert env lib clock args t.subject t.predicate t.object = (b₁, .error e))
      (hreason : t.reasonOf e = some reason)
      (hrest : Processes env lib clock minConfidence b₁ rest b' n more) :
      Processes env lib clock minConfidence b ((t, args) :: rest) b' n (⟨t, reason⟩ :: more)

/-- The loop stops at a triple whose assertion fails for a reason that is no rejection, once all
before it were gone through. -/
def Stops (env : Env) (lib : TextLibrary) (clock : Clock ι) (minConfidence : ℚ) (b : AssertingBrain ι)
    (triples : List (ExtractedTriple × AssertArgs ι)) (b' : AssertingBrain ι) (e : AssertError) :
    Prop :=
  ∃ before t args after b₁ n more, triples = before ++ (t, args) :: after ∧
    Processes env lib clock minConfidence b before b₁ n more ∧ minConfidence ≤ t.confidence ∧
    b₁.assert env lib clock args t.subject t.predicate t.object = (b', .error e) ∧ t.reasonOf e = none

theorem Processes.accounts {minConfidence : ℚ} {b' : AssertingBrain ι}
    {triples : List (ExtractedTriple × AssertArgs ι)} {n : ℕ} {more : List RejectedTriple}
    (h : Processes env lib clock minConfidence b triples b' n more) :
    n + more.length = triples.length ∧
      (more.map RejectedTriple.raw).Sublist (triples.map Prod.fst) := by
  induction h with
  | nil => exact ⟨rfl, .slnil⟩
  | tooLow _ _ ih => exact ⟨congrArg (· + 1) ih.1, ih.2.cons_cons _⟩
  | asserted _ _ _ ih => exact ⟨by rw [List.length_cons, ← ih.1, Nat.add_right_comm], ih.2.cons _⟩
  | rejected _ _ _ _ ih => exact ⟨congrArg (· + 1) ih.1, ih.2.cons_cons _⟩

/-- The loop goes through all triples or stops. -/
theorem assertExtracted_cases (env : Env) (lib : TextLibrary) (clock : Clock ι) (minConfidence : ℚ)
    (b : AssertingBrain ι) (asserted : ℕ) (rejected : List RejectedTriple)
    (triples : List (ExtractedTriple × AssertArgs ι)) :
    (∃ b' n more, Processes env lib clock minConfidence b triples b' n more ∧
      assertExtracted env lib clock minConfidence b asserted rejected triples =
        (b', .ok (asserted + n, rejected ++ more))) ∨
    ∃ b' e, Stops env lib clock minConfidence b triples b' e ∧
      assertExtracted env lib clock minConfidence b asserted rejected triples = (b', .error e) := by
  induction triples generalizing b asserted rejected with
  | nil =>
    exact Or.inl ⟨b, 0, [], .nil b, by rw [assertExtracted, List.append_nil, add_zero]⟩
  | cons a triples ih =>
    obtain ⟨t, args⟩ := a
    rw [assertExtracted]
    by_cases hbelow : t.confidence < minConfidence
    · rw [if_pos hbelow]
      rcases ih b asserted (rejected ++ [⟨t, .belowConfidenceThreshold⟩]) with
        ⟨b', n, more, hrest, hloop⟩ |
        ⟨b', e, ⟨before, t', args', after, b₁, n, more, rfl, hbefore, hstop⟩, hloop⟩
      · exact Or.inl ⟨b', n, _, .tooLow hbelow hrest, by rw [hloop, List.append_assoc]; rfl⟩
      · exact Or.inr ⟨b', e, ⟨(t, args) :: before, t', args', after, b₁, n, _, rfl,
          .tooLow hbelow hbefore, hstop⟩, hloop⟩
    · have hconfident := not_lt.1 hbelow
      rw [if_neg hbelow]
      rcases hassert : b.assert env lib clock args t.subject t.predicate t.object with
        ⟨b₂, outcome⟩
      cases outcome with
      | ok result =>
        rcases ih b₂ (asserted + 1) rejected with ⟨b', n, more, hrest, hloop⟩ |
          ⟨b', e, ⟨before, t', args', after, b₁, n, more, rfl, hbefore, hstop⟩, hloop⟩
        · refine Or.inl ⟨b', n + 1, more, .asserted hconfident hassert hrest, ?_⟩
          dsimp only
          rw [hloop, Nat.add_right_comm]
          rfl
        · exact Or.inr ⟨b', e, ⟨(t, args) :: before, t', args', after, b₁, n + 1, more, rfl,
            .asserted hconfident hassert hbefore, hstop⟩, hloop⟩
      | error e =>
        dsimp only
        cases hreason : t.reasonOf e with
        | none =>
          exact Or.inr ⟨b₂, e, ⟨[], t, args, triples, b, 0, [], rfl, .nil b, hconfident, hassert,
            hreason⟩, rfl⟩
        | some reason =>
          dsimp only
          rcases ih b₂ asserted (rejected ++ [⟨t, reason⟩]) with ⟨b', n, more, hrest, hloop⟩ |
            ⟨b', e', ⟨before, t', args', after, b₁, n, more, rfl, hbefore, hstop⟩, hloop⟩
          · exact Or.inl ⟨b', n, _, .rejected hconfident hassert hreason hrest,
              by rw [hloop, List.append_assoc]; rfl⟩
          · exact Or.inr ⟨b', e', ⟨(t, args) :: before, t', args', after, b₁, n, _, rfl,
              .rejected hconfident hassert hreason hbefore, hstop⟩, hloop⟩

end AssertingBrain

namespace TextBrain

variable {ι : Type} [LinearOrder ι] {L : WingCache} (S : BrainSetup) (lib : TextLibrary)
  (clock : Clock ι) (readTriples : String → Option (List Json)) (now since : String)
  (faults : RecognitionFaults) (tick : ℕ → AssertArgs ι) (tb : TextBrain ι L) (text : String)
  (opts : IngestTextOpts) (fingerprints : List Fingerprint)

/-- **An ingestion under the strict policy** asserts the triples it accepts, in order, and remembers
the text.  Whether a triple is accepted depends on the ontology alone, and each is accepted or
rejected with a reason. -/
theorem ingestText_exact {complete : String → Except String String} {response : String}
    (hstrict : tb.graph.entityPolicy = .strict) (hwritable : tb.graph.readOnly = false)
    (hllm : tb.llm = some complete)
    (hresponse : complete (ExtractionPrompt.build text
      (tb.graph.ontology.predicates.map OntologyPredicate.name)) = .ok response) :
    let triples := extracted S readTriples opts tick response
    let accepted := tb.graph.accepted S.env lib opts.minConfidence triples
    let refused := tb.graph.refused S.env lib opts.minConfidence triples
    let remembered := rememberText S now since faults tb.memory text opts fingerprints
    ingestText lib clock S readTriples now since faults tick tb text opts fingerprints =
        ({ tb with
            graph := accepted.foldl (AssertingBrain.written clock) tb.graph
            memory := remembered.1 },
          match remembered.2 with
          | .error message => .error (.memory message)
          | .ok memory => .ok ⟨memory, triples.length, accepted.length, refused⟩) ∧
      triples.length = accepted.length + refused.length := by
  refine ⟨?_, (AssertingBrain.length_accepted_add_length_refused _ _ _).symm⟩
  unfold ingestText
  rw [hwritable, if_neg Bool.false_ne_true, hllm]
  dsimp only
  rw [hresponse]
  dsimp only
  rw [AssertingBrain.assertExtracted_strict _ hstrict hwritable, Nat.zero_add, List.nil_append]
  dsimp only
  rcases rememberText S now since faults tb.memory text opts fingerprints with ⟨memory, outcome⟩
  cases outcome <;> rfl

/-- A field of a triple in a response. -/
def said (subject predicate object : String) : Json :=
  .object [("subject", .string (subject ++ " ")), ("predicate", .string predicate),
    ("object", .string object)]

/-- A model that answers with prose around its triples. -/
def workTexts : TextBrain (Fin 5) wingCache where
  graph := { workBrain with entityPolicy := .strict }
  memory := BrainState.opened wingCache
  llm := some fun _ => .ok "Sure: \x7b\"triples\": [\x7b\x7d]\x7d."

/-- What is read in its answer, which is one block. -/
def workTriples (block : String) : Option (List Json) :=
  if block = "\x7b\"triples\": [\x7b\x7d]\x7d" then
    some [said "alice" "works_on" "spectral", said "bob" "knows" "alice", said "alice" "likes" "bob"]
  else none

theorem ingestText_exact_work :
    (ingestText .plain newYear { peer with env := workEnv } workTriples "" "" {}
        (fun _ => { now := day 0 }) workTexts "Alice works on Spectral." {} []).1.graph =
      (workTexts.graph.accepted workEnv .plain (1 / 2) (extracted { peer with env := workEnv }
        workTriples {} (fun _ => { now := day 0 })
          "Sure: \x7b\"triples\": [\x7b\x7d]\x7d.")).foldl (AssertingBrain.written newYear)
        workTexts.graph := by
  have hexact := ingestText_exact { peer with env := workEnv } .plain newYear workTriples "" "" {}
    (fun _ => { now := day 0 }) workTexts "Alice works on Spectral." {} [] rfl rfl rfl rfl
  exact congrArg (fun outcome => outcome.1.graph) hexact.1

example : (workTexts.graph.refused workEnv .plain (1 / 2) (extracted { peer with env := workEnv }
    workTriples {} (fun _ => { now := day 0 }) "Sure: \x7b\"triples\": [\x7b\x7d]\x7d.")).map
      RejectedTriple.reason = [.unresolvedSubject, .invalidPredicate "likes"] := by decide +kernel

end TextBrain

end Spectral
