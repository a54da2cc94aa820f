import Spectral.Graph.Store

/-!
# From a text to entities

`canonicalize` finds the entities of the ontology that a text mentions: exact matches of runs of
words first, the longest first, then words that are close to an alias.

* `extractWords` — the words of a text, by where they start and end.
* `exactPhase`, `fuzzyPhase` — the two phases; a word belongs to one mention at most.

A text is a list of characters, and a span counts characters.  Spans and near misses are reported
by the code as well; nothing here reads them.
-/

namespace Spectral

open Spectral.Lib

/-- The functions on text the canonicalizer calls. -/
structure TextLibrary where
  /-- `str::to_lowercase`. -/
  toLowercase : String → String
  /-- `char::is_alphanumeric`. -/
  isAlphanumeric : Char → Bool
  /-- `char::is_whitespace`. -/
  isWhitespace : Char → Bool
  /-- `strsim::normalized_damerau_levenshtein`. -/
  normalizedDamerauLevenshtein : String → String → ℚ

/-- `OntologyEntity`. -/
structure OntologyEntity where
  entityType : String
  canonical : String
  aliases : List String := []
  /-- The default visibility of the entity. -/
  visibility : Visibility
  deriving DecidableEq

/-- `Ontology`, of which only the entities matter to a recall: what `validate` checks of them. -/
structure Ontology where
  entities : List OntologyEntity
  named : ∀ e ∈ entities, e.entityType ≠ "" ∧ e.canonical ≠ ""
  canonicalsPerType : (entities.map fun e => (e.entityType, e.canonical)).Nodup

/-- `ENTITY_SALT`. -/
def entitySalt : List UInt8 := utf8 "spectral-entity-v1:"

/-- `entity_id`. -/
def Env.entityId (env : Env) (entityType canonical : String) : EntityId :=
  env.blake3 (entitySalt ++ utf8 entityType ++ utf8 ":" ++ utf8 canonical)

/-- `entity_id_for`. -/
def Env.entityIdFor (env : Env) (e : OntologyEntity) : EntityId :=
  env.entityId e.entityType e.canonical

/-- `MatchKind`. -/
inductive MatchKind where
  | exact
  | fuzzy (score : ℚ)
  deriving DecidableEq

/-- `MatchedMention`. -/
structure MatchedMention where
  mention : String
  entityId : EntityId
  entityType : String
  canonical : String
  matchKind : MatchKind
  deriving DecidableEq

/-- `AliasEntry`. -/
structure AliasEntry where
  aliasLower : String
  wordCount : ℕ
  entity : OntologyEntity

/-- `DEFAULT_FUZZY_THRESHOLD`. -/
def defaultFuzzyThreshold : ℚ := 85 / 100

/-- `MIN_WORD_LEN`, in bytes. -/
def minWordLen : ℕ := 3

/-- The part of a text between two places. -/
def slice (text : List Char) (start stop : ℕ) : String :=
  String.ofList ((text.drop start).take (stop - start))

/-- The mention of an entity. -/
def Env.matched (env : Env) (mention : String) (e : OntologyEntity) (kind : MatchKind) :
    MatchedMention :=
  { mention, entityId := env.entityIdFor e, entityType := e.entityType, canonical := e.canonical
    matchKind := kind }

namespace TextLibrary

variable (lib : TextLibrary)

/-- `is_alphanumeric`, or one of the two signs a word may have. -/
def isWordChar (c : Char) : Bool := lib.isAlphanumeric c || decide (c = '-') || decide (c = '\'')

/-- `extract_words` from the place `i` on; `start` is where the current word started. -/
def extractWordsFrom (i : ℕ) (start : Option ℕ) : List Char → List (ℕ × ℕ)
  | [] => (start.map fun s => (s, i)).toList
  | c :: cs =>
    if lib.isWordChar c then extractWordsFrom (i + 1) (start.or (some i)) cs
    else (start.map fun s => (s, i)).toList ++ extractWordsFrom (i + 1) none cs

/-- `extract_words`. -/
def extractWords (text : List Char) : List (ℕ × ℕ) := lib.extractWordsFrom 0 none text

/-- `split_whitespace().count()`: `inWord` tells that the last character was not a space. -/
def countWords (inWord : Bool) : List Char → ℕ
  | [] => 0
  | c :: cs =>
    if lib.isWhitespace c then countWords false cs
    else (if inWord then 0 else 1) + countWords true cs

/-- An entry of the alias index. -/
def aliasEntry (e : OntologyEntity) (name : String) : AliasEntry :=
  { aliasLower := lib.toLowercase name
    wordCount := lib.countWords false (lib.toLowercase name).toList
    entity := e }

/-- `build_alias_index`: the canonical name is an alias. -/
def buildAliasIndex (o : Ontology) : List AliasEntry :=
  o.entities.flatMap fun e => (e.canonical :: e.aliases).map (lib.aliasEntry e)

/-- A name in `best_fuzzy_match`: a strictly better score takes over. -/
def betterMatch (mentionLower : String) (best : ℚ × Option OntologyEntity)
    (name : OntologyEntity × String) : ℚ × Option OntologyEntity :=
  let score := lib.normalizedDamerauLevenshtein mentionLower (lib.toLowercase name.2)
  if best.1 < score then (score, some name.1) else best

/-- `best_fuzzy_match`. -/
def bestFuzzyMatch (o : Ontology) (mention : String) : ℚ × Option OntologyEntity :=
  (o.entities.flatMap fun e => (e.canonical :: e.aliases).map fun name => (e, name)).foldl
    (lib.betterMatch (lib.toLowercase mention)) (0, none)

end TextLibrary

/-- Where `canonicalize` is: the words that belong to a mention, and the mentions. -/
structure Mentions where
  consumed : List Bool
  matched : List MatchedMention

section

variable (env : Env) (lib : TextLibrary) (o : Ontology) (text : List Char) (words : List (ℕ × ℕ))

/-- One window of the first phase. -/
def exactWindow (aliases : List AliasEntry) (m : Mentions) (window : ℕ × ℕ) : Mentions :=
  let (size, start) := window
  if ((m.consumed.drop start).take size).any id then m
  else
    match words[start]?, words[start + size - 1]? with
    | some first, some last =>
      let candidate := slice text first.1 last.2
      match aliases.find? fun a => a.aliasLower = lib.toLowercase candidate with
      | some entry =>
        { consumed := m.consumed.mapIdx fun i c => c || decide (start ≤ i ∧ i < start + size)
          matched := m.matched ++ [env.matched candidate entry.entity .exact] }
      | none => m
    | _, _ => m

/-- The windows of the first phase: sizes from the largest down, starts from the left. -/
def windows (maxAliasWords count : ℕ) : List (ℕ × ℕ) :=
  (List.range (min maxAliasWords count)).reverse.flatMap fun size =>
    (List.range (count - (size + 1) + 1)).map fun start => (size + 1, start)

/-- The first phase: exact matches. -/
def exactPhase : Mentions :=
  let aliases := lib.buildAliasIndex o
  let maxAliasWords := ((aliases.map AliasEntry.wordCount).max?).getD 1
  (windows maxAliasWords words.length).foldl (exactWindow env lib text words aliases)
    { consumed := words.map fun _ => false, matched := [] }

/-- One word of the second phase. -/
def fuzzyWord (m : Mentions) (word : (ℕ × ℕ) × Bool) : Mentions :=
  let mention := slice text word.1.1 word.1.2
  if word.2 || decide (mention.utf8ByteSize < minWordLen) then m
  else
    match lib.bestFuzzyMatch o mention with
    | (score, some entity) =>
      if defaultFuzzyThreshold ≤ score then
        { m with matched := m.matched ++ [env.matched mention entity (.fuzzy score)] }
      else m
    | (_, none) => m

/-- The second phase: fuzzy matches of the words that are left. -/
def fuzzyPhase (m : Mentions) : Mentions :=
  (words.zip m.consumed).foldl (fuzzyWord env lib o text) m

/-- `canonicalize`: the mentions that were matched. -/
def canonicalize : List MatchedMention :=
  let words := lib.extractWords text
  (fuzzyPhase env lib o text words (exactPhase env lib o text words)).matched

end

end Spectral
