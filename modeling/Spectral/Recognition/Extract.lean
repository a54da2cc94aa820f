import Mathlib.Algebra.GroupWithZero.Nat
import Mathlib.Algebra.Order.Monoid.WithTop
import Mathlib.Data.List.Destutter
import Mathlib.Data.List.DropRight
import Mathlib.Data.List.Infix
import Spectral.Lib.Ranking
import Spectral.Lib.Winnow
import Spectral.Recognition.Index

/-!
# The extraction of fingerprints

A text is cut into tokens.  Its landmarks are the most salient ones, and two landmarks that are
near each other make a pair fingerprint; runs of `kgram` tokens make gram fingerprints, thinned out
by winnowing.  The shingle set is made from tokens of a simpler kind.

* `tokenize`, `normalizedTokens` — the tokens, with the stemmer.
* `Extractor` — what extraction is given: the character tables, the hash functions, the rarity of
  terms and the configuration.  It makes a `Recognizer`.
* `pairHashes`, `gramHashes` — the two kinds of fingerprints.
* `mem_pairHashes`, `mem_gramHashes` — a fingerprint is of tokens of the text.
-/

namespace Spectral

open Spectral.Lib

/-! ## Characters -/

/-- The tables of Unicode that `char` and `str` consult, with what is relied on: a letter or digit
is no blank and no bar, and lower case brings neither in. -/
structure CharTables where
  isAlphanumeric : Char → Bool
  isWhitespace : Char → Bool
  toLowercase : List Char → List Char
  not_whitespace : ∀ c, isAlphanumeric c = true → isWhitespace c = false
  not_separator : isAlphanumeric ' ' = false ∧ isAlphanumeric '|' = false
  not_mem_toLowercase : ∀ l, ∀ c ∈ [' ', '|'], c ∈ toLowercase l → c ∈ l

namespace CharTables

theorem not_whitespace_ascii (c : Char) (h : c.isAlphanum = true) : c.isWhitespace = false := by
  refine Bool.eq_false_iff.2 fun hblank => ?_
  have hfour : c = ' ' ∨ c = '\t' ∨ c = '\r' ∨ c = '\n' := by
    simpa [Char.isWhitespace, or_assoc] using hblank
  rcases hfour with rfl | rfl | rfl | rfl <;> cases h

/-- Lower case leaves what is no letter. -/
theorem eq_of_toLower_eq {c d : Char} (hd : d.toLower = c) (hc : c.isAlpha = false) : d = c := by
  unfold Char.toLower at hd
  split at hd
  · rename_i hupper
    have hval : c.val = d.val + 32 := by
      rw [← hd]
      rfl
    have hrange : (65 : UInt32) ≤ d.val ∧ d.val ≤ 90 := hupper
    have hlower : c.isLower = true := by
      have hfirst : (97 : UInt32) ≤ c.val := by grind
      have hlast : c.val ≤ (122 : UInt32) := by grind
      exact Bool.and_eq_true_iff.2 ⟨decide_eq_true hfirst, decide_eq_true hlast⟩
    have hletter : c.isAlpha = true := Bool.or_eq_true_iff.2 (Or.inr hlower)
    rw [hletter] at hc
    cases hc
  · exact hd

theorem not_mem_toLower_ascii (l : List Char) :
    ∀ c ∈ [' ', '|'], c ∈ l.map Char.toLower → c ∈ l := by
  intro c hc hmem
  obtain ⟨d, hd, hlower⟩ := List.mem_map.1 hmem
  have hletter : c.isAlpha = false := by
    rcases List.mem_pair.1 hc with rfl | rfl
    · rfl
    · rfl
  rwa [eq_of_toLower_eq hlower hletter] at hd

/-- The tables on ASCII. -/
def ascii : CharTables where
  isAlphanumeric := Char.isAlphanum
  isWhitespace := Char.isWhitespace
  toLowercase := List.map Char.toLower
  not_whitespace := not_whitespace_ascii
  not_separator := by decide
  not_mem_toLowercase := not_mem_toLower_ascii

end CharTables

/-- `len` counts bytes. -/
def byteLen (t : List Char) : ℕ := (t.map Char.utf8Size).sum

/-- The marks that are trimmed off a token. -/
def isMark (c : Char) : Bool := c = '.' || c = '-' || c = '_'

/-- `trim_matches`. -/
def trimMatches (p : Char → Bool) (t : List Char) : List Char := (t.dropWhile p).rdropWhile p

/-! ## The stemmer -/

/-- `strip_suffix`. -/
def stripSuffix (t : List Char) (suffix : String) : Option (List Char) :=
  if suffix.toList.isSuffixOf t then some (t.take (t.length - suffix.toList.length)) else none

/-- `ends_with`. -/
def endsWith (t : List Char) (suffix : String) : Bool := suffix.toList.isSuffixOf t

/-- Step 1a of the stemmer: plurals. -/
def stemPlural (s : List Char) : List Char :=
  match stripSuffix s "sses" with
  | some b => b ++ "ss".toList
  | none =>
    match stripSuffix s "ies" with
    | some b => b ++ "i".toList
    | none =>
      if 4 < byteLen s ∧
          (endsWith s "ches" || endsWith s "shes" || endsWith s "xes" || endsWith s "zes") = true then
        s.take (s.length - 2)
      else if endsWith s "s" = true ∧ endsWith s "ss" = false ∧ 3 < byteLen s then s.dropLast
      else s

/-- `has_vowel`. -/
def hasVowel (t : List Char) : Bool := t.any fun c => "aeiou".toList.contains c

/-- Step 1b: the first of the endings whose removal leaves a stem with a vowel. -/
def stemTense (s : List Char) : List Char :=
  (["ing", "ed"].findSome? fun suffix =>
    (stripSuffix s suffix).filter fun b => decide (3 ≤ byteLen b) && hasVowel b).getD s

/-- The derivational endings, with what they become. -/
def derivationalEndings : List (String × String) :=
  [("ization", "ize"), ("ational", "ate"), ("fulness", "ful"), ("ousness", "ous"),
    ("iveness", "ive"), ("tional", "tion"), ("alism", "al"), ("ment", ""), ("ness", "")]

/-- The last step: the first derivational ending of a stem that is long enough. -/
def stemDerived (s : List Char) : List Char :=
  (derivationalEndings.findSome? fun ending =>
    ((stripSuffix s ending.1).filter fun b => decide (3 ≤ byteLen b)).map fun b =>
      b ++ ending.2.toList).getD s

/-- `stem`. -/
def stem (t : List Char) : List Char := stemDerived (stemTense (stemPlural t))

example : ["deployments", "running", "addresses", "needed"].map (fun t => stem t.toList) =
    ["deploy", "runn", "address", "need"].map String.toList := by decide +kernel

/-! ## Tokens -/

/-- `STOPWORDS`. -/
def stopwords : List String :=
  ["a", "an", "the", "and", "or", "but", "if", "then", "else", "when", "at", "by", "for", "with",
    "about", "against", "between", "into", "through", "during", "before", "after", "above",
    "below", "to", "from", "up", "down", "in", "out", "on", "off", "over", "under", "again",
    "further", "once", "here", "there", "all", "any", "both", "each", "few", "more", "most",
    "other", "some", "such", "no", "nor", "not", "only", "own", "same", "so", "than", "too",
    "very", "can", "will", "just", "should", "now", "i", "me", "my", "we", "our", "you", "your",
    "he", "him", "his", "she", "her", "it", "its", "they", "them", "their", "what", "which", "who",
    "this", "that", "these", "those", "am", "is", "are", "was", "were", "be", "been", "being",
    "have", "has", "had", "having", "do", "does", "did", "doing", "of", "as", "because", "until",
    "while", "how", "why", "where"]

/-- `is_stopword`. -/
def isStopword (t : List Char) : Bool := stopwords.contains (String.ofList t)

/-- `is_anchor`: numbers, identifiers, and words in capitals or of mixed case. -/
def isAnchor (raw : List Char) : Bool :=
  let hasDigit := raw.any Char.isDigit
  let hasSep := raw.contains '_' || raw.contains '-' || raw.contains '.'
  let allCaps := decide (2 ≤ byteLen raw) && raw.all fun c => c.isUpper || c.isDigit
  let innerUpper := (raw.drop 1).any Char.isUpper
  hasDigit || (hasSep && decide (4 ≤ byteLen raw)) || allCaps || innerUpper

/-- A token: its key, whether it is an anchor, and whether it is a stopword. -/
structure Token where
  key : String
  anchor : Bool
  stop : Bool
  deriving DecidableEq

namespace CharTables

variable (u : CharTables)

/-- The characters of tokens. -/
def isWordChar (c : Char) : Bool := u.isAlphanumeric c || c = '_' || c = '-' || c = '.'

/-- The pieces of a text, trimmed, without the empty ones. -/
def pieces (content : List Char) : List (List Char) :=
  (((content.splitOnP fun c => !u.isWordChar c).filter fun t => t ≠ []).map
    (trimMatches isMark)).filter fun t => t ≠ []

/-- The token of a piece. -/
def tokenOf (trimmed : List Char) : Token :=
  if isAnchor trimmed then ⟨String.ofList trimmed, true, false⟩
  else
    let lower := u.toLowercase trimmed
    ⟨String.ofList (stem lower), false, isStopword lower⟩

/-- `tokenize`. -/
def tokenize (content : String) : List Token :=
  ((u.pieces content.toList).map u.tokenOf).filter fun t => t.key ≠ ""

/-- `normalized_tokens`. -/
def normalizedTokens (content : String) : List String := (u.tokenize content).map Token.key

/-- `trim().is_empty()`. -/
def isBlank (content : String) : Bool := content.toList.all u.isWhitespace

end CharTables

/-! ## Landmarks -/

/-- `TermIdf`: in how many documents a term is, and how many there are. -/
structure TermIdf where
  docFrequency : String → Option ℕ
  totalDocs : ℕ

/-- `RecognitionConfig`, with the shingle size of its `MinHashConfig`.  A gram size or a window of
zero makes `slice::windows` panic. -/
structure RecognitionConfig where
  maxPeaks : ℕ := 32
  fanOut : ℕ := 8
  pairWindow : ℕ := 16
  kgram : ℕ := 5
  window : ℕ := 8
  shingle : ℕ := 2
  minhashWeight : ℚ := 3
  minSimilarity : ℚ := 15 / 100
  score : ScoreConfig := {}
  kgram_pos : 0 < kgram := by decide
  window_pos : 0 < window := by decide

namespace RecognitionConfig

theorem five_pos : 0 < 5 := by decide

theorem eight_pos : 0 < 8 := by decide

end RecognitionConfig

/-- What the extraction of fingerprints is given. -/
structure Extractor where
  tables : CharTables
  numerics : Numerics
  /-- `hash64`. -/
  hash64 : String → UInt64
  /-- `hash_seeded`, with the seed 0. -/
  hashSeeded : String → UInt64
  termIdf : Option TermIdf := none
  config : RecognitionConfig := {}

namespace Extractor

variable (x : Extractor)

/-- `idf`, where an unknown term is rarest. -/
def idf (src : TermIdf) (term : String) : WithTop ℚ :=
  match src.docFrequency term with
  | none => ⊤
  | some df => (x.numerics.ln ((max src.totalDocs 1 : ℕ) / (max df 1 : ℕ)) : ℚ)

/-- The rarity by which landmarks are ranked; without a source all are alike. -/
def rarityOf (term : String) : WithTop ℚ :=
  match x.termIdf with
  | none => ⊤
  | some src => x.idf src term

/-- The order of the ranking: anchors first, then the rarer, the longer and the earlier. -/
def MoreSalient (a b : Landmark) : Prop :=
  b.anchor < a.anchor ∨ a.anchor = b.anchor ∧
    (x.rarityOf b.key < x.rarityOf a.key ∨ x.rarityOf a.key = x.rarityOf b.key ∧
      (b.key.utf8ByteSize < a.key.utf8ByteSize ∨
        a.key.utf8ByteSize = b.key.utf8ByteSize ∧ a.position ≤ b.position))

instance : DecidableRel x.MoreSalient := fun a b => inferInstanceAs (Decidable
  (b.anchor < a.anchor ∨ a.anchor = b.anchor ∧
    (x.rarityOf b.key < x.rarityOf a.key ∨ x.rarityOf a.key = x.rarityOf b.key ∧
      (b.key.utf8ByteSize < a.key.utf8ByteSize ∨
        a.key.utf8ByteSize = b.key.utf8ByteSize ∧ a.position ≤ b.position))))

/-- A token becomes a candidate when it can be a landmark and no earlier one has its key. -/
def addCandidate (candidates : List Landmark) (t : Token × ℕ) : List Landmark :=
  if t.1.anchor = false ∧ (t.1.stop = true ∨ t.1.key.utf8ByteSize < 3) then candidates
  else if t.1.key ∈ candidates.map Landmark.key then candidates
  else candidates ++ [⟨t.1.key, t.2, t.1.anchor⟩]

/-- `extract_landmarks_with`. -/
def extractLandmarks (content : String) : List Landmark :=
  let candidates := (x.tables.tokenize content).zipIdx.foldl addCandidate []
  ((candidates.insertionSort x.MoreSalient).take x.config.maxPeaks).insertionSort fun a b =>
    a.position ≤ b.position

/-! ## Fingerprints -/

/-- The label of a pair. -/
def pairLabel (lo hi : String) : String := "pair: " ++ lo ++ "~" ++ hi

/-- What is hashed of a pair. -/
def pairText (lo hi : String) : String := "rp1|" ++ lo ++ "|" ++ hi

/-- The fingerprint of a pair, whatever the order of the two. -/
def pairHash (a b : Landmark) : UInt64 × String :=
  let (lo, hi) := if a.key ≤ b.key then (a.key, b.key) else (b.key, a.key)
  (x.hash64 (pairText lo hi), pairLabel lo hi)

/-- Each landmark is paired with the next ones in its window. -/
def pairHashes : List Landmark → List (UInt64 × String)
  | [] => []
  | a :: rest => (((rest.takeWhile fun b => b.position - a.position ≤ x.config.pairWindow).take
      x.config.fanOut).map (x.pairHash a)) ++ pairHashes rest

/-- The label of a run. -/
def runLabel (text : String) : String := "run: '" ++ text ++ "'"

/-- The fingerprint of a run of tokens. -/
def gramHash (w : List String) : UInt64 × String :=
  let text := " ".intercalate w
  (x.hash64 ("rg1|" ++ text), runLabel text)

/-- The winnowed grams of the keys of a text. -/
def gramHashes (keys : List String) : List (UInt64 × String) :=
  if x.config.kgram ≤ keys.length then
    winnow (fun g : UInt64 × String => g.1.toNat) x.config.window
      ((windows x.config.kgram keys).map x.gramHash)
  else []

/-- `fingerprint_stimulus_with`. -/
def fingerprintStimulus (content : String) : StimulusPrints :=
  let peaks := x.extractLandmarks content
  { peaks
    pairHashes := x.pairHashes peaks
    gramHashes := x.gramHashes (x.tables.normalizedTokens content) }

/-! ## Shingles -/

/-- `tokens`. -/
def shingleTokens (content : String) : List String :=
  (x.tables.pieces content.toList).map fun t => String.ofList (x.tables.toLowercase t)

/-- `shingle_set`. -/
def shingleSet (content : String) : List UInt64 :=
  let toks := x.shingleTokens content
  let k := max x.config.shingle 1
  if toks = [] then []
  else if toks.length < k then [x.hashSeeded (" ".intercalate toks)]
  else (((windows k toks).map fun w => x.hashSeeded (" ".intercalate w)).insertionSort
    (· ≤ ·)).destutter (· ≠ ·)

/-- The engine's extraction. -/
def recognizer : Recognizer where
  numerics := x.numerics
  fingerprintStimulus := x.fingerprintStimulus
  shingleSet := x.shingleSet
  score := x.config.score
  minhashWeight := x.config.minhashWeight
  minSimilarity := x.config.minSimilarity

end Extractor

/-! ## What tokens are made of -/

theorem mem_trimMatches {p : Char → Bool} {t : List Char} {c : Char} (h : c ∈ trimMatches p t) :
    c ∈ t :=
  (List.dropWhile_suffix p).subset ((List.rdropWhile_prefix p _).subset h)

/-- What is trimmed begins with no mark. -/
theorem head_trimMatches {p : Char → Bool} {t : List Char} {c : Char} {rest : List Char}
    (h : trimMatches p t = c :: rest) : p c = false := by
  have hprefix : c :: rest <+: t.dropWhile p := h ▸ List.rdropWhile_prefix p _
  cases hdrop : t.dropWhile p with
  | nil =>
    rw [hdrop, List.prefix_nil] at hprefix
    cases hprefix
  | cons d l =>
    have hd := List.head?_dropWhile_not p t
    rw [hdrop] at hprefix hd
    rw [(List.cons_prefix_cons.1 hprefix).1]
    exact hd

/-- A piece has what is not split at. -/
theorem of_mem_splitOnP {p : Char → Bool} {l t : List Char} (h : t ∈ l.splitOnP p) :
    ∀ c ∈ t, c ∈ l ∧ p c = false := by
  induction l generalizing t with
  | nil =>
    rw [List.splitOnP_nil, List.mem_singleton] at h
    simp [h]
  | cons d l ih =>
    have hrest : ∀ t ∈ l.splitOnP p, ∀ c ∈ t, c ∈ d :: l ∧ p c = false :=
      fun t ht c hc => ⟨List.mem_cons_of_mem d (ih ht c hc).1, (ih ht c hc).2⟩
    rw [List.splitOnP_cons_eq_if_modifyHead] at h
    split at h
    · rcases List.mem_cons.1 h with rfl | h
      · exact nofun
      · exact hrest t h
    · rename_i hd
      cases hsplit : l.splitOnP p with
      | nil =>
        rw [hsplit] at h
        exact absurd h List.not_mem_nil
      | cons t' ts =>
        rw [hsplit, List.modifyHead_cons] at h
        rw [hsplit] at hrest
        rcases List.mem_cons.1 h with rfl | h
        · intro c hc
          rcases List.mem_cons.1 hc with rfl | hc
          · exact ⟨List.mem_cons_self, by simpa using hd⟩
          · exact hrest t' List.mem_cons_self c hc
        · exact hrest t (List.mem_cons_of_mem t' h)

section Stem

variable {t b : List Char} {c : Char}

theorem mem_of_stripSuffix {suffix : String} (h : stripSuffix t suffix = some b) (hc : c ∈ b) :
    c ∈ t := by
  unfold stripSuffix at h
  split at h
  · cases h
    exact List.mem_of_mem_take hc
  · cases h

theorem mem_stemPlural (h : c ∈ stemPlural t) : c ∈ t ∨ c.isAlpha = true := by
  unfold stemPlural at h
  split at h
  · rename_i b hb
    rcases List.mem_append.1 h with h | h
    · exact Or.inl (mem_of_stripSuffix hb h)
    · have hs : c = 's' := by simpa using h
      exact Or.inr (hs ▸ rfl)
  · split at h
    · rename_i b hb
      rcases List.mem_append.1 h with h | h
      · exact Or.inl (mem_of_stripSuffix hb h)
      · have hi : c = 'i' := by simpa using h
        exact Or.inr (hi ▸ rfl)
    · split at h
      · exact Or.inl (List.mem_of_mem_take h)
      · split at h
        · exact Or.inl (List.mem_of_mem_dropLast h)
        · exact Or.inl h

theorem mem_stemTense (h : c ∈ stemTense t) : c ∈ t := by
  unfold stemTense at h
  cases hfound : ["ing", "ed"].findSome? fun suffix =>
      (stripSuffix t suffix).filter fun b => decide (3 ≤ byteLen b) && hasVowel b with
  | none =>
    rw [hfound] at h
    exact h
  | some b =>
    rw [hfound] at h
    obtain ⟨suffix, -, hb⟩ := List.exists_of_findSome?_eq_some hfound
    exact mem_of_stripSuffix (Option.filter_eq_some_iff.1 hb).1 h

theorem mem_stemDerived (h : c ∈ stemDerived t) : c ∈ t ∨ c.isAlpha = true := by
  unfold stemDerived at h
  cases hfound : derivationalEndings.findSome? fun ending =>
      ((stripSuffix t ending.1).filter fun b => decide (3 ≤ byteLen b)).map fun b =>
        b ++ ending.2.toList with
  | none =>
    rw [hfound] at h
    exact Or.inl h
  | some b' =>
    rw [hfound] at h
    obtain ⟨ending, hending, hb'⟩ := List.exists_of_findSome?_eq_some hfound
    obtain ⟨b, hb, rfl⟩ := Option.map_eq_some_iff.1 hb'
    rcases List.mem_append.1 h with h | h
    · exact Or.inl (mem_of_stripSuffix (Option.filter_eq_some_iff.1 hb).1 h)
    · have hletters : ∀ ending ∈ derivationalEndings, ending.2.toList.all Char.isAlpha = true := by
        decide +kernel
      exact Or.inr (List.all_eq_true.1 (hletters ending hending) c h)

/-- The stemmer brings in letters only. -/
theorem mem_stem (h : c ∈ stem t) : c ∈ t ∨ c.isAlpha = true := by
  rcases mem_stemDerived h with h | h
  · exact mem_stemPlural (mem_stemTense h)
  · exact Or.inr h

end Stem

namespace CharTables

variable {u : CharTables} {content key : String}

/-- A piece is made of word characters, and the first one is a letter or a digit. -/
theorem of_mem_pieces {l t : List Char} (h : t ∈ u.pieces l) :
    (∀ c ∈ t, u.isWordChar c = true) ∧ ∃ c ∈ t, u.isAlphanumeric c = true := by
  unfold pieces at h
  obtain ⟨h, hne⟩ := List.mem_filter.1 h
  obtain ⟨piece, hpiece, rfl⟩ := List.mem_map.1 h
  have hword : ∀ c ∈ trimMatches isMark piece, u.isWordChar c = true := by
    intro c hc
    simpa using (of_mem_splitOnP (List.mem_filter.1 hpiece).1 c (mem_trimMatches hc)).2
  refine ⟨hword, ?_⟩
  cases htrim : trimMatches isMark piece with
  | nil => simp [htrim] at hne
  | cons c rest =>
    refine ⟨c, List.mem_cons_self, ?_⟩
    have hmark := head_trimMatches htrim
    have hc := hword c (htrim ▸ List.mem_cons_self)
    simp only [isMark, Bool.or_eq_false_iff, decide_eq_false_iff_not] at hmark
    simpa [isWordChar, hmark] using hc

/-- A key is that of a piece. -/
theorem exists_piece (h : key ∈ u.normalizedTokens content) :
    ∃ t ∈ u.pieces content.toList, key = (u.tokenOf t).key := by
  obtain ⟨token, htoken, rfl⟩ := List.mem_map.1 h
  obtain ⟨t, ht, rfl⟩ := List.mem_map.1 (List.mem_filter.1 htoken).1
  exact ⟨t, ht, rfl⟩

/-- No key has a blank or a bar in it. -/
theorem not_mem_key (h : key ∈ u.normalizedTokens content) {c : Char} (hc : c ∈ [' ', '|']) :
    c ∉ key.toList := by
  obtain ⟨t, ht, rfl⟩ := exists_piece h
  have hpiece : c ∉ t := by
    intro hmem
    have hword := (of_mem_pieces ht).1 c hmem
    rcases List.mem_cons.1 hc with rfl | hc
    · simp [isWordChar, u.not_separator.1] at hword
    · obtain rfl := List.mem_singleton.1 hc
      simp [isWordChar, u.not_separator.2] at hword
  have hletter : c.isAlpha = false := by
    rcases List.mem_cons.1 hc with rfl | hc
    · rfl
    · rw [List.mem_singleton.1 hc]
      rfl
  unfold tokenOf
  split
  · rwa [String.toList_ofList]
  · rw [String.toList_ofList]
    intro hmem
    rcases mem_stem hmem with hmem | hmem
    · exact hpiece (u.not_mem_toLowercase t c hc hmem)
    · rw [hletter] at hmem
      cases hmem

/-- A text with a piece is not blank. -/
theorem isBlank_of_mem_pieces {t : List Char} (ht : t ∈ u.pieces content.toList) :
    u.isBlank content = false := by
  obtain ⟨c, hc, halnum⟩ := (of_mem_pieces ht).2
  have hmem : c ∈ content.toList := by
    unfold pieces at ht
    obtain ⟨piece, hpiece, rfl⟩ := List.mem_map.1 (List.mem_filter.1 ht).1
    exact (of_mem_splitOnP (List.mem_filter.1 hpiece).1 c (mem_trimMatches hc)).1
  rw [isBlank, List.all_eq_false]
  exact ⟨c, hmem, by simp [u.not_whitespace c halnum]⟩

/-- Nor is one with a token. -/
theorem isBlank_of_mem (h : key ∈ u.normalizedTokens content) : u.isBlank content = false := by
  obtain ⟨t, ht, -⟩ := exists_piece h
  exact isBlank_of_mem_pieces ht

end CharTables

/-! ## What fingerprints are made of -/

namespace Extractor

variable {x : Extractor} {content : String} {keys keys' run : List String} {f : UInt64 × String}

/-- A landmark is a token of the text. -/
theorem key_of_mem_extractLandmarks {l : Landmark} (h : l ∈ x.extractLandmarks content) :
    l.key ∈ x.tables.normalizedTokens content := by
  have hcandidates : ∀ ts : List (Token × ℕ), ∀ l ∈ ts.foldl addCandidate [],
      ∃ t ∈ ts, t.1.key = l.key := by
    intro ts
    induction ts using List.reverseRecOn with
    | nil => exact nofun
    | append_singleton ts t ih =>
      intro l hl
      rw [List.foldl_append, List.foldl_cons, List.foldl_nil, addCandidate] at hl
      have hold : l ∈ ts.foldl addCandidate [] → ∃ t' ∈ ts ++ [t], t'.1.key = l.key := by
        intro hl
        obtain ⟨t', ht', hkey⟩ := ih l hl
        exact ⟨t', List.mem_append_left _ ht', hkey⟩
      split at hl
      · exact hold hl
      · split at hl
        · exact hold hl
        · rcases List.mem_append.1 hl with hl | hl
          · exact hold hl
          · rw [List.mem_singleton.1 hl]
            exact ⟨t, by simp, rfl⟩
  unfold extractLandmarks at h
  rw [List.mem_insertionSort] at h
  have h := List.mem_of_mem_take h
  rw [List.mem_insertionSort] at h
  obtain ⟨t, ht, hkey⟩ := hcandidates _ l h
  rw [← hkey]
  exact List.mem_map_of_mem (List.fst_mem_of_mem_zipIdx ht)

/-- A pair fingerprint is of two landmarks. -/
theorem mem_pairHashes {peaks : List Landmark} (h : f ∈ x.pairHashes peaks) :
    ∃ a ∈ peaks, ∃ b ∈ peaks, f = (x.hash64 (pairText a.key b.key), pairLabel a.key b.key) := by
  induction peaks with
  | nil => exact absurd h List.not_mem_nil
  | cons a rest ih =>
    rw [pairHashes] at h
    rcases List.mem_append.1 h with h | h
    · obtain ⟨b, hb, rfl⟩ := List.mem_map.1 h
      have hb : b ∈ rest := (List.takeWhile_prefix _).subset (List.mem_of_mem_take hb)
      have ha : a ∈ a :: rest := List.mem_cons_self
      have hb' : b ∈ a :: rest := List.mem_cons_of_mem a hb
      unfold pairHash
      by_cases hle : a.key ≤ b.key
      · rw [if_pos hle]
        exact ⟨a, ha, b, hb', rfl⟩
      · rw [if_neg hle]
        exact ⟨b, hb', a, ha, rfl⟩
    · obtain ⟨b, hb, c, hc, rfl⟩ := ih h
      exact ⟨b, List.mem_cons_of_mem _ hb, c, List.mem_cons_of_mem _ hc, rfl⟩

theorem ne_nil_of_mem_windows (h : run ∈ windows x.config.kgram keys) : run ≠ [] := by
  rintro rfl
  have hpos := x.config.kgram_pos
  have hlength := (infix_of_mem_windows h).2
  rw [List.length_nil] at hlength
  omega

/-- A gram fingerprint is of a run of `kgram` tokens. -/
theorem mem_gramHashes (h : f ∈ x.gramHashes keys) :
    ∃ w ∈ windows x.config.kgram keys, f = x.gramHash w := by
  unfold gramHashes at h
  split at h
  · obtain ⟨w, hw, rfl⟩ := List.mem_map.1 (mem_of_mem_winnow h)
    exact ⟨w, hw, rfl⟩
  · exact absurd h List.not_mem_nil

/-- The text of a pair of keys tells the keys. -/
theorem pairText_inj {lo hi lo' hi' : String} (hlo : lo ∈ x.tables.normalizedTokens content)
    (hhi : hi ∈ x.tables.normalizedTokens content) (h : pairText lo hi = pairText lo' hi') :
    lo = lo' ∧ hi = hi' := by
  have hchars := congrArg String.toList h
  have hone : "|".toList = ['|'] := rfl
  simp only [pairText, String.toList_append, List.append_assoc, List.append_cancel_left_eq, hone,
    List.singleton_append] at hchars
  have hbar : '|' ∉ lo.toList := CharTables.not_mem_key hlo (by decide)
  have hbar' : '|' ∉ hi.toList := CharTables.not_mem_key hhi (by decide)
  obtain ⟨hlo, -, hhi⟩ := (List.append_cons_inj_of_notMem hbar hbar').1 hchars
  exact ⟨String.toList_inj.1 hlo, String.toList_inj.1 hhi⟩

/-- The text of a run of keys tells the keys. -/
theorem run_inj {content' : String} {w w' : List String}
    (hw : ∀ key ∈ w, key ∈ x.tables.normalizedTokens content)
    (hw' : ∀ key ∈ w', key ∈ x.tables.normalizedTokens content') (hne : w ≠ []) (hne' : w' ≠ [])
    (h : " ".intercalate w = " ".intercalate w') : w = w' := by
  have hchars := congrArg (fun s : String => s.toList.splitOn ' ') h
  simp only [String.toList_intercalate] at hchars
  have hblank : ∀ l ∈ w.map String.toList, ' ' ∉ l := by
    intro l hl
    obtain ⟨key, hkey, rfl⟩ := List.mem_map.1 hl
    exact CharTables.not_mem_key (hw key hkey) (by decide)
  have hblank' : ∀ l ∈ w'.map String.toList, ' ' ∉ l := by
    intro l hl
    obtain ⟨key, hkey, rfl⟩ := List.mem_map.1 hl
    exact CharTables.not_mem_key (hw' key hkey) (by decide)
  change List.splitOn ' ' ([' '].intercalate _) = List.splitOn ' ' ([' '].intercalate _) at hchars
  rw [List.splitOn_intercalate ' ' hblank (by simpa using hne),
    List.splitOn_intercalate ' ' hblank' (by simpa using hne')] at hchars
  have hinj : Function.Injective String.toList := fun _ _ => String.toList_inj.1
  exact List.map_injective_iff.2 hinj hchars

/-- **Texts with a long run in common have a gram hash in common.** -/
theorem exists_common_gramHash (h : run <:+: keys) (h' : run <:+: keys')
    (hlong : x.config.window + x.config.kgram - 1 ≤ run.length) :
    ∃ g ∈ x.gramHashes keys, ∃ g' ∈ x.gramHashes keys', g.1 = g'.1 := by
  have hkgram := x.config.kgram_pos
  have hwindow := x.config.window_pos
  have hlength : x.config.window ≤ ((windows x.config.kgram run).map x.gramHash).length := by
    rw [List.length_map, length_windows hkgram]
    omega
  have hcommon : ∃ g ∈ winnow (fun g : UInt64 × String => g.1.toNat) x.config.window
      ((windows x.config.kgram keys).map x.gramHash),
      ∃ g' ∈ winnow (fun g : UInt64 × String => g.1.toNat) x.config.window
        ((windows x.config.kgram keys').map x.gramHash), g.1.toNat = g'.1.toNat :=
    exists_common_winnow hwindow ((windows_stretch h).map x.gramHash)
      ((windows_stretch h').map x.gramHash) hlength
  obtain ⟨g, hg, g', hg', hkey⟩ := hcommon
  have hkeys : x.config.kgram ≤ keys.length := by
    have := h.length_le
    omega
  have hkeys' : x.config.kgram ≤ keys'.length := by
    have := h'.length_le
    omega
  refine ⟨g, ?_, g', ?_, UInt64.toNat_inj.1 hkey⟩
  · rwa [gramHashes, if_pos hkeys]
  · rwa [gramHashes, if_pos hkeys']

/-- A blank text has no shingles. -/
theorem shingleSet_of_isBlank (h : x.tables.isBlank content = true) : x.shingleSet content = [] := by
  have hpieces : x.tables.pieces content.toList = [] := by
    refine List.eq_nil_iff_forall_not_mem.2 fun t ht => ?_
    rw [CharTables.isBlank_of_mem_pieces ht] at h
    cases h
  unfold shingleSet shingleTokens
  rw [hpieces]
  rfl

/-- The shingle set is sorted, without repeats. -/
theorem sorted_shingleSet (content : String) : (x.shingleSet content).Pairwise (· < ·) := by
  unfold shingleSet
  dsimp only
  split
  · exact List.Pairwise.nil
  · split
    · exact List.pairwise_singleton _ _
    · refine (pairwise_destutter (fun h : UInt64 => h)
        (List.pairwise_insertionSort (· ≤ ·) _)).imp fun h => ?_
      exact UInt64.lt_of_le_of_ne h.1 h.2

theorem nodup_shingleSet (content : String) : (x.shingleSet content).Nodup := by
  refine (x.sorted_shingleSet content).imp fun {a b} hlt heq => ?_
  rw [heq] at hlt
  exact UInt64.lt_irrefl b hlt

end Extractor

end Spectral
