import Spectral.Lib.Ranking
import Spectral.Wing.Cache
import Spectral.Ingest.Curate
import Spectral.Consolidation.Edges

/-!
# Recall

The ways a query reaches memories.

* `Store.ftsSearchScoped` — full-text search, over one index or two fused by rank.
* `Store.fingerprintSearch` — the memories of fingerprints that match hashes or a hall.
* `CachedStore.search` — the tiers of TACT: fingerprints, then the wing, then full text.
* `CachedStore.recallAt` — TACT behind the visibility filter and the decay of the scores.

The two searches in SQL leave out consolidated sources (`not_hidden_of_mem_ftsSearchScoped`,
`not_hidden_of_mem_fingerprintSearch`).

FTS5, the regular expression engine, Unicode and the calendar are third-party code: the
parameters collected in `Engine`.  Scores are exact rationals.
-/

namespace Spectral

open Spectral.Lib

/-- The code recall calls and does not contain. -/
structure Engine where
  /-- FTS5 `MATCH` on `memories_fts`, the stemmed index. -/
  matchesFts : Store → String → MemoryRow → Bool
  /-- `bm25(memories_fts, 1.0, 1.0, 0.5)`. -/
  bm25Fts : Store → String → MemoryRow → ℚ
  /-- FTS5 `MATCH` on `memories_fts_raw`, the unstemmed index. -/
  matchesFtsRaw : Store → String → MemoryRow → Bool
  /-- `bm25(memories_fts_raw)`. -/
  bm25FtsRaw : Store → String → MemoryRow → ℚ
  /-- `Regex::is_match`; `none` when the pattern does not compile. -/
  isMatch : String → String → Option Bool
  /-- `Regex::find_iter`. -/
  findIter : String → String → List String
  /-- `char::is_whitespace`. -/
  isWhitespace : Char → Bool
  /-- `(now - parse_created_at(text)).num_days()`; `none` when the text does not parse. -/
  numDays : String → String → Option ℤ

/-! ## Visibility -/

/-- `Visibility`. -/
inductive Visibility where
  | priv
  | team
  | org
  | pub
  deriving DecidableEq, Repr

/-- `visibility_rank`. -/
def Visibility.rank : Visibility → ℕ
  | .priv => 0
  | .team => 1
  | .org => 2
  | .pub => 3

/-- `Visibility::allows`. -/
def Visibility.allows (content context : Visibility) : Bool := decide (context.rank ≤ content.rank)

/-- `str_to_vis`. -/
def strToVis (s : String) : Visibility :=
  if s = "team" then .team else if s = "org" then .org else if s = "public" then .pub else .priv

/-- `VIS_RANK_SQL`. -/
def visRankSql (label : String) : ℕ :=
  if label = "team" then 1 else if label = "org" then 2 else if label = "public" then 3 else 0

/-- The predicate of `fts_search_scoped`; a private context has none. -/
def visClause (visibility : Visibility) (r : MemoryRow) : Bool :=
  visibility.rank = 0 || decide (visibility.rank ≤ visRankSql r.visibility)

/-- The predicate in SQL is `allows`. -/
theorem visClause_eq_allows (visibility : Visibility) (r : MemoryRow) :
    visClause visibility r = (strToVis r.visibility).allows visibility := by
  have hrank : (strToVis r.visibility).rank = visRankSql r.visibility := by
    unfold strToVis visRankSql
    split_ifs <;> rfl
  unfold visClause Visibility.allows
  rw [hrank]
  by_cases h : visibility.rank = 0 <;> simp [h]

/-! ## Full-text search -/

/-- `MAX_FTS_TERMS`. -/
def maxFtsTerms : ℕ := 64

/-- A word without its quotes. -/
def withoutQuotes (w : String) : String := String.ofList (w.toList.filter (· ≠ '"'))

def quoted (w : String) : String := "\"" ++ w ++ "\""

/-- The query of the stemmed index. -/
def ftsQuery (queryWords : List String) : String :=
  " OR ".intercalate ((queryWords.filter (· ≠ "")).map fun w => quoted (withoutQuotes w))

/-- A word for the unstemmed index, and its singular when it looks like a regular plural. -/
def rawForms (toLowercase : String → String) (w : String) : List String :=
  let cleaned := withoutQuotes w
  let lower := toLowercase cleaned
  let endsWith (suffix : String) : Bool := decide (suffix.toList <:+ lower.toList)
  if 3 < lower.utf8ByteSize && endsWith "s" && !endsWith "ss" && !endsWith "us" && !endsWith "is" then
    [quoted cleaned, quoted (String.ofList cleaned.toList.dropLast)]
  else [quoted cleaned]

/-- The query of the unstemmed index. -/
def rawQuery (toLowercase : String → String) (queryWords : List String) : String :=
  " OR ".intercalate ((queryWords.filter (· ≠ "")).flatMap (rawForms toLowercase))

namespace Store

variable (s : Store)

/-- One index: the rows that match, are not consolidated sources and are visible, the best
first, cut short. -/
def ftsChannel (matchesRow : MemoryRow → Bool) (bm25 : MemoryRow → ℚ) (visibility : Visibility)
    (limit : ℕ) : List MemoryRow :=
  ((s.memories.rows.filter fun r =>
      matchesRow r && decide (¬ s.Hidden r.key) && visClause visibility r).insertionSort
    fun a b => bm25 a < bm25 b ∨ bm25 a = bm25 b ∧ a.id ≤ b.id).take limit

theorem mem_ftsChannel {matchesRow : MemoryRow → Bool} {bm25 : MemoryRow → ℚ}
    {visibility : Visibility} {limit : ℕ} {r : MemoryRow}
    (h : r ∈ s.ftsChannel matchesRow bm25 visibility limit) :
    r ∈ s.memories ∧ ¬ s.Hidden r.key ∧ visClause visibility r = true := by
  have hr := (List.mem_insertionSort _).1 (List.mem_of_mem_take h)
  obtain ⟨hmem, hp⟩ := List.mem_filter.1 hr
  obtain ⟨hp, hvis⟩ := Bool.and_eq_true_iff.1 hp
  exact ⟨hmem, of_decide_eq_true (Bool.and_elim_right hp), hvis⟩

/-- The score of an id by its ranks in some lists (`RRF_K` is 60). -/
def rrfScore (lists : List (List String)) (id : String) : ℚ :=
  (lists.flatMap fun ids => ids.zipIdx.filterMap fun p =>
    if p.1 = id then some (1 / (60 + ((p.2 : ℚ) + 1))) else none).sum

/-- The ids of some lists, the highest score first, cut short. -/
def fuse (lists : List (List String)) (maxResults : ℕ) : List String :=
  (lists.flatten.dedup.insertionSort fun a b => rrfScore lists b < rrfScore lists a ∨
    rrfScore lists a = rrfScore lists b ∧ a ≤ b).take maxResults

theorem mem_fuse {lists : List (List String)} {maxResults : ℕ} {id : String}
    (h : id ∈ fuse lists maxResults) : ∃ ids ∈ lists, id ∈ ids := by
  have hid := (List.mem_insertionSort _).1 (List.mem_of_mem_take h)
  exact List.mem_flatten.1 (List.mem_dedup.1 hid)

/-- `fts_search_scoped`.  Whether the two indexes are fused is a setting of the store. -/
def ftsSearchScoped (en : Engine) (pf : Platform) (fusion : Bool) (queryWords : List String)
    (maxResults : ℕ) (visibility : Visibility) : List MemoryHit :=
  let words := queryWords.take maxFtsTerms
  let query := ftsQuery words
  if query = "" then []
  else if fusion = false then
    (s.ftsChannel (en.matchesFts s query) (en.bm25Fts s query) visibility maxResults).map
      (memoryHitFromRow 0)
  else
    let raw := rawQuery pf.toLowercase words
    let depth := max (maxResults * 2) 50
    let stemmed := s.ftsChannel (en.matchesFts s query) (en.bm25Fts s query) visibility depth
    let unstemmed := s.ftsChannel (en.matchesFtsRaw s raw) (en.bm25FtsRaw s raw) visibility depth
    (fuse [stemmed.map MemoryRow.id, unstemmed.map MemoryRow.id] maxResults).filterMap fun id =>
      (s.getMemory id).map (memoryHitFromRow 0)

/-- `fts_search`: a private context admits every label. -/
def ftsSearch (en : Engine) (pf : Platform) (fusion : Bool) (queryWords : List String)
    (maxResults : ℕ) : List MemoryHit :=
  s.ftsSearchScoped en pf fusion queryWords maxResults .priv

variable {s} {en : Engine} {pf : Platform} {fusion : Bool} {hit : MemoryHit}

/-- **Full-text search** finds visible memories that are not consolidated sources. -/
theorem mem_ftsSearchScoped {queryWords : List String} {maxResults : ℕ} {visibility : Visibility}
    (h : hit ∈ s.ftsSearchScoped en pf fusion queryWords maxResults visibility) :
    ∃ r ∈ s.memories, hit = memoryHitFromRow 0 r ∧ ¬ s.Hidden r.key ∧
      visClause visibility r = true := by
  unfold ftsSearchScoped at h
  dsimp only at h
  split at h
  · exact absurd h List.not_mem_nil
  · split at h
    · obtain ⟨r, hr, rfl⟩ := List.mem_map.1 h
      obtain ⟨hmem, hfound⟩ := mem_ftsChannel s hr
      exact ⟨r, hmem, rfl, hfound⟩
    · obtain ⟨id, hid, hrow⟩ := List.mem_filterMap.1 h
      obtain ⟨r, hget, rfl⟩ := Option.map_eq_some_iff.1 hrow
      obtain ⟨hmem, rfl⟩ := getMemory_eq_some.1 hget
      -- the id comes from a row of one of the indexes, which is this one
      obtain ⟨ids, hids, hin⟩ := mem_fuse hid
      have hchannel : ∀ {matchesRow bm25 limit},
          r.id ∈ (s.ftsChannel matchesRow bm25 visibility limit).map MemoryRow.id →
            ¬ s.Hidden r.key ∧ visClause visibility r = true := by
        intro matchesRow bm25 limit hmapped
        obtain ⟨r', hr', heq⟩ := List.mem_map.1 hmapped
        obtain ⟨hmem', hfound⟩ := mem_ftsChannel s hr'
        rwa [eq_of_id hmem' hmem heq] at hfound
      refine ⟨r, hmem, rfl, ?_⟩
      rcases List.mem_pair.1 hids with rfl | rfl
      · exact hchannel hin
      · exact hchannel hin

theorem not_hidden_of_mem_ftsSearchScoped {queryWords : List String} {maxResults : ℕ}
    {visibility : Visibility}
    (h : hit ∈ s.ftsSearchScoped en pf fusion queryWords maxResults visibility) :
    ¬ s.Hidden hit.key := by
  obtain ⟨r, -, rfl, hnot, -⟩ := mem_ftsSearchScoped h
  exact hnot

/-! ## Fingerprint search -/

variable (s) in
/-- A row that a search with counts leaves out: a consolidated source. -/
def HiddenId (id : String) : Prop := ∃ r ∈ s.memories.rows, s.Hidden r.key ∧ r.id = id

instance (id : String) : Decidable (s.HiddenId id) :=
  inferInstanceAs (Decidable (∃ r ∈ s.memories.rows, s.Hidden r.key ∧ r.id = id))

variable (s) in
/-- `matched_pairs`: the distinct pairs of memories a fingerprint of the wing links, that
matches a hash or the hall. -/
def matchedPairs (wing hall : String) (hashes : List String) : List (String × String) :=
  let byHash := s.fingerprints.rows.filter fun f => f.wing = wing && decide (f.hash ∈ hashes)
  let byHall := s.fingerprints.rows.filter fun f =>
    f.wing = wing && (f.anchorHall = hall || f.targetHall = hall)
  ((byHash ++ byHall).map fun f => (f.anchorMemoryId, f.targetMemoryId)).dedup

variable (s) in
/-- `memory_scores`: how many of the pairs each memory is in, the most first, cut short. -/
def memoryScores (wing hall : String) (hashes : List String) (maxResults : ℕ) :
    List (String × ℕ) :=
  let pairs := s.matchedPairs wing hall hashes
  let ids := (pairs.map Prod.fst ++ pairs.map Prod.snd).filter fun id => decide (¬ s.HiddenId id)
  ((ids.dedup.map fun id => (id, ids.count id)).insertionSort
    fun a b => b.2 < a.2 ∨ a.2 = b.2 ∧ a.1 ≤ b.1).take maxResults

variable (s) in
/-- `fingerprint_search`. -/
def fingerprintSearch (wing hall : String) (hashes : List String) (maxResults : ℕ) :
    List MemoryHit :=
  if hashes = [] then []
  else
    ((s.memoryScores wing hall hashes maxResults).filterMap fun p =>
      (s.getMemory p.1).map (memoryHitFromRow p.2)).insertionSort
        fun a b => b.hits < a.hits ∨ a.hits = b.hits ∧ a.id ≤ b.id

/-- **Fingerprint search** finds memories that are not consolidated sources. -/
theorem not_hidden_of_mem_fingerprintSearch {wing hall : String} {hashes : List String}
    {maxResults : ℕ} (h : hit ∈ s.fingerprintSearch wing hall hashes maxResults) :
    ¬ s.Hidden hit.key := by
  unfold fingerprintSearch at h
  split at h
  · exact absurd h List.not_mem_nil
  · obtain ⟨p, hp, hrow⟩ := List.mem_filterMap.1 ((List.mem_insertionSort _).1 h)
    obtain ⟨r, hget, rfl⟩ := Option.map_eq_some_iff.1 hrow
    obtain ⟨hmem, hid⟩ := getMemory_eq_some.1 hget
    obtain ⟨id, hin, rfl⟩ := List.mem_map.1 ((List.mem_insertionSort _).1 (List.mem_of_mem_take hp))
    have hnot := (List.mem_filter.1 (List.mem_dedup.1 hin)).2
    exact fun hhid => of_decide_eq_true hnot ⟨r, hmem, hhid, hid⟩

end Store

/-! ## TACT -/

/-- `ALL_HALLS`. -/
def allHalls : List String := ["fact", "preference", "discovery", "advice", "event"]

/-- `TIME_BUCKETS`. -/
def timeBuckets : List String := ["same_day", "same_week", "same_month", "older"]

/-- `generate_query_hashes`. -/
def Platform.generateQueryHashes (pf : Platform) (hall wing : String) : List String :=
  let hashes := allHalls.flatMap fun targetHall => timeBuckets.flatMap fun bucket =>
    [pf.makeFingerprintHash hall targetHall wing bucket,
      pf.makeFingerprintHash targetHall hall wing bucket]
  (hashes.insertionSort (· ≤ ·)).dedup

/-- `TactConfig`. -/
structure TactConfig where
  minWords : ℕ := 1
  maxResults : ℕ := 5
  maxContextChars : ℕ := 24000
  wingRules : List (String × String) := []
  tier1RequiresHall : Bool := true
  hallRules : List (String × String) :=
    [("decided|chose|switching to|using|will use|agreed|locked in|decision|auth", "fact"),
      ("remember|preference|favourit|favorit|likes|prefers", "preference"),
      ("learned|discovered|found that|realized|breakthrough|roadmap|setup", "discovery"),
      ("recommend|should|advice|suggest|try using", "advice")]

/-- `RetrievalMethod`. -/
inductive RetrievalMethod where
  | fingerprint
  | fingerprintPlusFts
  | wingOnly
  | fts
  | skipped
  | empty
  deriving DecidableEq, Repr

/-- `TactResult`. -/
structure TactResult where
  method : RetrievalMethod
  wing : Option String := none
  hall : Option String := none
  memories : List MemoryHit := []
  contextBlock : String := ""

section Query

variable (en : Engine) (pf : Platform)

/-- `detect_wing` and `detect_hall`: the name of the first rule whose pattern matches. -/
def detect (msg : String) (rules : List (String × String)) : Option String :=
  (rules.find? fun rule => (en.isMatch rule.1 (pf.toLowercase msg)).getD false).map Prod.snd

/-- `extract_query_terms`. -/
def extractQueryTerms (msg : String) : List String :=
  (en.findIter "[a-z0-9]+" (pf.toLowercase msg)).filter fun t => decide (2 < t.utf8ByteSize)

/-- `extract_fts_words`. -/
def extractFtsWords (msg : String) : List String := en.findIter "\\w+" (pf.toLowercase msg)

/-- `msg.split_whitespace().count()`. -/
def countWords (msg : String) : ℕ :=
  ((msg.toList.splitOnP fun c => en.isWhitespace c).filter fun w => w ≠ []).length

end Query

/-- `merge_dedup`. -/
def mergeDedup (primary secondary : List MemoryHit) (max : ℕ) : List MemoryHit :=
  go [] (primary ++ secondary)
where
  /-- What is merged so far, and the hits to come. -/
  go (merged : List MemoryHit) : List MemoryHit → List MemoryHit
    | [] => merged
    | hit :: hits =>
      if hit.id ∈ merged.map MemoryHit.id then go merged hits
      else if max ≤ merged.length + 1 then merged ++ [hit]
      else go (merged ++ [hit]) hits

theorem mem_mergeDedup {primary secondary : List MemoryHit} {max : ℕ} {hit : MemoryHit}
    (h : hit ∈ mergeDedup primary secondary max) : hit ∈ primary ∨ hit ∈ secondary := by
  have hgo : ∀ (hits merged : List MemoryHit), hit ∈ mergeDedup.go max merged hits →
      hit ∈ merged ∨ hit ∈ hits := by
    intro hits
    induction hits with
    | nil => exact fun merged h => Or.inl h
    | cons first hits ih =>
      intro merged h
      unfold mergeDedup.go at h
      split at h
      · exact (ih merged h).imp_right (List.mem_cons_of_mem first)
      · have hnew : hit ∈ merged ++ [first] → hit ∈ merged ∨ hit ∈ first :: hits := by
          intro h
          rcases List.mem_append.1 h with hin | hin
          · exact Or.inl hin
          · exact Or.inr (List.mem_cons.2 (Or.inl (List.mem_singleton.1 hin)))
        split at h
        · exact hnew h
        · rcases ih _ h with hin | hin
          · exact hnew hin
          · exact Or.inr (List.mem_cons_of_mem first hin)
  rcases hgo _ [] h with hnil | hin
  · exact absurd hnil List.not_mem_nil
  · exact List.mem_append.1 hin

/-! ## Prompt text -/

/-- The longest prefix of whole characters that has at most `n` bytes. -/
def takeBytes : ℕ → List Char → List Char
  | _, [] => []
  | n, c :: cs => if c.utf8Size ≤ n then c :: takeBytes (n - c.utf8Size) cs else []

/-- The entries of `build_context_bundle` from a running byte count on. -/
def bundleParts (maxChars : ℕ) : ℕ → List MemoryHit → List String
  | _, [] => []
  | charCount, m :: memories =>
    let entry := "[" ++ m.wing.getD "unknown" ++ "/" ++ m.hall.getD "unknown" ++ "] " ++ m.key ++
      ": " ++ m.content
    if maxChars < charCount + entry.utf8ByteSize then
      let remaining := maxChars - charCount
      if 50 < remaining then [String.ofList (takeBytes remaining entry.toList) ++ "..."] else []
    else entry :: bundleParts maxChars (charCount + entry.utf8ByteSize + 1) memories

/-- `format_context_block`. -/
def formatContextBlock (memories : List MemoryHit) (maxContextChars : ℕ) : String :=
  if memories = [] then ""
  else "\n--- MEMORY CONTEXT (via TACT) ---\n" ++
    "\n".intercalate (bundleParts maxContextChars 0 memories) ++ "\n--- END MEMORY CONTEXT ---\n"

/-! ## Tiers -/

namespace CachedStore

section

variable {L : WingCache} (en : Engine) (pf : Platform) (fusion : Bool) (c : CachedStore L)

/-- The wing tier 1 searches, if it runs. -/
def tier1Wing (wing hall : Option String) (config : TactConfig) : Option String :=
  match wing, hall, config.tier1RequiresHall with
  | some w, some _, _ => some w
  | some w, none, false => some w
  | _, _, _ => none

/-- Tier 1: the fingerprints of the wing. -/
def tier1 (w : String) (hall : Option String) (config : TactConfig) : List MemoryHit :=
  let anchors := match hall with
    | some h => [h]
    | none => allHalls
  let hashes := ((anchors.flatMap fun a => pf.generateQueryHashes a w).insertionSort (· ≤ ·)).dedup
  c.store.fingerprintSearch w (anchors.headD "") hashes config.maxResults

/-- What tier 1 finds, if it runs. -/
def tier1Hits (wing hall : Option String) (config : TactConfig) : List MemoryHit :=
  (tier1Wing wing hall config).elim [] fun w => c.tier1 pf w hall config

/-- Tier 3: full text. -/
def tier3 (userMsg : String) (config : TactConfig) : List MemoryHit × RetrievalMethod :=
  let queryWords := extractFtsWords en pf userMsg
  let results := if queryWords = [] then []
    else c.store.ftsSearch en pf fusion queryWords config.maxResults
  if results = [] then ([], .empty) else (results, .fts)

/-- `search`: the first tier that finds something answers. -/
def search (userMsg : String) (wing hall : Option String) (config : TactConfig) :
    CachedStore L × List MemoryHit × RetrievalMethod :=
  let results := c.tier1Hits pf wing hall config
  if results ≠ [] then
    let ftsResults :=
      c.store.ftsSearch en pf fusion (extractFtsWords en pf userMsg) config.maxResults
    (c, mergeDedup results ftsResults config.maxResults, .fingerprint)
  else match wing with
    | some w =>
      let (c, results) :=
        c.wingSearch pf.toLowercase w (extractQueryTerms en pf userMsg) config.maxResults
      if results ≠ [] then (c, results, .wingOnly) else (c, c.tier3 en pf fusion userMsg config)
    | none => (c, c.tier3 en pf fusion userMsg config)

/-- `retrieve_inner`, with the prompt block. -/
def retrieve (userMsg : String) (wingHint : Option String) (config : TactConfig) :
    CachedStore L × TactResult :=
  if countWords en userMsg < config.minWords then (c, { method := .skipped })
  else
    let wing := (detect en pf userMsg config.wingRules).or wingHint
    let hall := detect en pf userMsg config.hallRules
    let (c, memories, method) := c.search en pf fusion userMsg wing hall config
    if memories = [] then (c, { method := .empty, wing, hall })
    else (c, { method, wing, hall, memories,
               contextBlock := formatContextBlock memories config.maxContextChars })

/-! ## Recall -/

/-- `decayed_signal_score`. -/
def decayedSignalScore (rawScore : ℚ) (createdAt : String) (lastReinforcedAt : Option String)
    (now : String) : ℚ :=
  match en.numDays now (lastReinforcedAt.getD createdAt) with
  | none => rawScore
  | some days =>
    let daysSince : ℚ := (max days 0 : ℤ)
    rawScore * max (1 - daysSince / 7 * (1 / 100)) (1 / 2)

/-- A hit with its score decayed. -/
def decayed (now : String) (hit : MemoryHit) : MemoryHit :=
  { hit with
    signalScore := decayedSignalScore en hit.signalScore hit.createdAt hit.lastReinforcedAt now }

/-- `recall_at`: the memories it returns and, in the TACT result, formats for a prompt. -/
def recallAt (config : TactConfig) (query : String) (contextVisibility : Visibility)
    (now : String) : CachedStore L × List MemoryHit × TactResult :=
  let (c, tact) := c.retrieve en pf fusion query none config
  let memoryHits := (tact.memories.filter fun m =>
    (strToVis m.visibility).allows contextVisibility).map (decayed en now)
  (c, memoryHits, { tact with
    memories := memoryHits
    contextBlock := formatContextBlock memoryHits config.maxContextChars })

end

/-! ## Where hits come from -/

section

variable {L : WingCache} {en : Engine} {pf : Platform} {fusion : Bool} {c : CachedStore L}
  {Q : MemoryHit → Prop}

/-- What the three searches find have in common, every tier has. -/
theorem forall_mem_search
    (hfts : ∀ words n, ∀ hit ∈ c.store.ftsSearch en pf fusion words n, Q hit)
    (hfingerprint : ∀ wing hall hashes n, ∀ hit ∈ c.store.fingerprintSearch wing hall hashes n, Q hit)
    (hwing : ∀ wing terms n, ∀ hit ∈ (c.wingSearch pf.toLowercase wing terms n).2, Q hit)
    (userMsg : String) (wing hall : Option String) (config : TactConfig) :
    ∀ hit ∈ (c.search en pf fusion userMsg wing hall config).2.1, Q hit := by
  have htier1 : ∀ hit ∈ c.tier1Hits pf wing hall config, Q hit := by
    intro hit hhit
    unfold tier1Hits at hhit
    cases hwing : tier1Wing wing hall config with
    | none => rw [hwing] at hhit; exact absurd hhit List.not_mem_nil
    | some w => rw [hwing] at hhit; exact hfingerprint _ _ _ _ hit hhit
  have htier3 : ∀ c' : CachedStore L, c'.store = c.store →
      ∀ hit ∈ (c'.tier3 en pf fusion userMsg config).1, Q hit := by
    intro c' hstore hit hhit
    unfold tier3 at hhit
    rw [hstore] at hhit
    dsimp only at hhit
    split at hhit
    · exact absurd hhit List.not_mem_nil
    · split at hhit
      · exact absurd hhit List.not_mem_nil
      · exact hfts _ _ hit hhit
  intro hit hhit
  unfold search at hhit
  dsimp only at hhit
  split at hhit
  · rcases mem_mergeDedup hhit with hhit | hhit
    · exact htier1 hit hhit
    · exact hfts _ _ hit hhit
  · cases wing with
    | none => exact htier3 c rfl hit hhit
    | some w =>
      dsimp only at hhit
      split at hhit
      · exact hwing _ _ _ hit hhit
      · exact htier3 _ store_wingSearch hit hhit

end

end CachedStore

end Spectral
