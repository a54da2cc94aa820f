import Spectral.Recall.Hidden
import Spectral.Ingest.Forget
import Spectral.Wing.Coherence
import Spectral.Recognition.Index

/-!
# The memory side of a brain

A `Brain` holds the memory store, with its wing cache, and beside it the recognition index, a
database of its own.  This file has the state and what reads it:

* `keyToId` — the id of a memory, made from its key.
* `BrainState.recallTopkFts` — full-text recall, re-ranked; it logs what it returns.
* `BrainState.recognize` — recognition without the traces of memories that are gone.
* `Returns` — a recall or a recognition comes back with a row.  `not_returns_of_gone` says when
  none does.

The brain is a writable one: the operations of a read-only one return an error and change
nothing.  What a brain calls and does not contain, its identity and its settings are collected
in `BrainSetup`.
-/

namespace Spectral

open Spectral.Lib

/-- The code a brain calls, its identity and its settings. -/
structure BrainSetup where
  env : Env
  pf : Platform
  en : Engine
  rc : Recognizer
  identity : BrainIdentity
  /-- `ranking::declarative_density`. -/
  declarativeDensity : String → ℚ
  /-- `fts_query_words`. -/
  ftsQueryWords : String → List String
  /-- `apply_reranking_pipeline_with_query`: the places of the hits it keeps, in its order, and
  their new scores. -/
  rerank : List MemoryHit → List String → List (ℕ × ℚ)
  ftsFusion : Bool := false
  recurrenceFeedback : Bool := false
  anticipatoryRecall : Bool := false

/-- The memory side of a `Brain`. -/
structure BrainState (L : WingCache) where
  cached : CachedStore L
  index : RecognitionIndex := {}

/-- `key_to_id`: the first eight bytes of the digest of the key. -/
def Env.keyToId (env : Env) (key : String) : String :=
  toHex ((env.blake3 (utf8 key)).toList.take 8)

/-- `visibility_to_str`. -/
def visibilityToStr : Visibility → String
  | .priv => "private"
  | .team => "team"
  | .org => "org"
  | .pub => "public"

/-! ## The access log -/

/-- A character of a JSON string. -/
def jsonEscape (c : Char) : List Char :=
  if c = '"' then ['\\', '"']
  else if c = '\\' then ['\\', '\\']
  else if c = '\n' then ['\\', 'n']
  else if c = '\r' then ['\\', 'r']
  else if c = '\t' then ['\\', 't']
  else if c.toNat = 8 then ['\\', 'b']
  else if c.toNat = 12 then ['\\', 'f']
  else if c.toNat < 32 then ['\\', 'u', '0', '0'] ++ hexByte (UInt8.ofNat c.toNat)
  else [c]

/-- `serde_json::to_string` of a list of ids. -/
def jsonIds (ids : List String) : String :=
  "[" ++ ",".intercalate (ids.map fun id => quotedId (String.ofList (id.toList.flatMap jsonEscape))) ++
    "]"

/-- `log_retrieval_event`, under a new id. -/
def Store.logRetrievalEvent (s : Store) (memoryIdsJson : String) : Store :=
  { s with
    retrievalEvents := s.retrievalEvents.insertOrIgnore
      ⟨(s.retrievalEvents.rows.map RetrievalEvent.id).foldr max 0 + 1, memoryIdsJson⟩ }

namespace BrainState

variable {L : WingCache}

section

variable (S : BrainSetup) (b : BrainState L)

/-- `get_memory`. -/
def getMemory (id : String) : Option MemoryRow := b.cached.store.getMemory id

/-- The store is another one, with the same memories. -/
def withStore (s : Store) : BrainState L := { b with cached := b.cached.kept s }

/-- One operation of the store. -/
def applyStore (call : CachedCall) : BrainState L :=
  { b with cached := b.cached.apply S.env S.pf call }

/-! ## Recall -/

/-- The candidates of `recall_topk_fts`, re-ranked and cut short. -/
def topkResults (words : List String) (k fetchMult : ℕ) (visibility : Visibility) :
    List MemoryHit :=
  let candidates := (b.cached.store.ftsSearchScoped S.en S.pf S.ftsFusion words
    (k * max fetchMult 1) visibility).filter fun m => (strToVis m.visibility).allows visibility
  ((S.rerank candidates words).filterMap fun p =>
    candidates[p.1]?.map fun hit => { hit with signalScore := p.2 }).take k

/-- `recall_topk_fts`. -/
def recallTopkFts (query : String) (k fetchMult : ℕ) (visibility : Visibility) :
    BrainState L × List MemoryHit :=
  let words := S.ftsQueryWords query
  if words = [] then (b, [])
  else
    let results := b.topkResults S words k fetchMult visibility
    let logged := b.withStore
      (b.cached.store.logRetrievalEvent (jsonIds (results.map MemoryHit.id)))
    if results ≠ [] ∧ S.anticipatoryRecall = true then
      (logged, results ++ logged.cached.store.anticipated visibility results)
    else (logged, results)

/-! ## Recognition -/

/-- `drop_dangling_traces`: no trace, evidence or verdict names a memory that is gone. -/
def dropDanglingTraces (result : RecognitionResult) : RecognitionResult :=
  let dangling := (result.traces.filter fun t => (b.getMemory t.memoryId).isNone).map
    TraceMatch.memoryId
  if dangling = [] then result
  else
    { result with
      traces := result.traces.filter fun t => (b.getMemory t.memoryId).isSome
      evidence := result.evidence.filter fun e => decide (e.memoryId ∉ dangling)
      verdict := match result.verdict with
        | .recognized id => if id ∈ dangling then .familiar else .recognized id
        | verdict => verdict }

/-- `recognize`. -/
def recognize (stimulus : String) : RecognitionResult :=
  b.dropDanglingTraces (b.index.recognize S.rc stimulus)

end

end BrainState

/-! ## Where hits come from -/

/-- The hit is of a memory of the store. -/
def Store.Stored (s : Store) (hit : MemoryHit) : Prop :=
  ∃ r ∈ s.memories, hit.id = r.id ∧ hit.key = r.key

namespace Store

variable {s : Store} {en : Engine} {pf : Platform} {fusion : Bool} {hit : MemoryHit}

theorem stored_memoryHitFromRow {r : MemoryRow} (h : r ∈ s.memories) (hits : ℕ) :
    s.Stored (memoryHitFromRow hits r) := ⟨r, h, rfl, rfl⟩

theorem stored_of_mem_ftsSearchScoped {queryWords : List String} {maxResults : ℕ}
    {visibility : Visibility}
    (h : hit ∈ s.ftsSearchScoped en pf fusion queryWords maxResults visibility) : s.Stored hit := by
  obtain ⟨r, hr, rfl, -⟩ := mem_ftsSearchScoped h
  exact stored_memoryHitFromRow hr 0

theorem stored_of_mem_fingerprintSearch {wing hall : String} {hashes : List String}
    {maxResults : ℕ} (h : hit ∈ s.fingerprintSearch wing hall hashes maxResults) :
    s.Stored hit := by
  unfold fingerprintSearch at h
  split at h
  · exact absurd h List.not_mem_nil
  · obtain ⟨p, -, hrow⟩ := List.mem_filterMap.1 ((List.mem_insertionSort _).1 h)
    obtain ⟨r, hget, rfl⟩ := Option.map_eq_some_iff.1 hrow
    exact stored_memoryHitFromRow (getMemory_eq_some.1 hget).1 p.2

theorem stored_of_mem_anticipated {visibility : Visibility} {results : List MemoryHit}
    (h : hit ∈ s.anticipated visibility results) : s.Stored hit := by
  obtain ⟨r, hr, rfl, -⟩ := mem_anticipated_iff.1 h
  exact stored_memoryHitFromRow hr 0

end Store

namespace CachedStore

variable {L : WingCache} {c : CachedStore L} {en : Engine} {pf : Platform} {fusion : Bool}
  {hit : MemoryHit}

/-- A coherent cache serves memories of the store. -/
theorem stored_of_mem_wingSearch (hc : c.Coherent) {toLowercase : String → String} {wing : String}
    {queryTerms : List String} {maxResults : ℕ}
    (h : hit ∈ (c.wingSearch toLowercase wing queryTerms maxResults).2) : c.store.Stored hit := by
  rw [wingSearch_of_coherent hc, rankWing, boostTerms_eq_insertionSort] at h
  have hrow := (List.mem_insertionSort _).1 (List.mem_of_mem_take h)
  obtain ⟨r, hr, -, rfl⟩ := Store.mem_wingRows.1 hrow
  exact Store.stored_memoryHitFromRow hr 0

/-- **Every way to recall** returns memories of the store. -/
theorem stored_of_mem_hits (hc : c.Coherent) (path : RecallPath)
    (h : hit ∈ path.hits en pf fusion c) : c.store.Stored hit := by
  have hsearch : ∀ userMsg wing hall config,
      ∀ hit ∈ (c.search en pf fusion userMsg wing hall config).2.1, c.store.Stored hit :=
    forall_mem_search (fun _ _ _ => Store.stored_of_mem_ftsSearchScoped)
      (fun _ _ _ _ _ => Store.stored_of_mem_fingerprintSearch)
      fun _ _ _ _ => stored_of_mem_wingSearch hc
  cases path with
  | ftsSearch queryWords maxResults visibility => exact Store.stored_of_mem_ftsSearchScoped h
  | fingerprintSearch wing hall hashes maxResults => exact Store.stored_of_mem_fingerprintSearch h
  | wingSearch wing queryTerms maxResults => exact stored_of_mem_wingSearch hc h
  | search userMsg wing hall config => exact hsearch userMsg wing hall config hit h
  | recallAt config query contextVisibility now =>
    simp only [RecallPath.hits, recallAt, memories_retrieve] at h
    obtain ⟨m, hm, rfl⟩ := List.mem_map.1 h
    have hin := (List.mem_filter.1 hm).1
    split at hin
    · exact absurd hin List.not_mem_nil
    · exact hsearch _ _ _ _ m hin
  | appendAnticipated results visibility => exact Store.stored_of_mem_anticipated h

end CachedStore

namespace BrainState

variable {L : WingCache} {S : BrainSetup} {b : BrainState L} {hit : MemoryHit}

/-- Full-text recall returns memories of the store. -/
theorem stored_of_mem_recallTopkFts {query : String} {k fetchMult : ℕ} {visibility : Visibility}
    (h : hit ∈ (b.recallTopkFts S query k fetchMult visibility).2) : b.cached.store.Stored hit := by
  have hresults : ∀ words, ∀ hit ∈ b.topkResults S words k fetchMult visibility,
      b.cached.store.Stored hit := by
    intro words hit hhit
    obtain ⟨p, -, hplace⟩ := List.mem_filterMap.1 (List.mem_of_mem_take hhit)
    obtain ⟨candidate, hcandidate, rfl⟩ := Option.map_eq_some_iff.1 hplace
    have hfts := (List.mem_filter.1 (List.mem_of_getElem? hcandidate)).1
    have hstored : b.cached.store.Stored candidate := Store.stored_of_mem_ftsSearchScoped hfts
    exact hstored
  unfold recallTopkFts at h
  dsimp only at h
  split at h
  · exact absurd h List.not_mem_nil
  · split at h
    · rcases List.mem_append.1 h with h | h
      · exact hresults _ hit h
      · exact Store.stored_of_mem_anticipated h
    · exact hresults _ hit h

/-- Dropping dangling traces adds nothing. -/
theorem names_of_dropDanglingTraces {result : RecognitionResult} {id : String}
    (h : (b.dropDanglingTraces result).Names id) : result.Names id := by
  unfold dropDanglingTraces at h
  dsimp only at h
  split at h
  · exact h
  · rcases h with ⟨t, ht, rfl⟩ | ⟨e, he, rfl⟩ | hverdict
    · exact Or.inl ⟨t, (List.mem_filter.1 ht).1, rfl⟩
    · exact Or.inr (Or.inl ⟨e, (List.mem_filter.1 he).1, rfl⟩)
    · refine Or.inr (Or.inr ?_)
      dsimp only at hverdict
      split at hverdict
      · rename_i id' hid'
        split at hverdict
        · cases hverdict
        · rwa [hid']
      · exact hverdict

/-- A call that reads memories or traces of them. -/
inductive Query where
  | recallBy (path : RecallPath)
  | recallTopkFts (query : String) (k fetchMult : ℕ) (visibility : Visibility)
  | recognize (stimulus : String)

/-- The call returns the row. -/
def Returns (S : BrainSetup) (b : BrainState L) (r : MemoryRow) : Query → Prop
  | .recallBy path =>
    ∃ hit ∈ path.hits S.en S.pf S.ftsFusion b.cached, hit.id = r.id ∨ hit.key = r.key
  | .recallTopkFts query k fetchMult visibility =>
    ∃ hit ∈ (b.recallTopkFts S query k fetchMult visibility).2, hit.id = r.id ∨ hit.key = r.key
  | .recognize stimulus => (b.recognize S stimulus).Names r.id

/-- **A row that is gone is not returned**, from the store through a coherent cache, nor from an
index that has no residue of it. -/
theorem not_returns_of_gone {r : MemoryRow} (hc : b.cached.Coherent)
    (hgone : ∀ r' ∈ b.cached.store.memories, r'.id ≠ r.id ∧ r'.key ≠ r.key)
    (hindex : ¬ b.index.Residue r.id) (q : Query) : ¬ b.Returns S r q := by
  have hnone : ∀ hit, b.cached.store.Stored hit → ¬ (hit.id = r.id ∨ hit.key = r.key) := by
    rintro hit ⟨r', hr', hid, hkey⟩
    rw [hid, hkey, not_or]
    exact hgone r' hr'
  cases q with
  | recallBy path =>
    rintro ⟨hit, hhit, hsame⟩
    exact hnone hit (CachedStore.stored_of_mem_hits hc path hhit) hsame
  | recallTopkFts query k fetchMult visibility =>
    rintro ⟨hit, hhit, hsame⟩
    exact hnone hit (stored_of_mem_recallTopkFts hhit) hsame
  | recognize stimulus =>
    intro hnames
    exact hindex (RecognitionIndex.residue_of_names (names_of_dropDanglingTraces hnames))

end BrainState

end Spectral
