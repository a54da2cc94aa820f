import Spectral.Ingest.Write
import Mathlib.Data.List.Sort
import Mathlib.Data.String.Basic

/-!
# The ingestion pipeline

`ingest_with` turns a text into a memory: it strips reference chains, classifies, puts the
memory into an episode and writes it.

* `cleanMemoryContextPrefixes` — the stripping.
* `Store.resolveEpisode` — the episode a memory joins, or opens; the preview of an episode is
  the beginning of a member's text.
* `Env.ingestWith` — the pipeline.  The fingerprints it generates are an argument.

The clock is read once; `since` is that reading less the gap between episodes.
-/

namespace Spectral

open Spectral.Lib

/-! ## Reference chains -/

section Clean

-- `char::is_whitespace`.
variable (isWhitespace : Char → Bool)

/-- `str::trim`. -/
def trim (text : List Char) : List Char :=
  ((text.dropWhile isWhitespace).reverse.dropWhile isWhitespace).reverse

/-- What follows the first `": "`. -/
def afterColon : List Char → Option (List Char)
  | ':' :: ' ' :: rest => some rest
  | _ :: rest => afterColon rest
  | [] => none

/-- Strip `[Memory context] - key:` from the front, again and again.  Each turn shortens the
text, so its length is enough fuel. -/
def stripPrefixes : ℕ → List Char → List Char
  | 0, text => text
  | fuel + 1, text =>
    if "[Memory context]".toList <+: text then
      match afterColon text with
      | some rest => stripPrefixes fuel (trim isWhitespace rest)
      | none => text
    else text

/-- `clean_memory_context_prefixes`: too short a rest is not taken. -/
def cleanMemoryContextPrefixes (content : String) : String :=
  let trimmed := trim isWhitespace content.toList
  let cleaned := String.ofList (stripPrefixes isWhitespace trimmed.length trimmed)
  if cleaned.utf8ByteSize < 20 then content else cleaned

end Clean

/-! ## Episodes -/

/-- `Episode`. -/
structure Episode where
  id : String
  startedAt : String
  endedAt : String
  memoryCount : ℕ
  wing : String
  summaryPreview : Option String
  deriving DecidableEq

/-- The episode of a row. -/
def EpisodeRow.episode (e : EpisodeRow) : Episode :=
  { id := e.id, startedAt := e.startedAt, endedAt := e.endedAt, memoryCount := e.memoryCount,
    wing := e.wing, summaryPreview := e.summaryPreview }

/-- The row of a new episode. -/
def Episode.row (e : Episode) (now : String) : EpisodeRow :=
  { id := e.id, startedAt := e.startedAt, endedAt := e.endedAt, memoryCount := e.memoryCount,
    wing := e.wing, summaryPreview := e.summaryPreview, updatedAt := now }

/-- The preview of a text: its first 200 characters. -/
def summaryPreviewOf (content : String) : String := String.ofList (content.toList.take 200)

/-- An episode that a memory joins.  A text that scores high becomes its preview, in place of
one that is short, or when it scores very high. -/
def Episode.join (e : Episode) (now content : String) (signalScore : ℚ) : Episode :=
  { e with
    memoryCount := e.memoryCount + 1
    endedAt := now
    summaryPreview := e.summaryPreview.map fun prev =>
      if 1 / 2 < signalScore ∧ (prev.utf8ByteSize < 10 ∨ 8 / 10 < signalScore) then
        summaryPreviewOf content
      else prev }

namespace Store

variable (s : Store)

/-- `ORDER BY ended_at DESC, id`. -/
def LaterFirst (a b : EpisodeRow) : Prop := b.endedAt < a.endedAt ∨ a.endedAt = b.endedAt ∧ a.id ≤ b.id

instance : DecidableRel LaterFirst := fun a b =>
  inferInstanceAs (Decidable (b.endedAt < a.endedAt ∨ a.endedAt = b.endedAt ∧ a.id ≤ b.id))

/-- `find_recent_episode`. -/
def findRecentEpisode (wing since : String) : Option Episode :=
  (((s.episodes.rows.filter fun e => e.wing = wing && decide (since < e.endedAt)).insertionSort
    LaterFirst).head?).map EpisodeRow.episode

/-- `write_episode`: an upsert that leaves the start and the wing of an episode. -/
def writeEpisode (now : String) (episode : Episode) : Store :=
  { s with
    episodes := (s.episodes.update
      (fun e => if e.id = episode.id then
        { e with
          endedAt := episode.endedAt
          memoryCount := episode.memoryCount
          summaryPreview := episode.summaryPreview
          updatedAt := now } else e)
      (by intro a b h; unfold SameKey at h ⊢; split at h <;> split at h <;> exact h)).insertOrIgnore
        (episode.row now) }

/-- The episode of a memory in `prepare_ingest`: the one the caller names or a recent one of the
wing, joined, or else a new one. -/
def resolveEpisode (now since id content wing : String) (signalScore : ℚ)
    (episodeId : Option String) : Store × String :=
  let opened (epId : String) : Store × String :=
    (s.writeEpisode now
      { id := epId, startedAt := now, endedAt := now, memoryCount := 1, wing,
        summaryPreview := some (summaryPreviewOf content) }, epId)
  let joined (e : Episode) : Store × String :=
    (s.writeEpisode now (e.join now content signalScore), e.id)
  match episodeId with
  | some epId =>
    match s.findRecentEpisode wing "1970-01-01 00:00:00" with
    | some e => if e.id = epId then joined e else opened epId
    | none => opened epId
  | none =>
    match s.findRecentEpisode wing since with
    | some e => joined e
    | none => opened ("ep-" ++ id)

/-- An episode touches no memory. -/
theorem memories_resolveEpisode (now since id content wing : String) (signalScore : ℚ)
    (episodeId : Option String) :
    (s.resolveEpisode now since id content wing signalScore episodeId).1.memories =
      s.memories := by
  unfold resolveEpisode
  dsimp only
  split <;> split <;> first | rfl | (split <;> rfl)

end Store

/-! ## The pipeline -/

/-- `IngestOpts`, with the creation time as it is printed. -/
structure IngestOpts where
  source : Option String := none
  deviceId : Option Bytes32 := none
  confidence : Option ℚ := none
  createdAt : Option String := none
  episodeId : Option String := none
  compactionTier : Option CompactionTier := none
  wing : Option String := none
  hall : Option String := none
  deriving DecidableEq

namespace Env

variable (env : Env) (isWhitespace : Char → Bool)

/-- `prepare_ingest`: the store with the memory's episode, and the memory. -/
def prepareIngest (now since : String) (s : Store) (id key content category visibility : String)
    (opts : IngestOpts) : Store × Memory :=
  let content := cleanMemoryContextPrefixes isWhitespace content
  let wing := opts.wing.getD (env.classifyWing key content category)
  let hall := (opts.hall.filter fun h => trim isWhitespace h.toList ≠ []).getD
    (env.classifyHall content)
  let signalScore := env.scoreMemory content hall
  let (s, episodeId) := s.resolveEpisode now since id content wing signalScore opts.episodeId
  (s, { id, key, content, wing := some wing, hall := some hall, signalScore, visibility,
        source := opts.source, deviceId := opts.deviceId, confidence := opts.confidence.getD 1,
        createdAt := opts.createdAt, episodeId := some episodeId,
        compactionTier := opts.compactionTier })

variable {env isWhitespace} in
/-- The memory of the pipeline has the text without its reference chain. -/
theorem content_prepareIngest {now since id key content category visibility : String} {s : Store}
    {opts : IngestOpts} :
    (env.prepareIngest isWhitespace now since s id key content category visibility opts).2.content =
      cleanMemoryContextPrefixes isWhitespace content := by
  unfold prepareIngest
  dsimp only

variable {env isWhitespace} in
/-- It is stored as visible as the caller says. -/
theorem visibility_prepareIngest {now since id key content category visibility : String} {s : Store}
    {opts : IngestOpts} :
    (env.prepareIngest isWhitespace now since s id key content category visibility
      opts).2.visibility = visibility := by
  unfold prepareIngest
  dsimp only

/-- `ingest_with`: a write that fails leaves the episode. -/
def ingestWith (now since : String) (s : Store) (id key content category visibility : String)
    (opts : IngestOpts) (fingerprints : List Fingerprint) : Store × Except String WriteOutcome :=
  let (s, memory) := env.prepareIngest isWhitespace now since s id key content category visibility opts
  match env.writeMemoryInTx now s memory fingerprints with
  | .ok (s', outcome) => (s', .ok outcome)
  | .error e => (s, .error e)

end Env

end Spectral
