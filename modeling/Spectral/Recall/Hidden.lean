import Spectral.Recall.Anticipated
import Spectral.Consolidation.Chains
import Spectral.Wing.Coherence

/-!
# Consolidated sources in recall

A consolidated source is hidden from recall.  Full-text search and fingerprint search filter
it in SQL; wing search, and what rests on it, and the anticipated memories do not.

* `RecallPath` — the ways to recall, with their arguments.
* `RecallPath.Screens` — when a way to recall returns no consolidated source: the two searches
  in SQL always; the others when every such source has enough others before it.
* `not_hidden_iff_screens` — that this says it exactly, for every state and every arguments.
* `merged_note_surfaces` — a merged note that every other way returns.
-/

namespace Spectral

open Spectral.Lib

/-! ## Wing search -/

namespace CachedStore

variable {L : WingCache} {en : Engine} {pf : Platform} {fusion : Bool} {c : CachedStore L}

/-- The rows a wing search ranks: the cached ones, or else those of the store. -/
def rowsRead (c : CachedStore L) (wing : String) : List MemoryHit :=
  (L.peek c.cache wing).getD (c.store.wingRows wing)

theorem wingSearch_eq_rankWing (toLowercase : String → String) (wing : String)
    (queryTerms : List String) (maxResults : ℕ) :
    (c.wingSearch toLowercase wing queryTerms maxResults).2 =
      rankWing toLowercase queryTerms maxResults (c.rowsRead wing) := by
  unfold wingSearch rowsRead
  split
  · rename_i cached hcached
    rw [hcached, Option.getD_some]
  · rename_i hmiss
    rw [hmiss, Option.getD_none]

/-- Every row of the wing with the property has as many rows before it as are returned: rows
that mention more of the terms, or as many and are read earlier. -/
def CrowdsOut (c : CachedStore L) (toLowercase : String → String) (wing : String)
    (queryTerms : List String) (maxResults : ℕ) (P : MemoryHit → Prop) : Prop :=
  ∀ p ∈ (c.rowsRead wing).zipIdx, P p.1 →
    maxResults ≤ (c.rowsRead wing).zipIdx.countP fun q =>
      decide (Precedes (termMatches toLowercase (searchTerms toLowercase queryTerms)) q p)

/-- The boost is a stable sort, also when there are no terms. -/
theorem boostTerms_eq_insertionSort (toLowercase : String → String) (terms : List String)
    (rows : List MemoryHit) :
    boostTerms toLowercase terms rows = rows.insertionSort fun a b =>
      termMatches toLowercase terms b ≤ termMatches toLowercase terms a := by
  unfold boostTerms
  split
  · rename_i hnone
    have hsorted : rows.Pairwise fun a b =>
        termMatches toLowercase terms b ≤ termMatches toLowercase terms a :=
      List.pairwise_of_forall fun a b => by simp [hnone, termMatches]
    exact hsorted.insertionSort_eq.symm
  · rfl

theorem forall_mem_wingSearch_iff (toLowercase : String → String) (wing : String)
    (queryTerms : List String) (maxResults : ℕ) (P : MemoryHit → Prop) :
    (∀ hit ∈ (c.wingSearch toLowercase wing queryTerms maxResults).2, ¬ P hit) ↔
      c.CrowdsOut toLowercase wing queryTerms maxResults P := by
  rw [wingSearch_eq_rankWing, rankWing, boostTerms_eq_insertionSort,
    forall_mem_take_sort_iff _ _ fun hit => ¬ P hit]
  simp only [not_not]
  rfl

/-! ## Recall -/

variable {P : MemoryHit → Prop}

/-- When tier 1 finds nothing, the wing has to crowd out the sources. -/
theorem forall_mem_search_iff (hP : ∀ hit, P hit → c.store.Hidden hit.key) (userMsg : String)
    (wing hall : Option String) (config : TactConfig) :
    (∀ hit ∈ (c.search en pf fusion userMsg wing hall config).2.1, ¬ P hit) ↔
      c.tier1Hits pf wing hall config ≠ [] ∨ ∀ w ∈ wing,
        c.CrowdsOut pf.toLowercase w (extractQueryTerms en pf userMsg) config.maxResults P := by
  have hfts : ∀ (s : Store) words n, s = c.store →
      ∀ hit ∈ s.ftsSearch en pf fusion words n, ¬ P hit := by
    rintro s words n rfl hit hhit hp
    exact Store.not_hidden_of_mem_ftsSearchScoped hhit (hP hit hp)
  have htier3 : ∀ c' : CachedStore L, c'.store = c.store →
      ∀ hit ∈ (c'.tier3 en pf fusion userMsg config).1, ¬ P hit := by
    intro c' hstore hit hhit
    unfold tier3 at hhit
    dsimp only at hhit
    split at hhit
    · exact absurd hhit List.not_mem_nil
    · split at hhit
      · exact absurd hhit List.not_mem_nil
      · exact hfts c'.store _ _ hstore hit hhit
  unfold search
  dsimp only
  split
  · rename_i hsome
    refine iff_of_true (fun hit hhit => ?_) (Or.inl hsome)
    rcases mem_mergeDedup hhit with hone | htwo
    · -- a hit of the fingerprint search
      have hclean : ∀ w, hit ∈ c.tier1 pf w hall config → ¬ P hit := fun w hin hp =>
        Store.not_hidden_of_mem_fingerprintSearch hin (hP hit hp)
      unfold tier1Hits at hone
      cases hwing : tier1Wing wing hall config with
      | none => rw [hwing] at hone; exact absurd hone List.not_mem_nil
      | some w => rw [hwing] at hone; exact hclean w hone
    · exact hfts c.store _ _ rfl hit htwo
  · rename_i hnone
    rw [or_iff_right hnone]
    cases wing with
    | none => exact iff_of_true (htier3 c rfl) nofun
    | some w =>
      simp only [Option.mem_def, Option.some.injEq, forall_eq']
      rw [← forall_mem_wingSearch_iff]
      split
      · rfl
      · rename_i hempty
        rw [not_not] at hempty
        refine iff_of_true (htier3 _ store_wingSearch) ?_
        rw [hempty]
        exact fun hit hhit => absurd hhit List.not_mem_nil

/-- The memories of `retrieve` are those of `search`, or none for a short query. -/
theorem memories_retrieve (userMsg : String) (wingHint : Option String) (config : TactConfig) :
    (c.retrieve en pf fusion userMsg wingHint config).2.memories =
      if countWords en userMsg < config.minWords then []
      else (c.search en pf fusion userMsg ((detect en pf userMsg config.wingRules).or wingHint)
        (detect en pf userMsg config.hallRules) config).2.1 := by
  unfold retrieve
  split
  · rfl
  · dsimp only
    split
    · rename_i hnil
      exact hnil.symm
    · rfl

end CachedStore

/-! ## Every way to recall -/

/-- The default ways to recall. -/
inductive RecallPath where
  | ftsSearch (queryWords : List String) (maxResults : ℕ) (visibility : Visibility)
  | fingerprintSearch (wing hall : String) (hashes : List String) (maxResults : ℕ)
  | wingSearch (wing : String) (queryTerms : List String) (maxResults : ℕ)
  | search (userMsg : String) (wing hall : Option String) (config : TactConfig)
  | recallAt (config : TactConfig) (query : String) (contextVisibility : Visibility) (now : String)
  | appendAnticipated (results : List MemoryHit) (visibility : Visibility)

namespace RecallPath

variable {L : WingCache} (en : Engine) (pf : Platform) (fusion : Bool)

/-- What a way to recall returns, or appends to the results of another one. -/
def hits (c : CachedStore L) : RecallPath → List MemoryHit
  | ftsSearch queryWords maxResults visibility =>
    c.store.ftsSearchScoped en pf fusion queryWords maxResults visibility
  | fingerprintSearch wing hall hashes maxResults =>
    c.store.fingerprintSearch wing hall hashes maxResults
  | wingSearch wing queryTerms maxResults =>
    (c.wingSearch pf.toLowercase wing queryTerms maxResults).2
  | search userMsg wing hall config => (c.search en pf fusion userMsg wing hall config).2.1
  | recallAt config query contextVisibility now =>
    (c.recallAt en pf fusion config query contextVisibility now).2.1
  | appendAnticipated results visibility => c.store.anticipated visibility results

/-- **The condition.**  A wing search crowds out the consolidated sources of the wing, and so
does a recall that comes to it; of the recommendations, three others come first. -/
def Screens (c : CachedStore L) : RecallPath → Prop
  | ftsSearch _ _ _ => True
  | fingerprintSearch _ _ _ _ => True
  | wingSearch wing queryTerms maxResults =>
    c.CrowdsOut pf.toLowercase wing queryTerms maxResults fun hit => c.store.Hidden hit.key
  | search userMsg wing hall config =>
    c.tier1Hits pf wing hall config ≠ [] ∨ ∀ w ∈ wing,
      c.CrowdsOut pf.toLowercase w (extractQueryTerms en pf userMsg) config.maxResults
        fun hit => c.store.Hidden hit.key
  | recallAt config query contextVisibility _ =>
    countWords en query < config.minWords ∨
      c.tier1Hits pf (detect en pf query config.wingRules) (detect en pf query config.hallRules)
        config ≠ [] ∨
      ∀ w ∈ detect en pf query config.wingRules,
        c.CrowdsOut pf.toLowercase w (extractQueryTerms en pf query) config.maxResults
          fun hit => c.store.Hidden hit.key ∧
            (strToVis hit.visibility).allows contextVisibility = true
  | appendAnticipated results visibility =>
    ∀ past id, past ++ [id] <+: c.store.recommended results → c.store.HiddenId id →
      c.store.admissible visibility results id = true →
        Store.maxAnticipated ≤ (distinct (c.store.admissible visibility results) past).length

/-- **Hidden sources.**  A way to recall returns no consolidated source exactly when it meets
the condition. -/
theorem not_hidden_iff_screens (c : CachedStore L) (path : RecallPath) :
    (∀ hit ∈ path.hits en pf fusion c, ¬ c.store.Hidden hit.key) ↔ path.Screens en pf c := by
  cases path with
  | ftsSearch queryWords maxResults visibility =>
    exact iff_of_true (fun _ => Store.not_hidden_of_mem_ftsSearchScoped) trivial
  | fingerprintSearch wing hall hashes maxResults =>
    exact iff_of_true (fun _ => Store.not_hidden_of_mem_fingerprintSearch) trivial
  | wingSearch wing queryTerms maxResults =>
    exact CachedStore.forall_mem_wingSearch_iff _ _ _ _ fun hit => c.store.Hidden hit.key
  | search userMsg wing hall config =>
    exact CachedStore.forall_mem_search_iff (fun _ h => h) userMsg wing hall config
  | recallAt config query contextVisibility now =>
    simp only [hits, Screens, CachedStore.recallAt, CachedStore.memories_retrieve,
      Option.or_none]
    split
    · rename_i hshort
      exact iff_of_true (by simp) (Or.inl hshort)
    · rename_i hlong
      rw [or_iff_right hlong, ← CachedStore.forall_mem_search_iff fun _ h => h.1]
      simp only [List.mem_map, List.mem_filter]
      constructor
      · rintro h hit hhit ⟨hhid, hvis⟩
        exact h _ ⟨hit, ⟨hhit, hvis⟩, rfl⟩ hhid
      · rintro h hit ⟨m, ⟨hm, hvis⟩, rfl⟩ hhid
        exact h m hm ⟨hhid, hvis⟩
  | appendAnticipated results visibility =>
    simp only [hits, Screens, Store.mem_anticipated_iff]
    constructor
    · rintro h past id hpast ⟨r, hr, hhid, rfl⟩ hok
      by_contra hlt
      exact h _ ⟨r, hr, rfl, hok, past, hpast, not_le.1 hlt⟩ hhid
    · rintro h hit ⟨r, hr, rfl, hok, past, hpast, hlt⟩ hhid
      exact absurd (h past r.id hpast ⟨r, hr, hhid, rfl⟩ hok) (not_le.2 hlt)

/-! ## A source that surfaces -/

/-- The outside code on single lower-case words, for patterns that are such words. -/
def wordEngine : Engine where
  matchesFts _ query r := strContains r.content (withoutQuotes query)
  bm25Fts _ _ _ := 0
  matchesFtsRaw _ query r := strContains r.content (withoutQuotes query)
  bm25FtsRaw _ _ _ := 0
  isMatch pattern text := some (strContains text pattern)
  findIter _ text := [text]
  isWhitespace c := c.isWhitespace
  numDays _ _ := some 0

/-- Two notes of a wing, often retrieved together, of which the second is merged into the
first. -/
def mergedNotes : List CachedCall :=
  [⟨.write Store.mondayNote [], "2026-01-03 09:00:00"⟩,
    ⟨.write Store.tuesdayNote [], "2026-01-03 09:01:00"⟩,
    ⟨.otherTables { coRetrievalPairs := .ofList [⟨"0aa1", "0bb2", 2⟩] }, "2026-01-03 09:02:00"⟩,
    ⟨.consolidateInto ["tuesday"] "monday" .abortAll, "2026-01-03 09:03:00"⟩]

/-- The wing, the project the query names, and what goes with the first note. -/
def wingPaths (c : CachedStore wingCache) : List RecallPath :=
  [.wingSearch "work" [] 10, .search "work" (some "work") none {},
    .recallAt { wingRules := [("work", "work")] } "work" .priv "2026-01-03 09:04:00",
    .appendAnticipated (c.store.ftsSearch wordEngine .plain false ["monday"] 5) .priv]

/-- **A merged note** is returned. -/
theorem merged_note_surfaces :
    let c := run (fun c : CachedStore wingCache => c.apply (Env.ofRecords [] []) .plain)
      { store := {}, cache := wingCache.empty } mergedNotes
    ∀ path ∈ wingPaths c, ∃ hit ∈ path.hits wordEngine .plain false c,
      hit.key = "tuesday" ∧ c.store.Hidden hit.key := by
  decide +kernel

end RecallPath

end Spectral
