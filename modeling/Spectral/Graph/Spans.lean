import Spectral.Graph.Names
import Spectral.Graph.Words
import Spectral.Lib.Greedy

/-!
# Where the mentions of a text are

`canonicalize` reports of each mention where it stands, in bytes, and of the words it could not
resolve which entity is nearest.

* `canonicalizeResult` — the whole result; `canonicalizeResult_mentions` leaves out the spans.
* `takenWindows` — the exact matches are a greedy choice among the windows, the longest first.
* `matched_eq` — the mentions: those of the chosen windows, and close words outside of them.
* `pairwise_disjoint`, `placed_of_mem_matched` — no two overlap, and each is a part of the text.
-/

namespace Spectral

open Spectral.Lib

/-- `MatchedMention`, with its `span` in bytes. -/
structure SpannedMention where
  mention : MatchedMention
  span : ℕ × ℕ
  deriving DecidableEq

/-- `NearestMatch`. -/
structure NearestMatch where
  canonical : String
  entityType : String
  score : ℚ
  deriving DecidableEq

/-- `UnresolvedMention`. -/
structure UnresolvedMention where
  mention : String
  span : ℕ × ℕ
  nearest : Option NearestMatch
  deriving DecidableEq

/-- `CanonicalizeResult`. -/
structure CanonicalizeResult where
  matched : List SpannedMention
  unresolved : List UnresolvedMention
  deriving DecidableEq

/-- Where `canonicalize` is: the words that belong to a mention, and the result so far. -/
structure Spotted where
  consumed : List Bool
  matched : List SpannedMention
  unresolved : List UnresolvedMention

/-- `max_alias_words`. -/
def TextLibrary.maxAliasWords (lib : TextLibrary) (o : Ontology) : ℕ :=
  (((lib.buildAliasIndex o).map AliasEntry.wordCount).max?).getD 1

/-- The bytes of a text from the start of a word to the end of a word. -/
def byteSpan (text : List Char) (first last : ℕ × ℕ) : ℕ × ℕ :=
  (byteOffset text first.1, byteOffset text last.2)

section

variable (env : Env) (lib : TextLibrary) (o : Ontology) (text : List Char) (words : List (ℕ × ℕ))

/-- The exact match of a window, which is so many words from a place on. -/
def exactMatch (window : ℕ × ℕ) : Option SpannedMention :=
  match words[window.2]?, words[window.2 + window.1 - 1]? with
  | some first, some last =>
    let candidate := slice text first.1 last.2
    ((lib.buildAliasIndex o).find? fun a => a.aliasLower = lib.toLowercase candidate).map fun entry =>
      { mention := env.matched candidate entry.entity .exact, span := byteSpan text first last }
  | _, _ => none

/-- One window of the first phase. -/
def spotWindow (m : Spotted) (window : ℕ × ℕ) : Spotted :=
  if ((m.consumed.drop window.2).take window.1).any id then m
  else
    match exactMatch env lib o text words window with
    | some mention =>
      { m with
        consumed := m.consumed.mapIdx fun i c =>
          c || decide (window.2 ≤ i ∧ i < window.2 + window.1)
        matched := m.matched ++ [mention] }
    | none => m

/-- One word of the second phase. -/
def spotWord (m : Spotted) (word : (ℕ × ℕ) × Bool) : Spotted :=
  let mention := slice text word.1.1 word.1.2
  if word.2 || decide (mention.utf8ByteSize < minWordLen) then m
  else
    match lib.bestFuzzyMatch o mention with
    | (score, some entity) =>
      if defaultFuzzyThreshold ≤ score then
        { m with
          matched := m.matched ++
            [{ mention := env.matched mention entity (.fuzzy score)
               span := byteSpan text word.1 word.1 }] }
      else if nearestThreshold ≤ score then
        { m with
          unresolved := m.unresolved ++
            [{ mention, span := byteSpan text word.1 word.1
               nearest := some
                { canonical := entity.canonical, entityType := entity.entityType, score } }] }
      else m
    | (_, none) => m

/-- The first phase. -/
def spotExact : Spotted :=
  (windows (lib.maxAliasWords o) words.length).foldl (spotWindow env lib o text words)
    { consumed := words.map fun _ => false, matched := [], unresolved := [] }

/-- The second phase. -/
def spotFuzzy (m : Spotted) : Spotted := (words.zip m.consumed).foldl (spotWord env lib o text) m

/-- `canonicalize`. -/
def canonicalizeResult : CanonicalizeResult :=
  let words := lib.extractWords text
  let spotted := spotFuzzy env lib o text words (spotExact env lib o text words)
  { matched := spotted.matched, unresolved := spotted.unresolved }

end

variable {env : Env} {lib : TextLibrary} {o : Ontology} {text : List Char} {words : List (ℕ × ℕ)}

/-! ## The mentions alone -/

/-- The mentions, without what is reported beside them. -/
def Spotted.toMentions (m : Spotted) : Mentions :=
  { consumed := m.consumed, matched := m.matched.map SpannedMention.mention }

theorem toMentions_spotWindow (m : Spotted) (window : ℕ × ℕ) :
    (spotWindow env lib o text words m window).toMentions =
      exactWindow env lib text words (lib.buildAliasIndex o) m.toMentions window := by
  obtain ⟨size, start⟩ := window
  unfold spotWindow exactWindow exactMatch
  by_cases hany : ((m.consumed.drop start).take size).any id = true
  · have hany' : ((m.toMentions.consumed.drop start).take size).any id = true := hany
    dsimp only
    rw [if_pos hany, if_pos hany']
  · have hany' : ¬ ((m.toMentions.consumed.drop start).take size).any id = true := hany
    dsimp only
    rw [if_neg hany, if_neg hany']
    cases words[start]? with
    | none => rfl
    | some first =>
      cases words[start + size - 1]? with
      | none => rfl
      | some last =>
        dsimp only
        cases (lib.buildAliasIndex o).find? fun a =>
            a.aliasLower = lib.toLowercase (slice text first.1 last.2) with
        | none => rfl
        | some entry => simp [Spotted.toMentions]

theorem toMentions_spotWord (m : Spotted) (word : (ℕ × ℕ) × Bool) :
    (spotWord env lib o text m word).toMentions =
      fuzzyWord env lib o text m.toMentions word := by
  unfold spotWord fuzzyWord
  dsimp only
  split
  · rfl
  · rcases lib.bestFuzzyMatch o (slice text word.1.1 word.1.2) with ⟨score, _ | entity⟩
    · rfl
    · dsimp only
      split
      · simp [Spotted.toMentions]
      · split <;> rfl

/-- **The mentions are those of `canonicalize`**, each with its span. -/
theorem canonicalizeResult_mentions (env : Env) (lib : TextLibrary) (o : Ontology)
    (text : List Char) : (canonicalizeResult env lib o text).matched.map SpannedMention.mention =
      canonicalize env lib o text := by
  have hexact : (spotExact env lib o text (lib.extractWords text)).toMentions =
      exactPhase env lib o text (lib.extractWords text) := by
    unfold spotExact exactPhase
    exact (List.foldl_hom Spotted.toMentions
      (fun m window => (toMentions_spotWindow m window).symm)).symm
  have hfuzzy : (spotFuzzy env lib o text (lib.extractWords text)
      (spotExact env lib o text (lib.extractWords text))).toMentions =
      fuzzyPhase env lib o text (lib.extractWords text)
        (spotExact env lib o text (lib.extractWords text)).toMentions := by
    unfold spotFuzzy fuzzyPhase
    exact (List.foldl_hom Spotted.toMentions
      (fun m word => (toMentions_spotWord m word).symm)).symm
  rw [hexact] at hfuzzy
  exact congrArg Mentions.matched hfuzzy

/-! ## The windows that are taken -/

/-- A window covers a word. -/
def covers (window : ℕ × ℕ) (i : ℕ) : Bool := decide (window.2 ≤ i ∧ i < window.2 + window.1)

/-- Two windows have a word in common. -/
def overlaps (w w' : ℕ × ℕ) : Bool := decide (w.2 < w'.2 + w'.1 ∧ w'.2 < w.2 + w.1)

/-- So many words, at least one, of so many that there are. -/
def IsWindow (count : ℕ) (window : ℕ × ℕ) : Prop := 0 < window.1 ∧ window.2 + window.1 ≤ count

theorem mem_windows {maxAliasWords count : ℕ} {window : ℕ × ℕ} :
    window ∈ windows maxAliasWords count ↔ IsWindow count window ∧ window.1 ≤ maxAliasWords := by
  obtain ⟨size, start⟩ := window
  simp only [windows, List.mem_flatMap, List.mem_reverse, List.mem_range, List.mem_map,
    Prod.mk.injEq, IsWindow]
  constructor
  · rintro ⟨k, hk, i, hi, rfl, rfl⟩
    omega
  · rintro ⟨⟨hpos, hle⟩, hmax⟩
    exact ⟨size - 1, by omega, start, by omega, by omega, rfl⟩

/-- The longer windows come first. -/
theorem pairwise_windows (maxAliasWords count : ℕ) :
    (windows maxAliasWords count).Pairwise fun w w' => w'.1 ≤ w.1 := by
  unfold windows
  rw [List.pairwise_flatMap]
  refine ⟨fun size _ => ?_, ?_⟩
  · rw [List.pairwise_map]
    exact List.pairwise_of_forall fun _ _ => le_rfl
  · rw [List.pairwise_reverse]
    refine List.pairwise_lt_range.imp fun {size size'} hlt => ?_
    simp only [List.mem_map]
    rintro _ ⟨_, -, rfl⟩ _ ⟨_, -, rfl⟩
    dsimp only
    omega

section

variable (env lib o text words)

/-- The windows whose mentions are taken. -/
def takenWindows : List (ℕ × ℕ) :=
  greedy overlaps (fun window => (exactMatch env lib o text words window).isSome)
    (windows (lib.maxAliasWords o) words.length)

/-- Where the first phase is, when it has taken some windows. -/
def spottedWith (taken : List (ℕ × ℕ)) : Spotted :=
  { consumed := (List.range words.length).map fun i => taken.any fun window => covers window i
    matched := taken.filterMap (exactMatch env lib o text words)
    unresolved := [] }

end

variable {taken : List (ℕ × ℕ)} {window : ℕ × ℕ}

theorem any_drop_take {flags : List Bool} {start size : ℕ} :
    ((flags.drop start).take size).any id = true ↔
      ∃ i, start ≤ i ∧ i < start + size ∧ flags[i]? = some true := by
  simp only [List.any_eq_true, List.mem_iff_getElem?, List.getElem?_take, List.getElem?_drop]
  constructor
  · rintro ⟨b, ⟨k, hk⟩, rfl⟩
    split at hk
    · exact ⟨start + k, by omega, by omega, hk⟩
    · cases hk
  · rintro ⟨i, hle, hlt, hi⟩
    refine ⟨true, ⟨i - start, ?_⟩, rfl⟩
    rw [if_pos (by omega), Nat.add_sub_cancel' hle, hi]

/-- A word is consumed where a window that was taken covers it. -/
theorem consumed_iff {i : ℕ} : (spottedWith env lib o text words taken).consumed[i]? = some true ↔
    i < words.length ∧ ∃ w ∈ taken, covers w i = true := by
  rw [spottedWith, List.getElem?_map, Option.map_eq_some_iff]
  simp only [List.getElem?_eq_some_iff, List.length_range, List.getElem_range, List.any_eq_true]
  constructor
  · rintro ⟨_, ⟨hlt, rfl⟩, hcovers⟩
    exact ⟨hlt, hcovers⟩
  · rintro ⟨hlt, hcovers⟩
    exact ⟨i, ⟨hlt, rfl⟩, hcovers⟩

/-- A word of the window is consumed where a window that was taken overlaps with it. -/
theorem any_consumed (htaken : ∀ w ∈ taken, IsWindow words.length w)
    (hwindow : IsWindow words.length window) :
    (((spottedWith env lib o text words taken).consumed.drop window.2).take window.1).any id =
      taken.any (overlaps window) := by
  rw [Bool.eq_iff_iff, any_drop_take, List.any_eq_true]
  simp only [consumed_iff, covers, overlaps, decide_eq_true_eq]
  constructor
  · rintro ⟨i, hle, hlt, -, w, hw, hcovers⟩
    exact ⟨w, hw, by omega⟩
  · rintro ⟨w, hw, hoverlap⟩
    have hw' := htaken w hw
    unfold IsWindow at hw' hwindow
    -- the later of the two starts is a word of both
    exact ⟨max window.2 w.2, by omega, by omega, by omega, w, hw, by omega⟩

/-- One window: it is taken, or nothing happens. -/
theorem spotWindow_spottedWith (htaken : ∀ w ∈ taken, IsWindow words.length w)
    (hwindow : IsWindow words.length window) :
    spotWindow env lib o text words (spottedWith env lib o text words taken) window =
      spottedWith env lib o text words
        (chooseNext overlaps (fun w => (exactMatch env lib o text words w).isSome) taken window) := by
  unfold spotWindow chooseNext
  rw [any_consumed htaken hwindow]
  by_cases hany : taken.any (overlaps window) = true
  · simp [hany]
  · rw [if_neg hany]
    cases hmatch : exactMatch env lib o text words window with
    | none => simp [hmatch]
    | some mention =>
      have htake : (taken.any (overlaps window) ||
          !(exactMatch env lib o text words window).isSome) = false := by simpa [hmatch] using hany
      dsimp only
      rw [htake]
      simp only [spottedWith, List.filterMap_append, List.filterMap_cons, hmatch,
        List.filterMap_nil, Bool.false_eq_true, if_false]
      congr 1
      refine List.ext_getElem? fun i => ?_
      rw [List.getElem?_mapIdx, List.getElem?_map, List.getElem?_map]
      rcases Nat.lt_or_ge i words.length with hlt | hge
      · rw [List.getElem?_range hlt]
        simp [covers]
      · rw [List.getElem?_eq_none (by simpa using hge)]
        rfl

/-- **The first phase is a greedy choice** among the windows. -/
theorem spotExact_eq (env : Env) (lib : TextLibrary) (o : Ontology) (text : List Char)
    (words : List (ℕ × ℕ)) : spotExact env lib o text words =
      spottedWith env lib o text words (takenWindows env lib o text words) := by
  have hrun : ∀ ws : List (ℕ × ℕ), (∀ w ∈ ws, IsWindow words.length w) →
      ws.foldl (spotWindow env lib o text words)
        { consumed := words.map fun _ => false, matched := [], unresolved := [] } =
      spottedWith env lib o text words
        (greedy overlaps (fun w => (exactMatch env lib o text words w).isSome) ws) := by
    intro ws hws
    induction ws using List.reverseRecOn with
    | nil => simp [spottedWith, greedy, List.map_const']
    | append_singleton ws w ih =>
      have hkept : ∀ v ∈ greedy overlaps (fun w => (exactMatch env lib o text words w).isSome) ws,
          IsWindow words.length v :=
        fun v hv => hws v (List.mem_append_left _ (good_of_mem_greedy hv).1)
      rw [List.foldl_append, ih fun v hv => hws v (List.mem_append_left _ hv), List.foldl_cons,
        List.foldl_nil, greedy_concat, spotWindow_spottedWith hkept (hws w (by simp))]
  exact hrun _ fun w hw => (mem_windows.1 hw).1

/-! ## The mentions -/

section

variable (env lib o text)

/-- The close match of a word that no window took. -/
def closeMatch (word : (ℕ × ℕ) × Bool) : Option SpannedMention :=
  let mention := slice text word.1.1 word.1.2
  if word.2 || decide (mention.utf8ByteSize < minWordLen) then none
  else
    match lib.bestFuzzyMatch o mention with
    | (score, some entity) =>
      if defaultFuzzyThreshold ≤ score then
        some { mention := env.matched mention entity (.fuzzy score)
               span := byteSpan text word.1 word.1 }
      else none
    | (_, none) => none

end

theorem matched_spotWord (m : Spotted) (word : (ℕ × ℕ) × Bool) :
    (spotWord env lib o text m word).matched =
      m.matched ++ (closeMatch env lib o text word).toList := by
  unfold spotWord closeMatch
  dsimp only
  split
  · simp
  · rcases lib.bestFuzzyMatch o (slice text word.1.1 word.1.2) with ⟨score, _ | entity⟩
    · simp
    · dsimp only
      split
      · simp
      · split <;> simp

theorem matched_foldl_spotWord (m : Spotted) (ws : List ((ℕ × ℕ) × Bool)) :
    (ws.foldl (spotWord env lib o text) m).matched =
      m.matched ++ ws.filterMap (closeMatch env lib o text) := by
  induction ws generalizing m with
  | nil => simp
  | cons word ws ih =>
    rw [List.foldl_cons, ih, matched_spotWord, List.append_assoc, List.filterMap_cons]
    cases closeMatch env lib o text word <;> rfl

/-- The words, each with whether a window that was taken covers it. -/
def markedWords (words : List (ℕ × ℕ)) (taken : List (ℕ × ℕ)) : List ((ℕ × ℕ) × Bool) :=
  words.zip ((List.range words.length).map fun i => taken.any fun window => covers window i)

/-- **The mentions**: the exact matches of the windows that were taken, and the close matches of
the words that none of them covers. -/
theorem matched_eq (env : Env) (lib : TextLibrary) (o : Ontology) (text : List Char) :
    (canonicalizeResult env lib o text).matched =
      (takenWindows env lib o text (lib.extractWords text)).filterMap
          (exactMatch env lib o text (lib.extractWords text)) ++
        (markedWords (lib.extractWords text)
          (takenWindows env lib o text (lib.extractWords text))).filterMap
          (closeMatch env lib o text) := by
  unfold canonicalizeResult spotFuzzy
  dsimp only
  rw [spotExact_eq, matched_foldl_spotWord]
  rfl

/-- The first entry of the index with a name is of the first entity with it. -/
theorem find?_buildAliasIndex (lib : TextLibrary) (o : Ontology) (mention : String) :
    ((lib.buildAliasIndex o).find? fun a => a.aliasLower = lib.toLowercase mention).map
      AliasEntry.entity = o.entities.find? (lib.isNamed mention) := by
  unfold TextLibrary.buildAliasIndex
  induction o.entities with
  | nil => rfl
  | cons e es ih =>
    have hnames : (((e.canonical :: e.aliases).map (lib.aliasEntry e)).find? fun a =>
        a.aliasLower = lib.toLowercase mention).map AliasEntry.entity =
          if lib.isNamed mention e then some e else none := by
      rw [List.find?_map, Option.map_map]
      cases hfind : (e.canonical :: e.aliases).find? ((fun a : AliasEntry =>
          decide (a.aliasLower = lib.toLowercase mention)) ∘ lib.aliasEntry e) with
      | none =>
        have hnot : lib.isNamed mention e = false := by
          rw [TextLibrary.isNamed, List.any_eq_false]
          exact List.find?_eq_none.1 hfind
        rw [hnot]
        rfl
      | some name =>
        have hnamed : lib.isNamed mention e = true := by
          have hname := List.find?_some hfind
          rw [TextLibrary.isNamed, List.any_eq_true]
          exact ⟨name, List.mem_of_find?_eq_some hfind, hname⟩
        rw [hnamed]
        rfl
    rw [List.flatMap_cons, List.find?_append, Option.map_or, hnames, ih, List.find?_cons]
    cases lib.isNamed mention e <;> rfl

/-- An exact match: the window is a name of the first entity that has it. -/
theorem exactMatch_eq_some {m : SpannedMention} :
    exactMatch env lib o text words window = some m ↔
      ∃ first last e, words[window.2]? = some first ∧
        words[window.2 + window.1 - 1]? = some last ∧
        o.entities.find? (lib.isNamed (slice text first.1 last.2)) = some e ∧
        m = { mention := env.matched (slice text first.1 last.2) e .exact
              span := byteSpan text first last } := by
  unfold exactMatch
  cases words[window.2]? with
  | none => simp
  | some first =>
    cases words[window.2 + window.1 - 1]? with
    | none => simp
    | some last =>
      dsimp only
      have hfind := find?_buildAliasIndex lib o (slice text first.1 last.2)
      constructor
      · intro h
        obtain ⟨entry, hentry, rfl⟩ := Option.map_eq_some_iff.1 h
        rw [hentry] at hfind
        exact ⟨first, last, entry.entity, rfl, rfl, hfind.symm, rfl⟩
      · rintro ⟨_, _, e, ⟨rfl⟩, ⟨rfl⟩, he, rfl⟩
        rw [he] at hfind
        obtain ⟨entry, hentry, rfl⟩ := Option.map_eq_some_iff.1 hfind
        rw [hentry]
        rfl

theorem closeMatch_eq_some {word : (ℕ × ℕ) × Bool} {m : SpannedMention}
    (h : closeMatch env lib o text word = some m) : word.2 = false ∧
      m.span = byteSpan text word.1 word.1 ∧ m.mention.mention = slice text word.1.1 word.1.2 ∧
      m.mention.matchKind ≠ .exact := by
  unfold closeMatch at h
  dsimp only at h
  split at h
  · cases h
  · rename_i hleft
    have hfree : word.2 = false := by
      cases hw : word.2 with
      | false => rfl
      | true => simp [hw] at hleft
    split at h
    · split at h
      · cases h
        exact ⟨hfree, rfl, rfl, by simp [Env.matched]⟩
      · cases h
    · cases h

/-! ## Where they are -/

/-- A word with its mark. -/
theorem mem_markedWords {word : (ℕ × ℕ) × Bool} (h : word ∈ markedWords words taken) :
    ∃ i, words[i]? = some word.1 ∧ word.2 = taken.any fun window => covers window i := by
  obtain ⟨i, hi⟩ := List.mem_iff_getElem?.1 h
  rw [markedWords, List.getElem?_zip_eq_some, List.getElem?_map, Option.map_eq_some_iff] at hi
  obtain ⟨hword, j, hj, hmark⟩ := hi
  obtain ⟨hlt, rfl⟩ := List.getElem?_eq_some_iff.1 hj
  exact ⟨i, hword, by simpa using hmark.symm⟩

theorem pairwise_markedWords (hwords : words.Pairwise fun w w' => w.2 < w'.1) :
    (markedWords words taken).Pairwise fun x y => x.1.2 < y.1.1 := by
  have hfst : (markedWords words taken).map Prod.fst = words :=
    List.map_fst_zip (by simp)
  rw [← hfst, List.pairwise_map] at hwords
  exact hwords

/-- A word further to the left ends before. -/
theorem end_lt_start (hwords : words.Pairwise fun w w' => w.2 < w'.1) {i j : ℕ} {w w' : ℕ × ℕ}
    (hij : i < j) (hi : words[i]? = some w) (hj : words[j]? = some w') : w.2 < w'.1 := by
  obtain ⟨hi', rfl⟩ := List.getElem?_eq_some_iff.1 hi
  obtain ⟨hj', rfl⟩ := List.getElem?_eq_some_iff.1 hj
  exact List.pairwise_iff_getElem.1 hwords i j hi' hj' hij

/-- The mention is the text between two places, and its span are the bytes there. -/
def SpannedMention.Placed (m : SpannedMention) (text : List Char) : Prop :=
  ∃ i j, i < j ∧ j ≤ text.length ∧ m.span = (byteOffset text i, byteOffset text j) ∧
    m.mention.mention = slice text i j

/-- Two mentions have no byte in common. -/
def SpannedMention.Apart (m m' : SpannedMention) : Prop :=
  m.span.2 ≤ m'.span.1 ∨ m'.span.2 ≤ m.span.1

theorem byteOffset_le {i j : ℕ} (h : i ≤ j) (hj : j ≤ text.length) :
    byteOffset text i ≤ byteOffset text j := by
  rcases h.lt_or_eq with hlt | rfl
  · exact (byteOffset_lt hlt hj).le
  · exact le_rfl

/-- Each mention of the result comes from a window that was taken, or from a word that is left. -/
theorem mem_matched {m : SpannedMention} (h : m ∈ (canonicalizeResult env lib o text).matched) :
    (∃ w ∈ takenWindows env lib o text (lib.extractWords text),
        exactMatch env lib o text (lib.extractWords text) w = some m) ∨
      ∃ word ∈ markedWords (lib.extractWords text)
          (takenWindows env lib o text (lib.extractWords text)),
        closeMatch env lib o text word = some m := by
  rw [matched_eq, List.mem_append, List.mem_filterMap, List.mem_filterMap] at h
  exact h

theorem isWindow_of_mem_taken (h : window ∈ takenWindows env lib o text words) :
    IsWindow words.length window ∧ window.1 ≤ lib.maxAliasWords o :=
  mem_windows.1 (good_of_mem_greedy h).1

/-- The words of a window: the first does not start after the last ends. -/
theorem start_lt_end {first last : ℕ × ℕ} {i j : ℕ} (hij : i ≤ j)
    (hi : (lib.extractWords text)[i]? = some first) (hj : (lib.extractWords text)[j]? = some last) :
    first.1 < last.2 ∧ last.2 ≤ text.length := by
  have hfirst : lib.IsWord text first :=
    TextLibrary.isWord_of_mem_extractWords (List.mem_of_getElem? hi)
  have hlast : lib.IsWord text last :=
    TextLibrary.isWord_of_mem_extractWords (List.mem_of_getElem? hj)
  refine ⟨?_, hlast.le_length⟩
  rcases hij.lt_or_eq with hlt | rfl
  · have hbetween := end_lt_start (lib.pairwise_extractWords text) hlt hi hj
    have := hfirst.lt
    have := hlast.lt
    omega
  · rw [hi] at hj
    cases hj
    exact hfirst.lt

/-- **Every mention is a part of the text**, between two characters. -/
theorem placed_of_mem_matched {m : SpannedMention}
    (h : m ∈ (canonicalizeResult env lib o text).matched) : m.Placed text := by
  rcases mem_matched h with ⟨w, hw, hmatch⟩ | ⟨word, hword, hmatch⟩
  · obtain ⟨first, last, e, hfirst, hlast, -, rfl⟩ := exactMatch_eq_some.1 hmatch
    have hwindow := (isWindow_of_mem_taken hw).1
    have hplace := start_lt_end (by have := hwindow.1; omega) hfirst hlast
    exact ⟨first.1, last.2, hplace.1, hplace.2, rfl, rfl⟩
  · obtain ⟨-, hspan, hmention, -⟩ := closeMatch_eq_some hmatch
    obtain ⟨i, hi, -⟩ := mem_markedWords hword
    have hplace := start_lt_end le_rfl hi hi
    exact ⟨word.1.1, word.1.2, hplace.1, hplace.2, hspan, hmention⟩

/-- Words further to the right start at a later byte. -/
theorem byteSpan_apart {first last first' last' : ℕ × ℕ} {i j : ℕ} (hij : i < j)
    (hi : (lib.extractWords text)[i]? = some last) (hj : (lib.extractWords text)[j]? = some first') :
    (byteSpan text first last).2 ≤ (byteSpan text first' last').1 := by
  have hlt := end_lt_start (lib.pairwise_extractWords text) hij hi hj
  have hplace := start_lt_end le_rfl hj hj
  exact byteOffset_le hlt.le (hplace.1.le.trans hplace.2)

/-- Windows without a common word are apart. -/
theorem apart_of_not_overlaps {w w' : ℕ × ℕ} {m m' : SpannedMention}
    (hw : IsWindow (lib.extractWords text).length w) (hw' : IsWindow (lib.extractWords text).length w')
    (hover : overlaps w' w = false)
    (hm : exactMatch env lib o text (lib.extractWords text) w = some m)
    (hm' : exactMatch env lib o text (lib.extractWords text) w' = some m') : m.Apart m' := by
  obtain ⟨first, last, e, hfirst, hlast, -, rfl⟩ := exactMatch_eq_some.1 hm
  obtain ⟨first', last', e', hfirst', hlast', -, rfl⟩ := exactMatch_eq_some.1 hm'
  simp only [overlaps, decide_eq_false_iff_not] at hover
  have hpos := hw.1
  have hpos' := hw'.1
  rcases Nat.lt_or_ge (w.2 + w.1 - 1) w'.2 with hleft | hright
  · exact Or.inl (byteSpan_apart hleft hlast hfirst')
  · exact Or.inr (byteSpan_apart (by omega) hlast' hfirst)

/-- A word that a window does not cover is apart from it. -/
theorem apart_of_not_covers {w : ℕ × ℕ} {m m' : SpannedMention} {word : ℕ × ℕ} {i : ℕ}
    (hw : IsWindow (lib.extractWords text).length w) (hcovers : covers w i = false)
    (hword : (lib.extractWords text)[i]? = some word)
    (hm : exactMatch env lib o text (lib.extractWords text) w = some m)
    (hm' : m'.span = byteSpan text word word) : m.Apart m' := by
  obtain ⟨first, last, e, hfirst, hlast, -, rfl⟩ := exactMatch_eq_some.1 hm
  simp only [covers, decide_eq_false_iff_not] at hcovers
  have hpos := hw.1
  unfold SpannedMention.Apart
  rw [hm']
  rcases Nat.lt_or_ge i w.2 with hleft | hright
  · exact Or.inr (byteSpan_apart hleft hword hfirst)
  · exact Or.inl (byteSpan_apart (by omega) hlast hword)

/-- **No two mentions of a text overlap.** -/
theorem pairwise_apart (env : Env) (lib : TextLibrary) (o : Ontology) (text : List Char) :
    (canonicalizeResult env lib o text).matched.Pairwise SpannedMention.Apart := by
  have hsorted := lib.pairwise_extractWords text
  rw [matched_eq, List.pairwise_append, List.pairwise_filterMap, List.pairwise_filterMap]
  refine ⟨?_, ?_, fun m hm m' hm' => ?_⟩
  · -- two windows: the choice is without overlaps
    refine (pairwise_greedy _ _ _).imp_of_mem fun {w w'} hw hw' hover m hm m' hm' => ?_
    exact apart_of_not_overlaps (isWindow_of_mem_taken hw).1 (isWindow_of_mem_taken hw').1 hover hm hm'
  · -- two words
    refine (pairwise_markedWords hsorted).imp_of_mem fun {x y} _ hy hlt m hm m' hm' => ?_
    obtain ⟨j, hj, -⟩ := mem_markedWords hy
    have hplace := start_lt_end le_rfl hj hj
    obtain ⟨-, hspan, -, -⟩ := closeMatch_eq_some hm
    obtain ⟨-, hspan', -, -⟩ := closeMatch_eq_some hm'
    left
    rw [hspan, hspan']
    exact byteOffset_le hlt.le (hplace.1.le.trans hplace.2)
  · -- a window and a word that is left
    obtain ⟨w, hw, hmatch⟩ := List.mem_filterMap.1 hm
    obtain ⟨word, hword, hclose⟩ := List.mem_filterMap.1 hm'
    obtain ⟨hfree, hspan, -, -⟩ := closeMatch_eq_some hclose
    obtain ⟨i, hi, hmark⟩ := mem_markedWords hword
    have hcovers : covers w i = false := by
      rw [hfree, eq_comm, List.any_eq_false] at hmark
      simpa using hmark w hw
    exact apart_of_not_covers (isWindow_of_mem_taken hw).1 hcovers hi hmatch hspan

end Spectral
