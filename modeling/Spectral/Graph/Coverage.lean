import Spectral.Graph.Spans
import Spectral.Graph.Interference

/-!
# Which aliases a text can match

`resolve_one` compares whole strings.  `canonicalize` looks at windows of the words it extracts,
and at no window with more words than an alias has between its spaces.

* `CoversAlias` — an alias, as a text, is matched as a whole, to the entity it resolves to.
* `NeverLoses` — in a text no exact match loses to a shorter one inside it.
* `Reaches` — how many words a window may have.
* `canonicalize_agrees_iff` — for which aliases and ontologies the two hold.
-/

namespace Spectral

open Spectral.Lib

namespace TextLibrary

variable (lib : TextLibrary)

/-- Lower case leaves a word where there is a word character. -/
def KeepsWords : Prop :=
  ∀ name : String, (∃ c ∈ name.toList, lib.isWordChar c = true) →
    0 < lib.countWords false (lib.toLowercase name).toList

/-- Some alias has at least so many words between its spaces. -/
def Reaches (o : Ontology) (count : ℕ) : Prop :=
  ∃ e ∈ o.entities, ∃ name ∈ e.names, count ≤ lib.countWords false (lib.toLowercase name).toList

/-- The text is an alias, up to case. -/
def Spells (o : Ontology) (mention : String) : Prop :=
  ∃ e ∈ o.entities, lib.isNamed mention e = true

/-- The places where a window of the words of a text starts and ends. -/
def windowPlaces (text : List Char) (window : ℕ × ℕ) : ℕ × ℕ :=
  (((lib.extractWords text)[window.2]?.getD (0, 0)).1,
    ((lib.extractWords text)[window.2 + window.1 - 1]?.getD (0, 0)).2)

/-- The text of a window. -/
def windowText (text : List Char) (window : ℕ × ℕ) : String :=
  slice text (lib.windowPlaces text window).1 (lib.windowPlaces text window).2

/-- The window is one of the words of the text, and its text is an alias. -/
def ExactIn (o : Ontology) (text : List Char) (window : ℕ × ℕ) : Prop :=
  IsWindow (lib.extractWords text).length window ∧ lib.Spells o (lib.windowText text window)

end TextLibrary

/-- A window is inside another one, and shorter. -/
def ShorterInside (w w' : ℕ × ℕ) : Prop := w'.2 ≤ w.2 ∧ w.2 + w.1 ≤ w'.2 + w'.1 ∧ w.1 < w'.1

section

variable (env : Env) (lib : TextLibrary) (o : Ontology)

/-- The window is one of the exact matches of the text. -/
def MatchedIn (text : List Char) (window : ℕ × ℕ) : Prop :=
  ∃ m ∈ (canonicalizeResult env lib o text).matched, m.mention.matchKind = .exact ∧
    m.span = (byteOffset text (lib.windowPlaces text window).1,
      byteOffset text (lib.windowPlaces text window).2)

/-- The alias as a text is matched as a whole, to the entity that it resolves to. -/
def CoversAlias (name : String) : Prop :=
  ∃ m ∈ (canonicalizeResult env lib o name.toList).matched, m.span = (0, name.utf8ByteSize) ∧
    (lib.resolveOne env o name).map MatchedMention.key = some m.mention.key

/-- Where a shorter match inside an exact match of an alias is made, one that is not shorter and
has a word in common with it is made as well. -/
def NeverLoses (text : List Char) : Prop :=
  ∀ w v, lib.ExactIn o text w → IsWindow (lib.extractWords text).length v → ShorterInside v w →
    MatchedIn env lib o text v → ∃ x, IsWindow (lib.extractWords text).length x ∧
      overlaps w x = true ∧ w.1 ≤ x.1 ∧ MatchedIn env lib o text x

end

variable {env : Env} {lib : TextLibrary} {o : Ontology} {text : List Char} {window w v : ℕ × ℕ}
  {name : String} {count : ℕ}

/-! ## How many words a window may have -/

theorem TextLibrary.mem_buildAliasIndex {entry : AliasEntry} :
    entry ∈ lib.buildAliasIndex o ↔
      ∃ e ∈ o.entities, ∃ name ∈ e.names, lib.aliasEntry e name = entry := by
  simp only [buildAliasIndex, OntologyEntity.names, List.mem_flatMap, List.mem_map]

/-- The windows are as long as some alias is. -/
theorem TextLibrary.reaches_iff (hnamed : lib.Spells o name) :
    lib.Reaches o count ↔ count ≤ lib.maxAliasWords o := by
  obtain ⟨e, he, -⟩ := hnamed
  have hne : (lib.buildAliasIndex o).map AliasEntry.wordCount ≠ [] := by
    refine List.ne_nil_of_mem (List.mem_map.2 ⟨lib.aliasEntry e e.canonical, ?_, rfl⟩)
    exact mem_buildAliasIndex.2 ⟨e, he, e.canonical, by simp [OntologyEntity.names], rfl⟩
  obtain ⟨most, hmost⟩ := Option.isSome_iff_exists.1 (List.isSome_max?_of_ne_nil hne)
  have hmax : lib.maxAliasWords o = most := by rw [maxAliasWords, hmost, Option.getD_some]
  obtain ⟨hmem, hle⟩ := List.max?_eq_some_iff.1 hmost
  rw [hmax]
  constructor
  · rintro ⟨e', he', name', hname', hcount⟩
    refine hcount.trans (hle _ (List.mem_map.2 ⟨lib.aliasEntry e' name', ?_, rfl⟩))
    exact mem_buildAliasIndex.2 ⟨e', he', name', hname', rfl⟩
  · intro hcount
    obtain ⟨entry, hentry, rfl⟩ := List.mem_map.1 hmem
    obtain ⟨e', he', name', hname', rfl⟩ := mem_buildAliasIndex.1 hentry
    exact ⟨e', he', name', hname', hcount⟩

/-! ## Windows and their matches -/

/-- The first and the last word of a window. -/
theorem TextLibrary.windowPlaces_eq (h : IsWindow (lib.extractWords text).length w) :
    ∃ first last, (lib.extractWords text)[w.2]? = some first ∧
      (lib.extractWords text)[w.2 + w.1 - 1]? = some last ∧
      lib.windowPlaces text w = (first.1, last.2) := by
  obtain ⟨hpos, hle⟩ := h
  have hfirst := List.getElem?_eq_getElem (by omega : w.2 < (lib.extractWords text).length)
  have hlast := List.getElem?_eq_getElem (by omega : w.2 + w.1 - 1 < (lib.extractWords text).length)
  exact ⟨_, _, hfirst, hlast, by rw [windowPlaces, hfirst, hlast, Option.getD_some, Option.getD_some]⟩

theorem TextLibrary.spells_iff_find? {mention : String} :
    lib.Spells o mention ↔ ∃ e, o.entities.find? (lib.isNamed mention) = some e := by
  rw [← Option.isSome_iff_exists, List.find?_isSome]
  rfl

/-- A window has an exact match where its text is an alias. -/
theorem isSome_exactMatch_iff (h : IsWindow (lib.extractWords text).length w) :
    (exactMatch env lib o text (lib.extractWords text) w).isSome = true ↔
      lib.Spells o (lib.windowText text w) := by
  obtain ⟨first, last, hfirst, hlast, hplaces⟩ := TextLibrary.windowPlaces_eq h
  rw [Option.isSome_iff_exists, TextLibrary.windowText, hplaces, TextLibrary.spells_iff_find?]
  constructor
  · rintro ⟨m, hm⟩
    obtain ⟨f, l, e, hf, hl, he, -⟩ := exactMatch_eq_some.1 hm
    rw [hfirst] at hf
    rw [hlast] at hl
    cases hf
    cases hl
    exact ⟨e, he⟩
  · rintro ⟨e, he⟩
    exact ⟨_, exactMatch_eq_some.2 ⟨first, last, e, hfirst, hlast, he, rfl⟩⟩

/-- The words stand at different places. -/
theorem index_eq_of_start {i j : ℕ} {a b : ℕ × ℕ} (hi : (lib.extractWords text)[i]? = some a)
    (hj : (lib.extractWords text)[j]? = some b) (h : a.1 = b.1 ∨ a.2 = b.2) : i = j := by
  have hsorted := lib.pairwise_extractWords text
  have ha := (start_lt_end le_rfl hi hi).1
  have hb := (start_lt_end le_rfl hj hj).1
  rcases Nat.lt_trichotomy i j with hlt | heq | hlt
  · have := end_lt_start hsorted hlt hi hj
    omega
  · exact heq
  · have := end_lt_start hsorted hlt hj hi
    omega

/-- **The exact matches are the windows that were taken.** -/
theorem matchedIn_iff (h : IsWindow (lib.extractWords text).length w) :
    MatchedIn env lib o text w ↔ w ∈ takenWindows env lib o text (lib.extractWords text) := by
  obtain ⟨first, last, hfirst, hlast, hplaces⟩ := TextLibrary.windowPlaces_eq h
  have hplace := start_lt_end (by have := h.1; omega) hfirst hlast
  unfold MatchedIn
  rw [hplaces]
  constructor
  · rintro ⟨m, hm, hkind, hspan⟩
    rcases mem_matched hm with ⟨t, ht, hmatch⟩ | ⟨word, -, hmatch⟩
    · obtain ⟨f, l, e, hf, hl, -, rfl⟩ := exactMatch_eq_some.1 hmatch
      have hwindow := (isWindow_of_mem_taken ht).1
      have hplace' := start_lt_end (by have := hwindow.1; omega) hf hl
      simp only [byteSpan, Prod.mk.injEq] at hspan
      have hstart := (byteOffset_inj (by omega) (by omega)).1 hspan.1
      have hstop := (byteOffset_inj (by omega) (by omega)).1 hspan.2
      have h₁ := index_eq_of_start hf hfirst (Or.inl hstart)
      have h₂ := index_eq_of_start hl hlast (Or.inr hstop)
      have hw : w = t := by
        have := h.1
        have := hwindow.1
        ext <;> omega
      rwa [hw]
    · exact absurd hkind (closeMatch_eq_some hmatch).2.2.2
  · intro ht
    obtain ⟨m, hm⟩ := Option.isSome_iff_exists.1 (good_of_mem_greedy ht).2
    refine ⟨m, ?_, ?_⟩
    · rw [matched_eq, List.mem_append, List.mem_filterMap]
      exact Or.inl ⟨w, ht, hm⟩
    · obtain ⟨f, l, e, hf, hl, -, rfl⟩ := exactMatch_eq_some.1 hm
      rw [hfirst] at hf
      rw [hlast] at hl
      cases hf
      cases hl
      exact ⟨rfl, rfl⟩

/-- An exact match that is not too long is made, or one that is no shorter overlaps with it. -/
theorem matchedIn_or_overlaps (env : Env) (h : lib.ExactIn o text w) (hmax : w.1 ≤ lib.maxAliasWords o) :
    ∃ x, IsWindow (lib.extractWords text).length x ∧ overlaps w x = true ∧ w.1 ≤ x.1 ∧
      MatchedIn env lib o text x := by
  have hmem : w ∈ windows (lib.maxAliasWords o) (lib.extractWords text).length :=
    mem_windows.2 ⟨h.1, hmax⟩
  have hchoice := mem_greedy_or_clash overlaps
    (fun window => (exactMatch env lib o text (lib.extractWords text) window).isSome)
    (pairwise_windows _ _) hmem ((isSome_exactMatch_iff h.1).2 h.2)
  rcases hchoice with htaken | ⟨x, hx, hle, hover⟩
  · have hself : overlaps w w = true := by
      have := h.1.1
      simp only [overlaps, decide_eq_true_eq]
      omega
    exact ⟨w, h.1, hself, le_rfl, (matchedIn_iff h.1).2 htaken⟩
  · have hwindow := (isWindow_of_mem_taken hx).1
    exact ⟨x, hwindow, hover, hle, (matchedIn_iff hwindow).2 hx⟩

/-! ## The text of a window -/

theorem slice_all (name : String) : slice name.toList 0 name.toList.length = name := by
  rw [slice, List.drop_zero, Nat.sub_zero, List.take_length, String.ofList_toList]

theorem slice_slice {p q i j : ℕ} (h : p + j ≤ q) :
    slice (slice text p q).toList i j = slice text (p + i) (p + j) := by
  unfold slice
  rw [String.toList_ofList, List.drop_take, List.take_take, List.drop_drop]
  congr 2
  omega

/-- All the words of a text that begins and ends with one. -/
theorem TextLibrary.windowPlaces_whole (h : lib.wordEnds text = true) :
    IsWindow (lib.extractWords text).length ((lib.extractWords text).length, 0) ∧
      lib.windowPlaces text ((lib.extractWords text).length, 0) = (0, text.length) := by
  obtain ⟨first, last, hfirst, hlast, hstart, hstop⟩ := wordEnds_iff.1 h
  have hpos : 0 < (lib.extractWords text).length :=
    List.length_pos_of_mem (List.mem_of_mem_head? hfirst)
  have hwindow : IsWindow (lib.extractWords text).length ((lib.extractWords text).length, 0) :=
    ⟨hpos, by simp⟩
  rw [List.head?_eq_getElem?] at hfirst
  rw [List.getLast?_eq_getElem?] at hlast
  refine ⟨hwindow, ?_⟩
  rw [windowPlaces, Nat.zero_add, hfirst, hlast, Option.getD_some, Option.getD_some, hstart, hstop]

/-- Only the window of all words goes over the whole text. -/
theorem TextLibrary.whole_of_windowPlaces (h : IsWindow (lib.extractWords text).length w)
    (hplaces : lib.windowPlaces text w = (0, text.length)) :
    w = ((lib.extractWords text).length, 0) ∧ lib.wordEnds text = true := by
  obtain ⟨first, last, hfirst, hlast, heq⟩ := windowPlaces_eq h
  obtain ⟨hpos, hle⟩ := h
  rw [hplaces, Prod.mk.injEq] at heq
  have hsorted := lib.pairwise_extractWords text
  -- no word starts before the text, and none ends after it
  have hleft : w.2 = 0 := by
    by_contra hne
    have h₀ := List.getElem?_eq_getElem (by omega : 0 < (lib.extractWords text).length)
    have := end_lt_start hsorted (by omega : 0 < w.2) h₀ hfirst
    omega
  have hright : w.2 + w.1 = (lib.extractWords text).length := by
    by_contra hne
    have h₁ := List.getElem?_eq_getElem
      (by omega : (lib.extractWords text).length - 1 < (lib.extractWords text).length)
    have hlt := end_lt_start hsorted
      (by omega : w.2 + w.1 - 1 < (lib.extractWords text).length - 1) hlast h₁
    have := start_lt_end le_rfl h₁ h₁
    omega
  rw [hleft] at hfirst
  rw [hright] at hlast
  refine ⟨by ext <;> omega, wordEnds_iff.2 ⟨first, last, ?_, ?_, heq.1.symm, heq.2.symm⟩⟩
  · rwa [List.head?_eq_getElem?]
  · rwa [List.getLast?_eq_getElem?]

/-- The text of a window has the words of the window. -/
theorem TextLibrary.extractWords_windowText (h : IsWindow (lib.extractWords text).length w) :
    (lib.extractWords (lib.windowText text w).toList).map
        (shiftWord (lib.windowPlaces text w).1) =
      ((lib.extractWords text).drop w.2).take w.1 := by
  obtain ⟨first, last, hfirst, hlast, hplaces⟩ := windowPlaces_eq h
  obtain ⟨hpos, hle⟩ := h
  have hcut : lib.extractWords text = (lib.extractWords text).take w.2 ++
      ((lib.extractWords text).drop w.2).take w.1 ++
      ((lib.extractWords text).drop w.2).drop w.1 := by
    rw [List.append_assoc, List.take_append_drop, List.take_append_drop]
  rw [windowText, hplaces]
  show (lib.extractWords (slice text first.1 last.2).toList).map (shiftWord first.1) = _
  refine extractWords_slice hcut ?_ ?_
  · rw [List.head?_eq_getElem?, List.getElem?_take, if_pos hpos, List.getElem?_drop, Nat.add_zero,
      hfirst]
  · have hlength : (((lib.extractWords text).drop w.2).take w.1).length = w.1 := by
      rw [List.length_take, List.length_drop]
      omega
    have hindex : w.2 + (w.1 - 1) = w.2 + w.1 - 1 := by omega
    rw [List.getLast?_eq_getElem?, hlength, List.getElem?_take, if_pos (by omega),
      List.getElem?_drop, hindex, hlast]

theorem TextLibrary.length_extractWords_windowText
    (h : IsWindow (lib.extractWords text).length w) :
    (lib.extractWords (lib.windowText text w).toList).length = w.1 := by
  have hlength := congrArg List.length (extractWords_windowText h)
  have hle := h.2
  rw [List.length_map, List.length_take, List.length_drop] at hlength
  omega

/-- A word of a window, in the text of the window. -/
theorem TextLibrary.getElem?_windowText (h : IsWindow (lib.extractWords text).length w) {k : ℕ}
    (hk : k < w.1) : ∃ u, (lib.extractWords (lib.windowText text w).toList)[k]? = some u ∧
      (lib.extractWords text)[w.2 + k]? = some (shiftWord (lib.windowPlaces text w).1 u) := by
  have hlength := length_extractWords_windowText h
  refine ⟨_, List.getElem?_eq_getElem (by omega), ?_⟩
  have hall : ((lib.extractWords (lib.windowText text w).toList).map
      (shiftWord (lib.windowPlaces text w).1))[k]? =
        (((lib.extractWords text).drop w.2).take w.1)[k]? := by rw [extractWords_windowText h]
  rw [List.getElem?_map, List.getElem?_eq_getElem (by omega), List.getElem?_take, if_pos hk,
    List.getElem?_drop] at hall
  exact hall.symm

theorem TextLibrary.length_windowText (h : IsWindow (lib.extractWords text).length w) :
    (lib.windowPlaces text w).1 + (lib.windowText text w).toList.length =
      (lib.windowPlaces text w).2 := by
  obtain ⟨first, last, hfirst, hlast, hplaces⟩ := windowPlaces_eq h
  have hplace := start_lt_end (by have := h.1; omega) hfirst hlast
  rw [windowText, hplaces, length_toList_slice hplace.1.le hplace.2]
  omega

/-- A window inside another one is a window of its text, with the same text. -/
theorem TextLibrary.windowText_windowText (hw : IsWindow (lib.extractWords text).length w)
    (hpos : 0 < v.1) (hinside : w.2 ≤ v.2 ∧ v.2 + v.1 ≤ w.2 + w.1) :
    IsWindow (lib.extractWords (lib.windowText text w).toList).length (v.1, v.2 - w.2) ∧
      lib.windowText (lib.windowText text w).toList (v.1, v.2 - w.2) = lib.windowText text v := by
  have hwindow : IsWindow (lib.extractWords (lib.windowText text w).toList).length
      (v.1, v.2 - w.2) := by
    rw [length_extractWords_windowText hw]
    exact ⟨hpos, by dsimp only; omega⟩
  refine ⟨hwindow, ?_⟩
  obtain ⟨u, hu, hu'⟩ := getElem?_windowText hw (by omega : v.2 - w.2 < w.1)
  obtain ⟨u₁, hu₁, hu₁'⟩ := getElem?_windowText hw (by omega : v.2 - w.2 + v.1 - 1 < w.1)
  have hstart : w.2 + (v.2 - w.2) = v.2 := by omega
  have hstop : w.2 + (v.2 - w.2 + v.1 - 1) = v.2 + v.1 - 1 := by omega
  rw [hstart] at hu'
  rw [hstop] at hu₁'
  have hinner : lib.windowPlaces (lib.windowText text w).toList (v.1, v.2 - w.2) = (u.1, u₁.2) := by
    rw [windowPlaces, hu, hu₁, Option.getD_some, Option.getD_some]
  have houter : lib.windowPlaces text v =
      ((lib.windowPlaces text w).1 + u.1, (lib.windowPlaces text w).1 + u₁.2) := by
    rw [windowPlaces, hu', hu₁', Option.getD_some, Option.getD_some]
    rfl
  have hfits : (lib.windowPlaces text w).1 + u₁.2 ≤ (lib.windowPlaces text w).2 := by
    have hend : u₁.2 ≤ (lib.windowText text w).toList.length :=
      (isWord_of_mem_extractWords (List.mem_of_getElem? hu₁)).le_length
    have := length_windowText hw
    omega
  have hleft : lib.windowText (lib.windowText text w).toList (v.1, v.2 - w.2) =
      slice (lib.windowText text w).toList u.1 u₁.2 := by rw [windowText, hinner]
  have hright : lib.windowText text v = slice text ((lib.windowPlaces text w).1 + u.1)
      ((lib.windowPlaces text w).1 + u₁.2) := by rw [windowText, houter]
  rw [hleft, hright]
  exact slice_slice hfits

/-- The text of a window begins and ends with a word. -/
theorem TextLibrary.wordEnds_windowText (h : IsWindow (lib.extractWords text).length w) :
    lib.wordEnds (lib.windowText text w).toList = true := by
  have hlength := length_extractWords_windowText h
  have hpos := h.1
  obtain ⟨first, last, hfirst, hlast, hplaces⟩ := windowPlaces_eq h
  obtain ⟨u, hu, hu'⟩ := getElem?_windowText h hpos
  obtain ⟨u₁, hu₁, hu₁'⟩ := getElem?_windowText h (by omega : w.1 - 1 < w.1)
  have hindex : w.2 + (w.1 - 1) = w.2 + w.1 - 1 := by omega
  rw [Nat.add_zero, hfirst] at hu'
  rw [hindex, hlast] at hu₁'
  have hend := length_windowText h
  rw [hplaces] at hu' hu₁' hend
  have hleft : first.1 = first.1 + u.1 := congrArg Prod.fst (Option.some.inj hu')
  have hright : last.2 = first.1 + u₁.2 := congrArg Prod.snd (Option.some.inj hu₁')
  dsimp only at hend
  refine wordEnds_iff.2 ⟨u, u₁, ?_, ?_, by omega, by omega⟩
  · rwa [List.head?_eq_getElem?]
  · rwa [List.getLast?_eq_getElem?, hlength]

/-! ## An alias as a text -/

theorem Spells.of_name {e : OntologyEntity} (he : e ∈ o.entities) (hname : name ∈ e.names) :
    lib.Spells o name :=
  ⟨e, he, TextLibrary.isNamed_iff.2 ⟨name, hname, rfl⟩⟩

/-- A span of all bytes goes over all characters. -/
theorem windowPlaces_of_span {i j : ℕ} {first last : ℕ × ℕ} (hij : i ≤ j)
    (hi : (lib.extractWords name.toList)[i]? = some first)
    (hj : (lib.extractWords name.toList)[j]? = some last)
    (h : byteSpan name.toList first last = (0, name.utf8ByteSize)) :
    first.1 = 0 ∧ last.2 = name.toList.length := by
  have hplace := start_lt_end hij hi hj
  rw [byteSpan, Prod.mk.injEq, ← byteOffset_length, ← byteOffset_zero name.toList] at h
  exact ⟨(byteOffset_inj (by omega) (by omega)).1 h.1, (byteOffset_inj hplace.2 le_rfl).1 h.2⟩

/-- All words of an alias that begins and ends with one: an exact match of the text. -/
theorem exactIn_whole (hspells : lib.Spells o name) (hends : lib.wordEnds name.toList = true) :
    lib.ExactIn o name.toList ((lib.extractWords name.toList).length, 0) := by
  obtain ⟨hwindow, hplaces⟩ := TextLibrary.windowPlaces_whole hends
  have htext : lib.windowText name.toList ((lib.extractWords name.toList).length, 0) = name := by
    rw [TextLibrary.windowText, hplaces]
    exact slice_all name
  exact ⟨hwindow, by rwa [htext]⟩

/-- **Which aliases are covered**: those that begin and end with a word character and have no more
words than some alias has between its spaces. -/
theorem coversAlias_iff (hlib : lib.KeepsWords) {e : OntologyEntity} (he : e ∈ o.entities)
    (hname : name ∈ e.names) : CoversAlias env lib o name ↔
      lib.wordEnds name.toList = true ∧ lib.Reaches o (lib.extractWords name.toList).length := by
  have hspells : lib.Spells o name := Spells.of_name he hname
  constructor
  · rintro ⟨m, hm, hspan, -⟩
    rcases mem_matched hm with ⟨w, hw, hmatch⟩ | ⟨word, hword, hmatch⟩
    · -- a window
      obtain ⟨hwindow, hmax⟩ := isWindow_of_mem_taken hw
      obtain ⟨f, l, a, hf, hl, -, rfl⟩ := exactMatch_eq_some.1 hmatch
      obtain ⟨hstart, hstop⟩ :=
        windowPlaces_of_span (by have := hwindow.1; omega) hf hl hspan
      have hplaces : lib.windowPlaces name.toList w = (0, name.toList.length) := by
        rw [TextLibrary.windowPlaces, hf, hl, Option.getD_some, Option.getD_some, hstart, hstop]
      obtain ⟨rfl, hends⟩ := TextLibrary.whole_of_windowPlaces hwindow hplaces
      exact ⟨hends, (TextLibrary.reaches_iff hspells).2 hmax⟩
    · -- a single word
      obtain ⟨i, hi, -⟩ := mem_markedWords hword
      obtain ⟨-, hspan', -, -⟩ := closeMatch_eq_some hmatch
      have hplace := start_lt_end le_rfl hi hi
      rw [hspan'] at hspan
      obtain ⟨hstart, hstop⟩ := windowPlaces_of_span le_rfl hi hi hspan
      have hlt : i < (lib.extractWords name.toList).length := (List.getElem?_eq_some_iff.1 hi).1
      have hplaces : lib.windowPlaces name.toList (1, i) = (0, name.toList.length) := by
        rw [TextLibrary.windowPlaces, Nat.add_sub_cancel, hi, Option.getD_some, hstart, hstop]
      have hwindow : IsWindow (lib.extractWords name.toList).length (1, i) := ⟨Nat.one_pos, hlt⟩
      obtain ⟨hone, hends⟩ := TextLibrary.whole_of_windowPlaces hwindow hplaces
      rw [Prod.mk.injEq] at hone
      have hisword : lib.IsWord name.toList word.1 :=
        TextLibrary.isWord_of_mem_extractWords (List.mem_of_getElem? hi)
      obtain ⟨c, hc⟩ : ∃ c, name.toList[word.1.1]? = some c :=
        ⟨_, List.getElem?_eq_getElem (by omega : word.1.1 < name.toList.length)⟩
      have hcount := hlib name
        ⟨c, List.mem_of_getElem? hc, hisword.inside _ c le_rfl hisword.lt hc⟩
      exact ⟨hends, e, he, name, hname, by omega⟩
  · rintro ⟨hends, hreaches⟩
    obtain ⟨-, hplaces⟩ := TextLibrary.windowPlaces_whole hends
    obtain ⟨x, hx, -, hle, hmatched⟩ := matchedIn_or_overlaps env (exactIn_whole hspells hends)
      ((TextLibrary.reaches_iff hspells).1 hreaches)
    -- no window is longer than the whole
    have hwhole : x = ((lib.extractWords name.toList).length, 0) := by
      have := hx.2
      dsimp only at hle
      ext <;> omega
    subst hwhole
    have htaken := (matchedIn_iff hx).1 hmatched
    obtain ⟨m, hm⟩ := Option.isSome_iff_exists.1 (good_of_mem_greedy htaken).2
    obtain ⟨f, l, a, hf, hl, ha, heq⟩ := exactMatch_eq_some.1 hm
    have hends' : (f.1, l.2) = (0, name.toList.length) := by
      rw [← hplaces, TextLibrary.windowPlaces, hf, hl, Option.getD_some, Option.getD_some]
    rw [Prod.mk.injEq] at hends'
    rw [hends'.1, hends'.2, slice_all] at ha
    refine ⟨m, ?_, ?_, ?_⟩
    · rw [matched_eq, List.mem_append, List.mem_filterMap]
      exact Or.inl ⟨_, htaken, hm⟩
    · rw [heq, byteSpan, hends'.1, hends'.2, byteOffset_zero, byteOffset_length]
    · rw [heq, TextLibrary.resolveOne, ha]
      rfl

/-! ## Longer and shorter matches -/

/-- **When no exact match loses to a shorter one inside it**: every spelling of an alias that is a
run of words, and has a shorter exact match inside it that a window can reach, can be reached. -/
theorem neverLoses_iff (env : Env) (lib : TextLibrary) (o : Ontology) :
    (∀ text, NeverLoses env lib o text) ↔
      ∀ s : String, lib.Spells o s → lib.wordEnds s.toList = true →
        (∃ v, lib.ExactIn o s.toList v ∧ v.1 < (lib.extractWords s.toList).length ∧
          lib.Reaches o v.1) → lib.Reaches o (lib.extractWords s.toList).length := by
  constructor
  · rintro h s hspells hends ⟨v, hv, hshorter, hreaches⟩
    have hexact := exactIn_whole hspells hends
    rw [TextLibrary.reaches_iff hspells] at hreaches ⊢
    by_contra hlong
    -- some match is made inside, and a match that makes up for it would be as long as the whole
    obtain ⟨x, hx, -, -, hmatched⟩ := matchedIn_or_overlaps env hv hreaches
    have hmax := (isWindow_of_mem_taken ((matchedIn_iff hx).1 hmatched)).2
    have hinside : ShorterInside x ((lib.extractWords s.toList).length, 0) := by
      have := hx.2
      unfold ShorterInside
      dsimp only
      omega
    obtain ⟨y, hy, -, hle, hmatched'⟩ := h s.toList _ x hexact hx hinside hmatched
    have hmax' := (isWindow_of_mem_taken ((matchedIn_iff hy).1 hmatched')).2
    dsimp only at hle
    omega
  · intro h text w v hw hv hinside hmatched
    obtain ⟨hgood, hmax⟩ : lib.Spells o (lib.windowText text v) ∧ v.1 ≤ lib.maxAliasWords o := by
      have htaken := (matchedIn_iff hv).1 hmatched
      exact ⟨(isSome_exactMatch_iff hv).1 (good_of_mem_greedy htaken).2,
        (isWindow_of_mem_taken htaken).2⟩
    obtain ⟨hleft, hright, hshorter⟩ := hinside
    -- inside the text of the longer one there is the shorter one as well
    obtain ⟨hwindow, htext⟩ := TextLibrary.windowText_windowText hw.1 hv.1 ⟨hleft, hright⟩
    have hlength := TextLibrary.length_extractWords_windowText hw.1
    have hreaches := h (lib.windowText text w) hw.2 (TextLibrary.wordEnds_windowText hw.1)
      ⟨(v.1, v.2 - w.2), ⟨hwindow, by rwa [htext]⟩, by rw [hlength]; exact hshorter,
        (TextLibrary.reaches_iff hw.2).2 hmax⟩
    rw [hlength, TextLibrary.reaches_iff hw.2] at hreaches
    exact matchedIn_or_overlaps env hw hreaches

/-- **Text canonicalisation and single mentions.**  An alias as a text is matched as a whole, to
the entity it resolves to, exactly if it begins and ends with a word character and has no more
words than some alias has between its spaces.  In every text the mentions are apart from each other
and lie between characters of the text; and exact matches win over shorter ones inside them in
every text exactly if that bound holds for every spelling of an alias that has a shorter match
inside it. -/
theorem canonicalize_agrees_iff (env : Env) (hlib : lib.KeepsWords) (o : Ontology) :
    (∀ e ∈ o.entities, ∀ name ∈ e.names, CoversAlias env lib o name ↔
      lib.wordEnds name.toList = true ∧ lib.Reaches o (lib.extractWords name.toList).length) ∧
    (∀ text, (canonicalizeResult env lib o text).matched.Pairwise SpannedMention.Apart ∧
      ∀ m ∈ (canonicalizeResult env lib o text).matched, m.Placed text) ∧
    ((∀ text, NeverLoses env lib o text) ↔
      ∀ s : String, lib.Spells o s → lib.wordEnds s.toList = true →
        (∃ v, lib.ExactIn o s.toList v ∧ v.1 < (lib.extractWords s.toList).length ∧
          lib.Reaches o v.1) → lib.Reaches o (lib.extractWords s.toList).length) :=
  ⟨fun _ he _ hname => coversAlias_iff hlib he hname,
    fun text => ⟨pairwise_apart env lib o text, fun _ hm => placed_of_mem_matched hm⟩,
    neverLoses_iff env lib o⟩

/-! ## A dot in a name -/

theorem countWords_pos {lib : TextLibrary} {cs : List Char}
    (h : ∃ c ∈ cs, lib.isWhitespace c = false) : 0 < lib.countWords false cs := by
  induction cs with
  | nil => simp at h
  | cons c cs ih =>
    rw [TextLibrary.countWords]
    split
    · rename_i hc
      obtain ⟨d, hd, hspace⟩ := h
      rcases List.mem_cons.1 hd with rfl | hd
      · rw [hc] at hspace
        cases hspace
      · exact ih ⟨d, hd, hspace⟩
    · simp only [Bool.false_eq_true, if_false]
      omega

theorem keepsWords_plain : TextLibrary.plain.KeepsWords := by
  rintro name ⟨c, hc, hword⟩
  refine countWords_pos ⟨c, hc, ?_⟩
  show c.isWhitespace = false
  by_contra hspace
  simp only [Bool.not_eq_false, Char.isWhitespace, Bool.or_eq_true, decide_eq_true_eq] at hspace
  rcases hspace with ((rfl | rfl) | rfl) | rfl <;> revert hword <;> decide

/-- Two projects, one with a dot in its name. -/
def projectOntology : Ontology where
  entities :=
    [{ entityType := "project", canonical := "node", visibility := .pub },
      { entityType := "project", canonical := "node.js", visibility := .pub }]
  named := by decide
  canonicalsPerType := by decide

/-- Of the two names only the one without the dot is matched as a whole. -/
theorem canonicalize_agrees_projects :
    CoversAlias peopleEnv .plain projectOntology "node" ∧
      ¬ CoversAlias peopleEnv .plain projectOntology "node.js" := by
  obtain ⟨hcovers, -, -⟩ := canonicalize_agrees_iff peopleEnv keepsWords_plain projectOntology
  have hshort : ∀ e ∈ projectOntology.entities, ∀ name ∈ e.names,
      ¬ 2 ≤ TextLibrary.plain.countWords false (TextLibrary.plain.toLowercase name).toList := by decide
  refine ⟨(hcovers _ List.mem_cons_self "node" (by decide)).2
    ⟨by decide, _, List.mem_cons_self, "node", by decide, by decide⟩, fun h => ?_⟩
  obtain ⟨-, e, he, name, hname, hcount⟩ :=
    (hcovers _ (List.mem_cons_of_mem _ List.mem_cons_self) "node.js" (by decide)).1 h
  exact hshort e he name hname hcount

/-- The name with the dot is two words, and no alias has a space. -/
theorem node_js_is_lost :
    (TextLibrary.plain.resolveOne peopleEnv projectOntology "node.js").map MatchedMention.key =
        some ("project", "node.js") ∧
      ¬ CoversAlias peopleEnv .plain projectOntology "node.js" ∧
      ¬ NeverLoses peopleEnv .plain projectOntology "node.js".toList := by
  have hspans : (canonicalizeResult peopleEnv .plain projectOntology "node.js".toList).matched.map
      SpannedMention.span = [(0, 4)] := by decide +kernel
  have hspan : ∀ m ∈ (canonicalizeResult peopleEnv .plain projectOntology "node.js".toList).matched,
      m.span = (0, 4) := by
    intro m hm
    have hmem := List.mem_map_of_mem (f := SpannedMention.span) hm
    rwa [hspans, List.mem_singleton] at hmem
  refine ⟨by decide +kernel, ?_, fun h => ?_⟩
  · rintro ⟨m, hm, hwhole, -⟩
    rw [hspan m hm] at hwhole
    revert hwhole
    decide
  · have hexact : TextLibrary.plain.ExactIn projectOntology "node.js".toList (2, 0) :=
      ⟨by unfold IsWindow; decide, _, List.mem_cons_of_mem _ List.mem_cons_self, by decide⟩
    have hmatched : MatchedIn peopleEnv .plain projectOntology "node.js".toList (1, 0) := by
      unfold MatchedIn
      decide +kernel
    obtain ⟨x, hx, -, hle, m, hm, -, hplaces⟩ := h (2, 0) (1, 0) hexact (by unfold IsWindow; decide)
      (by unfold ShorterInside; decide) hmatched
    -- there is one window of two words
    have hcount : (TextLibrary.plain.extractWords "node.js".toList).length = 2 := by decide
    have hx' : x = (2, 0) := by
      unfold IsWindow at hx
      dsimp only at hle
      ext <;> omega
    rw [hspan m hm, hx'] at hplaces
    revert hplaces
    decide

end Spectral
