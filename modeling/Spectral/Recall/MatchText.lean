import Spectral.Lib.Quoting
import Spectral.Recall.Search

/-!
# The text of a full-text search

`fts_search_scoped` writes the words of a query into an FTS5 expression, each in quotes, with ORs
between them.  The words are of the user, so what matters is that an expression says no more than
them: no word of it is taken for an operator, and none ends its quotes.

* `readMatch` — an FTS5 expression of phrases, read back.
* `rawPhrases` — the phrases of a word for the unstemmed index.
* `readMatch_exact` — whatever the words are, an expression has them as phrases and nothing else.
-/

namespace Spectral

open Spectral.Lib

/-- The phrases of an FTS5 expression: strings in quotes, in which a doubled quote stands for one,
between ORs. -/
def readMatch (query : String) : Option (List String) :=
  (unquoteAll '"' " OR ".toList query.toList).map (List.map String.ofList)

theorem quote_notMem_withoutQuotes (w : String) : '"' ∉ (withoutQuotes w).toList := by
  rw [withoutQuotes, String.toList_ofList, List.mem_filter]
  simp

theorem toList_quoted (w : String) : (quoted w).toList = inQuotes '"' w.toList := by
  rw [quoted, String.toList_append, String.toList_append]
  rfl

/-- Phrases without quotes are read back. -/
theorem readMatch_intercalate {words : List String} (h : ∀ w ∈ words, '"' ∉ w.toList) :
    readMatch (" OR ".intercalate (words.map quoted)) = some words := by
  have htext : (" OR ".intercalate (words.map quoted)).toList =
      " OR ".toList.intercalate ((words.map String.toList).map (inQuotes '"')) := by
    rw [String.toList_intercalate, List.map_map, List.map_map]
    exact congrArg _ (List.map_congr_left fun w _ => toList_quoted w)
  have hwords : ∀ w ∈ words.map String.toList, '"' ∉ w := by
    intro w hw
    obtain ⟨s, hs, rfl⟩ := List.mem_map.1 hw
    exact h s hs
  rw [readMatch, htext, unquoteAll_intercalate (by decide) (by decide) hwords, Option.map_some,
    List.map_map]
  congr 1
  exact (List.map_congr_left fun w _ => String.ofList_toList).trans (List.map_id words)

/-- The phrases of a word in the expression for the unstemmed index: the word, and its singular when
it looks like a regular plural. -/
def rawPhrases (toLowercase : String → String) (w : String) : List String :=
  let cleaned := withoutQuotes w
  let lower := toLowercase cleaned
  let endsWith (suffix : String) : Bool := decide (suffix.toList <:+ lower.toList)
  if 3 < lower.utf8ByteSize && endsWith "s" && !endsWith "ss" && !endsWith "us" && !endsWith "is" then
    [cleaned, String.ofList cleaned.toList.dropLast]
  else [cleaned]

theorem rawForms_eq (toLowercase : String → String) (w : String) :
    rawForms toLowercase w = (rawPhrases toLowercase w).map quoted := by
  unfold rawForms rawPhrases
  dsimp only
  rw [apply_ite (List.map quoted)]
  rfl

/-- The word itself comes first. -/
theorem rawPhrases_cases (toLowercase : String → String) (w : String) :
    rawPhrases toLowercase w = [withoutQuotes w] ∨
      rawPhrases toLowercase w =
        [withoutQuotes w, String.ofList (withoutQuotes w).toList.dropLast] := by
  exact (ite_eq_or_eq _ _ _).symm

theorem quote_notMem_rawPhrases {toLowercase : String → String} {w v : String}
    (h : v ∈ rawPhrases toLowercase w) : '"' ∉ v.toList := by
  have hclean := quote_notMem_withoutQuotes w
  have hdrop : '"' ∉ (String.ofList (withoutQuotes w).toList.dropLast).toList := by
    rw [String.toList_ofList]
    exact fun hmem => hclean (List.mem_of_mem_dropLast hmem)
  rcases rawPhrases_cases toLowercase w with heq | heq
  · rw [heq, List.mem_singleton] at h
    subst h
    exact hclean
  · rw [heq, List.mem_pair] at h
    rcases h with h | h
    · subst h
      exact hclean
    · subst h
      exact hdrop

theorem length_flatMap_rawPhrases_le (toLowercase : String → String) (words : List String) :
    (words.flatMap (rawPhrases toLowercase)).length ≤ 2 * words.length := by
  induction words with
  | nil => exact le_rfl
  | cons w words ih =>
    have hw : (rawPhrases toLowercase w).length ≤ 2 := by
      rcases rawPhrases_cases toLowercase w with heq | heq <;> simp [heq]
    rw [List.flatMap_cons, List.length_append, List.length_cons]
    omega

/-- No word is lost for its singular. -/
theorem sublist_flatMap_rawPhrases (toLowercase : String → String) (words : List String) :
    (words.map withoutQuotes).Sublist (words.flatMap (rawPhrases toLowercase)) := by
  induction words with
  | nil => exact .slnil
  | cons w words ih =>
    have hw : [withoutQuotes w].Sublist (rawPhrases toLowercase w) := by
      rcases rawPhrases_cases toLowercase w with heq | heq
      · rw [heq]
      · rw [heq]
        exact List.singleton_sublist.2 List.mem_cons_self
    rw [List.map_cons, List.flatMap_cons]
    exact hw.append ih

/-- The words of a search that count: the first 64, without the empty ones. -/
def searchWords (queryWords : List String) : List String :=
  (queryWords.take maxFtsTerms).filter (· ≠ "")

/-- **Whatever the words are, an expression has them as phrases and nothing else**: for the stemmed
index at most 64 words without their quotes, and for the unstemmed one the same, some followed by
their singulars. -/
theorem readMatch_exact (toLowercase : String → String) (queryWords : List String) :
    readMatch (ftsQuery (queryWords.take maxFtsTerms)) =
        some ((searchWords queryWords).map withoutQuotes) ∧
      readMatch (rawQuery toLowercase (queryWords.take maxFtsTerms)) =
        some ((searchWords queryWords).flatMap (rawPhrases toLowercase)) ∧
      (searchWords queryWords).length ≤ 64 ∧
      ((searchWords queryWords).flatMap (rawPhrases toLowercase)).length ≤ 128 ∧
      ((searchWords queryWords).map withoutQuotes).Sublist
        ((searchWords queryWords).flatMap (rawPhrases toLowercase)) := by
  have hlength : (searchWords queryWords).length ≤ 64 :=
    (List.length_filter_le _ _).trans (List.length_take_le _ _)
  refine ⟨?_, ?_, hlength, ?_, ?_⟩
  · have hquery : ftsQuery (queryWords.take maxFtsTerms) =
        " OR ".intercalate (((searchWords queryWords).map withoutQuotes).map quoted) := by
      rw [ftsQuery, List.map_map]
      rfl
    rw [hquery, readMatch_intercalate fun v hv => ?_]
    obtain ⟨w, -, rfl⟩ := List.mem_map.1 hv
    exact quote_notMem_withoutQuotes w
  · have hquery : rawQuery toLowercase (queryWords.take maxFtsTerms) =
        " OR ".intercalate
          (((searchWords queryWords).flatMap (rawPhrases toLowercase)).map quoted) := by
      rw [rawQuery, List.map_flatMap]
      exact congrArg _ (List.flatMap_congr fun w _ => rawForms_eq toLowercase w)
    rw [hquery, readMatch_intercalate fun v hv => ?_]
    obtain ⟨w, -, hv⟩ := List.mem_flatMap.1 hv
    exact quote_notMem_rawPhrases hv
  · have htwo := length_flatMap_rawPhrases_le toLowercase (searchWords queryWords)
    omega
  · exact sublist_flatMap_rawPhrases toLowercase (searchWords queryWords)

example : readMatch (ftsQuery ["a\" OR \"b", "NOT"]) = some ["a OR b", "NOT"] := by decide +kernel

end Spectral
