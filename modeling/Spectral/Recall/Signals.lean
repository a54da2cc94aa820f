import Mathlib.Algebra.Order.Field.Rat
import Mathlib.Order.Lattice.Nat
import Mathlib.Tactic.FieldSimp
import Spectral.Lib.Window
import Spectral.Recognition.Extract

/-!
# Signals of the re-ranking

Two scores that re-ranking reads off the text of a candidate.

* `declarativeDensity` — the share of sentences in the first person.  A sentence loses its mark in
  the split, so a question counts like a statement: `declarativeDensity_eq_iff`.
* `proximityScore` — how close the terms of a query are in the text.  The search for the shortest
  window is that of `Spectral.Lib.Window`; what the score divides by counts a term once for each
  query word that folds to it: `proximityScore_eq_iff`.

A text is a list of characters.  Unicode is the tables of `CharTables`.
-/

namespace Spectral

open Spectral.Lib

/-- `str::split_whitespace`. -/
def CharTables.splitWhitespace (u : CharTables) (text : List Char) : List (List Char) :=
  (text.splitOnP fun c => u.isWhitespace c).filter fun w => w ≠ []

/-! ## Declarative density -/

/-- What a sentence ends with. -/
def isTerminator (c : Char) : Bool := c = '.' || c = '!' || c = '?'

/-- The words of the first person. -/
def firstPersonWords : List String := ["i", "me", "my", "mine", "i've", "i'm", "i'll", "i'd"]

section

variable (u : CharTables)

/-- A sentence of at least three words. -/
def isLongSentence (s : List Char) : Bool := decide (3 ≤ (u.splitWhitespace s).length)

/-- `has_first_person`. -/
def hasFirstPerson (s : List Char) : Bool :=
  (u.splitWhitespace (u.toLowercase s)).any fun w => String.ofList w ∈ firstPersonWords

/-- `declarative_density`. -/
def declarativeDensity (content : List Char) : ℚ :=
  let sentences := (content.splitOnP isTerminator).filter (isLongSentence u)
  if sentences = [] then 0
  else
    let declarative := sentences.countP fun s => hasFirstPerson u s && decide ('?' ∉ s)
    declarative / sentences.length

/-- The sentences of a text, each with the mark that ends it. -/
def markedSentences : List Char → List (List Char × Option Char)
  | [] => [([], none)]
  | c :: cs =>
    if isTerminator c then ([], some c) :: markedSentences cs
    else (markedSentences cs).modifyHead fun s => (c :: s.1, s.2)

/-- What the density is meant to be: the share of statements in the first person among the sentences
of at least three words. -/
def statementDensity (content : List Char) : ℚ :=
  let sentences := (markedSentences content).filter fun s => isLongSentence u s.1
  if sentences = [] then 0
  else
    let statements := sentences.countP fun s => hasFirstPerson u s.1 && decide (s.2 ≠ some '?')
    statements / sentences.length

end

theorem map_markedSentences (content : List Char) :
    (markedSentences content).map Prod.fst = content.splitOnP isTerminator := by
  induction content with
  | nil => rfl
  | cons c cs ih =>
    rw [List.splitOnP_cons_eq_if_modifyHead, ← ih, markedSentences]
    by_cases hc : isTerminator c = true
    · simp [hc]
    · simp only [hc]
      cases markedSentences cs <;> rfl

section

variable {u : CharTables} {content : List Char}

/-- The split leaves no question mark in a sentence. -/
theorem questionMark_notMem {s : List Char} (h : s ∈ content.splitOnP isTerminator) : '?' ∉ s :=
  fun hmem => absurd (of_mem_splitOnP h '?' hmem).2 (by decide)

/-- What the code counts: the sentences of at least three words, and those of them in the first
person. -/
theorem declarativeDensity_eq :
    declarativeDensity u content =
      (((markedSentences content).filter fun s => isLongSentence u s.1).countP fun s =>
          hasFirstPerson u s.1 : ℕ) /
        (((markedSentences content).filter fun s => isLongSentence u s.1).length : ℕ) := by
  have hfilter : (content.splitOnP isTerminator).filter (isLongSentence u) =
      ((markedSentences content).filter fun s => isLongSentence u s.1).map Prod.fst := by
    rw [← map_markedSentences, List.filter_map]
    rfl
  have hcount : ((content.splitOnP isTerminator).filter (isLongSentence u)).countP
      (fun s => hasFirstPerson u s && decide ('?' ∉ s)) =
        ((markedSentences content).filter fun s => isLongSentence u s.1).countP fun s =>
          hasFirstPerson u s.1 := by
    have hcongr := List.countP_congr (l := (content.splitOnP isTerminator).filter (isLongSentence u))
      (p := fun s => hasFirstPerson u s && decide ('?' ∉ s)) (q := hasFirstPerson u) ?_
    · rw [hcongr, hfilter, List.countP_map]
      rfl
    · intro s hs
      simp [questionMark_notMem (List.mem_filter.1 hs).1]
  unfold declarativeDensity
  dsimp only
  rw [hcount]
  split
  · rename_i hnil
    rw [hfilter, List.map_eq_nil_iff] at hnil
    simp [hnil]
  · rw [hfilter, List.length_map]

/-- **Declarative density.**  It is the share of statements exactly when no sentence of at least
three words in the first person ends with a question mark. -/
theorem declarativeDensity_eq_iff (u : CharTables) (content : List Char) :
    declarativeDensity u content = statementDensity u content ↔
      ∀ s ∈ markedSentences content, isLongSentence u s.1 = true → hasFirstPerson u s.1 = true →
        s.2 ≠ some '?' := by
  rw [declarativeDensity_eq]
  unfold statementDensity
  dsimp only
  split
  · rename_i hnil
    rw [List.filter_eq_nil_iff] at hnil
    have hnone : ((markedSentences content).filter fun s => isLongSentence u s.1) = [] :=
      List.filter_eq_nil_iff.2 hnil
    simp only [hnone, List.countP_nil, List.length_nil]
    refine iff_of_true (by simp) fun s hs hlong => absurd hlong (hnil s hs)
  · rename_i hne
    have hpos : ((((markedSentences content).filter fun s => isLongSentence u s.1).length : ℕ) : ℚ)
        ≠ 0 := by
      simpa using hne
    rw [div_left_inj' hpos, Nat.cast_inj, countP_eq_countP_and_iff]
    simp only [List.mem_filter, and_imp, decide_eq_true_eq]

end

/-- A question in the first person. -/
theorem question_counts_as_statement :
    declarativeDensity .ascii "Where did I park?".toList = 1 ∧
      statementDensity .ascii "Where did I park?".toList = 0 := by
  decide +kernel

/-! ## Proximity -/

/-- `fold_token`: without the first of the endings that leaves at least three bytes. -/
def foldToken (w : List Char) : List Char :=
  (["ing", "ed", "es", "ly", "s"].findSome? fun suffix =>
    (stripSuffix w suffix).filter fun stem => decide (3 ≤ byteLen stem)).getD w

section

variable (u : CharTables)

/-- A character of a token. -/
def isTokenChar (c : Char) : Bool := u.isAlphanumeric c || c = '_' || c = '-' || c = '\''

/-- `wanted`: what the query words fold to. -/
def queryTerms (queryWords : List (List Char)) : List (List Char) :=
  queryWords.map fun w => foldToken (u.toLowercase w)

/-- What the tokens of a text fold to. -/
def contentTerms (content : List Char) : List (List Char) :=
  ((content.splitOnP fun c => !isTokenChar u c).filter fun t => t ≠ []).map fun t =>
    foldToken (u.toLowercase t)

/-- The places of the terms that are wanted, with the first place each has among the wanted. -/
def proximityHits (wanted terms : List (List Char)) : List (ℕ × ℕ) :=
  terms.zipIdx.filterMap fun t => (wanted.idxOf? t.1).map fun ti => (t.2, ti)

/-- `proximity_score`. -/
def proximityScore (content : List Char) (queryWords : List (List Char)) : ℚ :=
  if queryWords.length < 2 ∨ content = [] then 0
  else
    let wanted := queryTerms u queryWords
    let hits := proximityHits wanted (contentTerms u content)
    if hits.length < 2 then 0
    else
      let matched := (hits.map Prod.snd).toFinset.card
      if matched < 2 then 0
      else
        let coverage : ℚ := matched / wanted.length
        match shortestSpan matched hits with
        | none => 0
        | some best =>
          let density : ℚ := (matched - 1 : ℕ) / (max (best - 1) 1 : ℕ)
          coverage * min density 1

/-- The distinct terms of a query that a text has. -/
def occurringTerms (content : List Char) (queryWords : List (List Char)) : List (List Char) :=
  (queryTerms u queryWords).dedup.filter fun t => t ∈ contentTerms u content

/-- The length of the shortest window of tokens that has all of them. -/
noncomputable def shortestWindow (content : List Char) (queryWords : List (List Char)) : ℕ :=
  sInf {w | ∃ i, ∀ t ∈ occurringTerms u content queryWords,
    t ∈ ((contentTerms u content).drop i).take w}

/-- What the score is meant to be: the share of the distinct terms that the text has, less the
farther apart they are. -/
noncomputable def proximityOf (content : List Char) (queryWords : List (List Char)) : ℚ :=
  let matched := (occurringTerms u content queryWords).length
  if matched < 2 then 0
  else (matched : ℚ) / (queryTerms u queryWords).dedup.length *
    min 1 (((matched - 1 : ℕ) : ℚ) / (max 1 (shortestWindow u content queryWords - 1) : ℕ))

end

section

variable {u : CharTables} {content : List Char} {queryWords : List (List Char)}

theorem idxOf?_of_mem {wanted : List (List Char)} {t : List Char} (h : t ∈ wanted) :
    wanted.idxOf? t = some (wanted.idxOf t) := by
  obtain ⟨i, hi⟩ := Option.isSome_iff_exists.1 (List.isSome_idxOf?.2 h)
  rw [List.idxOf_eq_getD_idxOf?, hi, Option.getD_some]

/-- A hit is a wanted term at a place, under the first place the term has among the wanted. -/
theorem mem_proximityHits {wanted terms : List (List Char)} {p ti : ℕ} :
    (p, ti) ∈ proximityHits wanted terms ↔ ∃ t ∈ wanted, terms[p]? = some t ∧ wanted.idxOf t = ti := by
  unfold proximityHits
  rw [List.mem_filterMap]
  constructor
  · rintro ⟨⟨t, q⟩, hmem, heq⟩
    obtain ⟨i, hi, hpair⟩ := Option.map_eq_some_iff.1 heq
    obtain ⟨rfl, rfl⟩ := Prod.mk.inj hpair
    have hin : t ∈ wanted := List.isSome_idxOf?.1 (by rw [hi]; rfl)
    rw [idxOf?_of_mem hin] at hi
    exact ⟨t, hin, List.mem_zipIdx_iff_getElem?.1 hmem, Option.some.inj hi⟩
  · rintro ⟨t, ht, hp, rfl⟩
    refine ⟨(t, p), List.mem_zipIdx_iff_getElem?.2 hp, ?_⟩
    rw [idxOf?_of_mem ht]
    rfl

/-- The hits are in the order of their places. -/
theorem pairwise_proximityHits (wanted terms : List (List Char)) :
    (proximityHits wanted terms).Pairwise fun a b => a.1 < b.1 := by
  unfold proximityHits
  have hplaces : terms.zipIdx.Pairwise fun a b => a.2 < b.2 := by
    rw [← List.pairwise_map (f := Prod.snd) (R := (· < ·)), List.zipIdx_map_snd]
    exact List.pairwise_lt_range'
  refine List.pairwise_filterMap.2 (hplaces.imp fun {a b} hlt x hx y hy => ?_)
  obtain ⟨i, -, rfl⟩ := Option.map_eq_some_iff.1 hx
  obtain ⟨j, -, rfl⟩ := Option.map_eq_some_iff.1 hy
  exact hlt

/-- The tags of the hits are the wanted terms that occur, by their places among the wanted. -/
theorem tags_proximityHits (wanted terms : List (List Char)) :
    tags (proximityHits wanted terms) =
      ((wanted.dedup.filter fun t => t ∈ terms).map fun t => wanted.idxOf t).toFinset := by
  ext ti
  simp only [mem_tags, mem_proximityHits, List.mem_toFinset, List.mem_map, List.mem_filter,
    List.mem_dedup, decide_eq_true_eq]
  constructor
  · rintro ⟨p, t, ht, hp, rfl⟩
    exact ⟨t, ⟨ht, List.mem_of_getElem? hp⟩, rfl⟩
  · rintro ⟨t, ⟨ht, hin⟩, rfl⟩
    obtain ⟨p, hp⟩ := List.mem_iff_getElem?.1 hin
    exact ⟨p, t, ht, hp, rfl⟩

/-- `matched` counts the distinct terms that occur. -/
theorem card_tags_proximityHits (wanted terms : List (List Char)) :
    (tags (proximityHits wanted terms)).card = (wanted.dedup.filter fun t => t ∈ terms).length := by
  rw [tags_proximityHits, List.toFinset_card_of_nodup, List.length_map]
  refine List.Nodup.map_on (fun t ht t' ht' heq => ?_) (wanted.nodup_dedup.filter _)
  have hmem := List.mem_dedup.1 (List.mem_filter.1 ht).1
  exact (List.idxOf_inj hmem).1 heq

/-- The windows of tokens that have all terms are the intervals that have a hit of each. -/
theorem windows_eq (wanted terms : List (List Char)) :
    {w | ∃ i, ∀ ti ∈ tags (proximityHits wanted terms),
        ∃ p, (p, ti) ∈ proximityHits wanted terms ∧ i ≤ p ∧ p < i + w} =
      {w | ∃ i, ∀ t ∈ wanted.dedup.filter (fun t => t ∈ terms), t ∈ (terms.drop i).take w} := by
  have hslice : ∀ (i w : ℕ) (t : List Char),
      t ∈ (terms.drop i).take w ↔ ∃ p, i ≤ p ∧ p < i + w ∧ terms[p]? = some t := by
    intro i w t
    rw [List.mem_iff_getElem?]
    constructor
    · rintro ⟨k, hk⟩
      rw [List.getElem?_take, List.getElem?_drop] at hk
      split at hk
      · exact ⟨i + k, by omega, by omega, hk⟩
      · cases hk
    · rintro ⟨p, hle, hlt, hp⟩
      refine ⟨p - i, ?_⟩
      rw [List.getElem?_take, List.getElem?_drop, if_pos (by omega),
        Nat.add_sub_cancel' hle]
      exact hp
  ext w
  refine exists_congr fun i => ?_
  rw [tags_proximityHits]
  simp only [List.mem_toFinset, List.mem_map, forall_exists_index, and_imp,
    forall_apply_eq_imp_iff₂, hslice]
  refine forall₂_congr fun t ht => exists_congr fun p => ?_
  have hwanted := List.mem_dedup.1 (List.mem_filter.1 ht).1
  rw [mem_proximityHits]
  constructor
  · rintro ⟨⟨t', ht', hp, hidx⟩, hle, hlt⟩
    rw [(List.idxOf_inj ht').1 hidx] at hp
    exact ⟨hle, hlt, hp⟩
  · rintro ⟨hle, hlt, hp⟩
    exact ⟨⟨t, hwanted, hp, rfl⟩, hle, hlt⟩

/-- The score, in terms of the terms that occur: the share is taken of all query words. -/
theorem proximityScore_eq (u : CharTables) (content : List Char) (queryWords : List (List Char)) :
    proximityScore u content queryWords =
      if (occurringTerms u content queryWords).length < 2 then 0
      else ((occurringTerms u content queryWords).length : ℚ) / (queryTerms u queryWords).length *
        min 1 ((((occurringTerms u content queryWords).length - 1 : ℕ) : ℚ) /
          (max 1 (shortestWindow u content queryWords - 1) : ℕ)) := by
  set wanted := queryTerms u queryWords with hwanted
  set terms := contentTerms u content with hterms
  have hcard : (tags (proximityHits wanted terms)).card =
      (occurringTerms u content queryWords).length := card_tags_proximityHits wanted terms
  have hle : (occurringTerms u content queryWords).length ≤ queryWords.length := by
    refine (List.length_filter_le _ _).trans ((List.dedup_sublist wanted).length_le.trans ?_)
    simp [hwanted, queryTerms]
  unfold proximityScore
  by_cases hshort : queryWords.length < 2 ∨ content = []
  · have hfew : (occurringTerms u content queryWords).length < 2 := by
      rcases hshort with hshort | rfl
      · omega
      · simp [occurringTerms, contentTerms]
    rw [if_pos hshort, if_pos hfew]
  rw [if_neg hshort]
  dsimp only
  rw [← hwanted, ← hterms]
  have hhits : (tags (proximityHits wanted terms)).card ≤ (proximityHits wanted terms).length := by
    refine (List.toFinset_card_le _).trans ?_
    rw [List.length_map]
  by_cases hfew : (proximityHits wanted terms).length < 2
  · rw [if_pos hfew, if_pos (by omega)]
  rw [if_neg hfew]
  have hne : proximityHits wanted terms ≠ [] := by
    intro hnil
    simp [hnil] at hfew
  obtain ⟨best, hbest, hleast⟩ :=
    isLeast_shortestSpan hne (pairwise_proximityHits wanted terms)
  rw [windows_eq] at hleast
  have hwindow : shortestWindow u content queryWords = best := hleast.csInf_eq
  rw [show ((proximityHits wanted terms).map Prod.snd).toFinset.card =
    (occurringTerms u content queryWords).length from hcard]
  rw [hcard] at hbest
  split
  · rfl
  · rw [hbest, hwindow, min_comm, max_comm]

/-- **Proximity.**  The score is the one that is meant exactly when fewer than two terms occur, or
no two query words fold to one term. -/
theorem proximityScore_eq_iff (u : CharTables) (content : List Char)
    (queryWords : List (List Char)) :
    proximityScore u content queryWords = proximityOf u content queryWords ↔
      (occurringTerms u content queryWords).length < 2 ∨ (queryTerms u queryWords).Nodup := by
  rw [proximityScore_eq]
  unfold proximityOf
  dsimp only
  by_cases hfew : (occurringTerms u content queryWords).length < 2
  · simp [hfew]
  rw [if_neg hfew, if_neg hfew, or_iff_right hfew]
  have hdistinct : (occurringTerms u content queryWords).length ≤
      (queryTerms u queryWords).dedup.length := List.length_filter_le _ _
  have hall : (queryTerms u queryWords).dedup.length ≤ (queryTerms u queryWords).length :=
    (List.dedup_sublist _).length_le
  set matched := (occurringTerms u content queryWords).length
  set wanted := queryTerms u queryWords
  have hdensity : (0 : ℚ) <
      min 1 (((matched - 1 : ℕ) : ℚ) /
        (max 1 (shortestWindow u content queryWords - 1) : ℕ)) := by
    refine lt_min one_pos (div_pos ?_ ?_)
    · exact Nat.cast_pos.2 (by omega)
    · exact Nat.cast_pos.2 (by omega)
  have hmatched : (matched : ℚ) ≠ 0 := Nat.cast_ne_zero.2 (by omega)
  rw [mul_left_inj' hdensity.ne', div_eq_mul_inv, div_eq_mul_inv, mul_right_inj' hmatched,
    inv_inj, Nat.cast_inj]
  constructor
  · intro heq
    rw [← List.dedup_eq_self]
    exact (List.dedup_sublist wanted).eq_of_length heq.symm
  · intro hnodup
    rw [hnodup.dedup]

/-- A query of three words that are two terms, on a text that has both side by side. -/
theorem proximityScore_counts_word_twice :
    proximityScore .ascii "review budget".toList
        ["review".toList, "reviewed".toList, "budget".toList] = 2 / 3 ∧
      proximityOf .ascii "review budget".toList
        ["review".toList, "reviewed".toList, "budget".toList] = 1 := by
  refine ⟨by decide +kernel, ?_⟩
  have hoccur : (occurringTerms .ascii "review budget".toList
      ["review".toList, "reviewed".toList, "budget".toList]).length = 2 := by decide +kernel
  have hdistinct : (queryTerms .ascii
      ["review".toList, "reviewed".toList, "budget".toList]).dedup.length = 2 := by decide +kernel
  have hwindow : shortestWindow .ascii "review budget".toList
      ["review".toList, "reviewed".toList, "budget".toList] ≤ 2 :=
    Nat.sInf_le ⟨0, by decide +kernel⟩
  unfold proximityOf
  dsimp only
  rw [hoccur, hdistinct, max_eq_left (by omega)]
  norm_num

end

end Spectral
