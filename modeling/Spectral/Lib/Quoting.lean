import Mathlib.Data.List.Basic
import Mathlib.Order.Basic

/-!
# Lists of quoted words

Words between quotes are joined by a separator.  A reader that takes a doubled quote inside a word for
one quote gets back the words, when none of them has a quote: no word can end its own quotes.

* `readQuoted` — one word, from behind its opening quote.
* `unquoteAll` — the words of a text.
* `unquoteAll_intercalate` — what was joined is read back.
-/

namespace Spectral.Lib

section

variable {α : Type*}

/-- A word between quotes. -/
def inQuotes (quote : α) (word : List α) : List α := quote :: (word ++ [quote])

/-- There are at most as many words as characters. -/
theorem length_le_intercalate (quote : α) (sep : List α) (words : List (List α)) :
    words.length ≤ (sep.intercalate (words.map (inQuotes quote))).length := by
  induction words with
  | nil => exact Nat.zero_le _
  | cons w words ih =>
    cases words with
    | nil => simp [inQuotes]
    | cons v words =>
      rw [List.map_cons, List.intercalate_cons_of_ne_nil (by simp), inQuotes]
      simp only [List.length_append, List.length_cons] at ih ⊢
      omega

variable [DecidableEq α] (quote : α)

/-- The word up to the closing quote, and what comes after it. -/
def readQuoted : List α → Option (List α × List α)
  | [] => none
  | [c] => if c = quote then some ([], []) else none
  | c :: d :: rest =>
    if c = quote then
      if d = quote then (readQuoted rest).map fun r => (quote :: r.1, r.2) else some ([], d :: rest)
    else (readQuoted (d :: rest)).map fun r => (c :: r.1, r.2)

variable (sep : List α)

/-- A word after an opening quote, and others after separators. -/
def readJoined : ℕ → List α → Option (List (List α))
  | 0, _ => none
  | _, [] => none
  | n + 1, c :: rest =>
    if c = quote then
      match readQuoted quote rest with
      | none => none
      | some (word, []) => some [word]
      | some (word, after) =>
        if sep.isPrefixOf after then (readJoined n (after.drop sep.length)).map (word :: ·) else none
    else none

/-- The words of a text. -/
def unquoteAll (text : List α) : Option (List (List α)) :=
  if text = [] then some [] else readJoined quote sep text.length text

end

variable {α : Type*} [DecidableEq α] {quote : α} {sep : List α}

/-- A word without quotes is read to its closing quote. -/
theorem readQuoted_append {word rest : List α} (hword : quote ∉ word)
    (hrest : rest.head? ≠ some quote) :
    readQuoted quote (word ++ quote :: rest) = some (word, rest) := by
  induction word with
  | nil =>
    cases rest with
    | nil => exact if_pos rfl
    | cons d rest =>
      have hd : d ≠ quote := fun heq => hrest (congrArg some heq)
      rw [List.nil_append, readQuoted, if_pos rfl, if_neg hd]
  | cons c word ih =>
    rw [List.mem_cons, not_or] at hword
    have hc : c ≠ quote := fun heq => hword.1 heq.symm
    have hread : ∀ l, l ≠ [] →
        readQuoted quote (c :: l) = (readQuoted quote l).map fun r => (c :: r.1, r.2) := by
      intro l hl
      cases l with
      | nil => exact absurd rfl hl
      | cons d l => rw [readQuoted, if_neg hc]
    rw [List.cons_append, hread _ (by simp), ih hword.2]
    rfl

/-- The loop reads one word after the other. -/
theorem readJoined_intercalate (hsep : sep ≠ []) (hhead : sep.head? ≠ some quote)
    {words : List (List α)} (hne : words ≠ []) (hwords : ∀ w ∈ words, quote ∉ w) {n : ℕ}
    (hn : words.length ≤ n) :
    readJoined quote sep n (sep.intercalate (words.map (inQuotes quote))) = some words := by
  induction words generalizing n with
  | nil => exact absurd rfl hne
  | cons w words ih =>
    obtain ⟨m, rfl⟩ : ∃ m, n = m + 1 := Nat.exists_eq_add_one.2 (Nat.lt_of_lt_of_le (by simp) hn)
    have hw := hwords w List.mem_cons_self
    cases words with
    | nil =>
      have hread : readQuoted quote (w ++ [quote]) = some (w, []) := readQuoted_append hw (by simp)
      rw [List.map_singleton, List.intercalate_singleton, inQuotes, readJoined, if_pos rfl, hread]
    | cons v words =>
      obtain ⟨c, sep', rfl⟩ := List.exists_cons_of_ne_nil hsep
      have htail := ih (List.cons_ne_nil v words) (fun w hw => hwords w (List.mem_cons_of_mem _ hw))
        (Nat.le_of_succ_le_succ hn)
      rw [List.map_cons, List.intercalate_cons_of_ne_nil (by simp)]
      generalize (c :: sep').intercalate ((v :: words).map (inQuotes quote)) = text at htail ⊢
      have hread : readQuoted quote (w ++ quote :: (c :: sep' ++ text)) =
          some (w, c :: sep' ++ text) := readQuoted_append hw hhead
      have hshape : inQuotes quote w ++ (c :: sep') ++ text =
          quote :: (w ++ quote :: (c :: sep' ++ text)) := by simp [inQuotes]
      have hfront : (c :: sep').isPrefixOf (c :: sep' ++ text) = true :=
        List.isPrefixOf_iff_prefix.2 (List.prefix_append _ _)
      rw [hshape, readJoined, if_pos rfl, hread]
      show (if (c :: sep').isPrefixOf (c :: sep' ++ text) = true then _ else _) = _
      rw [if_pos hfront, List.drop_left, htail]
      rfl

/-- **What was joined is read back.** -/
theorem unquoteAll_intercalate (hsep : sep ≠ []) (hhead : sep.head? ≠ some quote)
    {words : List (List α)} (hwords : ∀ w ∈ words, quote ∉ w) :
    unquoteAll quote sep (sep.intercalate (words.map (inQuotes quote))) = some words := by
  have hlength := length_le_intercalate quote sep words
  unfold unquoteAll
  split
  · rename_i hempty
    rw [hempty, List.length_nil, Nat.le_zero, List.length_eq_zero_iff] at hlength
    rw [hlength]
  · rename_i htext
    refine readJoined_intercalate hsep hhead (fun hnil => htext ?_) hwords hlength
    rw [hnil]
    rfl

end Spectral.Lib
