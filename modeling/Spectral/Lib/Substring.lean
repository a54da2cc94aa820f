import Mathlib.Data.List.DropRight
import Mathlib.Data.List.Infix

/-!
# Finding a piece of a text

* `fromFirst` — what a list has from the first occurrence of a pattern on.
* `upTo` — what it has before the first occurrence of an element.
* `fromFirst_append` — a mark that nothing before the pattern has tells where it stands.
* `strip_strip` — cutting both ends of a list a second time changes nothing.
-/

namespace Spectral.Lib

variable {α : Type*}

/-- A pattern does not stand where its mark would be missing. -/
theorem not_prefix_of_mark {pre a b rest : List α} {mark c : α} (hc : mark ≠ c) (ha : mark ∉ a)
    (hpre : mark ∉ pre) : ¬ a ++ mark :: b <+: c :: (pre ++ (a ++ mark :: b ++ rest)) := by
  intro h
  have hstart : (c :: (pre ++ a)).take (a.length + 1) <+: c :: (pre ++ (a ++ mark :: b ++ rest)) :=
    (List.take_prefix _ _).trans ⟨mark :: b ++ rest, by simp⟩
  have hmark : a ++ [mark] <+: c :: (pre ++ (a ++ mark :: b ++ rest)) :=
    (List.prefix_iff_eq_append.2 (by simp)).trans h
  have hsame : a ++ [mark] = (c :: (pre ++ a)).take (a.length + 1) :=
    (List.prefix_of_prefix_length_le hmark hstart (by simp)).eq_of_length (by simp)
  have htake : mark ∈ (c :: (pre ++ a)).take (a.length + 1) := by
    rw [← hsame]
    simp
  have hmem := List.mem_of_mem_take htake
  simp_all

section Find

variable [DecidableEq α] {pat pre text : List α}

/-- The rest of a list from the first occurrence of a pattern on. -/
def fromFirst (pat : List α) : List α → Option (List α)
  | [] => if pat <+: [] then some [] else none
  | a :: text => if pat <+: a :: text then some (a :: text) else fromFirst pat text

theorem fromFirst_of_isPrefix (h : pat <+: text) : fromFirst pat text = some text := by
  cases text with
  | nil => exact if_pos h
  | cons a text => exact if_pos h

theorem fromFirst_cons {a : α} (h : ¬ pat <+: a :: text) :
    fromFirst pat (a :: text) = fromFirst pat text := if_neg h

theorem isSome_fromFirst_iff : (fromFirst pat text).isSome ↔ pat <:+: text := by
  induction text with
  | nil =>
    rw [List.infix_nil, ← List.prefix_nil, fromFirst]
    split <;> simp_all
  | cons a text ih =>
    by_cases h : pat <+: a :: text
    · rw [fromFirst_of_isPrefix h]
      exact iff_of_true rfl h.isInfix
    · rw [fromFirst_cons h, ih, List.infix_cons_iff, or_iff_right h]

theorem fromFirst_eq_none {mark : α} (hpat : mark ∈ pat) (htext : mark ∉ text) :
    fromFirst pat text = none := by
  rw [← Option.not_isSome_iff_eq_none, isSome_fromFirst_iff]
  exact fun h => htext (h.subset hpat)

/-- A pattern that has a mark, behind a text that has none. -/
theorem fromFirst_append {a b rest : List α} {mark : α} (hpre : mark ∉ pre) (ha : mark ∉ a) :
    fromFirst (a ++ mark :: b) (pre ++ (a ++ mark :: b ++ rest)) = some (a ++ mark :: b ++ rest) := by
  induction pre with
  | nil => exact fromFirst_of_isPrefix (List.prefix_append _ _)
  | cons c pre ih =>
    rw [List.cons_append, fromFirst_cons (not_prefix_of_mark (fun h => hpre (by simp [h])) ha
      fun h => hpre (List.mem_cons_of_mem _ h))]
    exact ih fun h => hpre (List.mem_cons_of_mem _ h)

/-- What stands before the first `mark`; `none` without one. -/
def upTo (mark : α) (text : List α) : Option (List α) :=
  if mark ∈ text then some (text.takeWhile (· ≠ mark)) else none

theorem upTo_append {mark : α} (hpre : mark ∉ pre) (rest : List α) :
    upTo mark (pre ++ mark :: rest) = some pre := by
  rw [upTo, if_pos (by simp), List.takeWhile_append_of_pos fun c hc => ?_,
    List.takeWhile_cons_of_neg (by simp), List.append_nil]
  simpa using fun hsame : c = mark => hpre (hsame ▸ hc)

end Find

/-- What is left after both ends are cut stays when they are cut again. -/
theorem strip_strip (p : α → Bool) (text : List α) :
    (((text.dropWhile p).rdropWhile p).dropWhile p).rdropWhile p = (text.dropWhile p).rdropWhile p := by
  have hhead : ((text.dropWhile p).rdropWhile p).dropWhile p = (text.dropWhile p).rdropWhile p := by
    cases hstripped : (text.dropWhile p).rdropWhile p with
    | nil => rfl
    | cons c rest =>
      obtain ⟨tail, htail⟩ := List.rdropWhile_prefix (p := p) (text.dropWhile p)
      rw [hstripped, List.cons_append] at htail
      have hc : p c ≠ true := by
        have hnot := List.head?_dropWhile_not p text
        rw [← htail] at hnot
        simpa using hnot
      exact List.dropWhile_cons_of_neg hc
  rw [hhead, List.rdropWhile_idempotent]

end Spectral.Lib
