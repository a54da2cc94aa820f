import Mathlib.Algebra.BigOperators.Group.List.Basic
import Mathlib.Algebra.GroupWithZero.Nat
import Mathlib.Data.String.Basic

/-!
# Texts by their bytes

A text is cut at a byte offset, which has to be where a character starts or the text ends.

* `utf8Len` — the number of bytes of some characters; `utf8ByteSize_eq` — of a string.
* `charsTo` — the characters before a byte offset, `none` inside a character.
* `isCharBoundary`, `sliceTo` — `is_char_boundary` and `&text[..n]`, which panics elsewhere; `getSlice`
  — `text.get(a..b)`, which does not.
* `floorBoundary` — the loop that goes back to the last boundary; `sliceTo_floorBoundary` — where it
  stops, the text can be cut.
-/

namespace Spectral.Lib

/-- The number of bytes. -/
def utf8Len (cs : List Char) : ℕ := (cs.map Char.utf8Size).sum

@[simp] theorem utf8Len_nil : utf8Len [] = 0 := rfl

@[simp] theorem utf8Len_cons (c : Char) (cs : List Char) :
    utf8Len (c :: cs) = c.utf8Size + utf8Len cs := by
  simp [utf8Len]

@[simp] theorem utf8Len_append (cs cs' : List Char) :
    utf8Len (cs ++ cs') = utf8Len cs + utf8Len cs' := by
  simp [utf8Len]

theorem utf8Len_pos {cs : List Char} (h : cs ≠ []) : 0 < utf8Len cs := by
  cases cs with
  | nil => exact absurd rfl h
  | cons c cs =>
    rw [utf8Len_cons]
    exact Nat.add_pos_left c.utf8Size_pos _

/-- Of two beginnings of a text, the one with more bytes has more characters. -/
theorem utf8Len_lt_iff {cs cs' text : List Char} (h : cs <+: text) (h' : cs' <+: text) :
    utf8Len cs < utf8Len cs' ↔ cs.length < cs'.length := by
  have hmore : ∀ cs rest : List Char, utf8Len cs < utf8Len (cs ++ rest) ↔
      cs.length < (cs ++ rest).length := by
    intro cs rest
    rw [utf8Len_append, List.length_append, Nat.lt_add_right_iff_pos, Nat.lt_add_right_iff_pos,
      List.length_pos_iff]
    refine ⟨fun hpos hnil => ?_, utf8Len_pos⟩
    rw [hnil] at hpos
    exact absurd hpos (Nat.lt_irrefl 0)
  have hfewer : ∀ cs rest : List Char, ¬ utf8Len (cs ++ rest) < utf8Len cs := by
    intro cs rest
    rw [utf8Len_append]
    exact Nat.not_lt.2 (Nat.le_add_right _ _)
  rcases List.prefix_or_prefix_of_prefix h h' with ⟨rest, rfl⟩ | ⟨rest, rfl⟩
  · exact hmore cs rest
  · refine iff_of_false (hfewer cs' rest) ?_
    rw [List.length_append]
    exact Nat.not_lt.2 (Nat.le_add_right _ _)

theorem utf8ByteSize_ofList (cs : List Char) : (String.ofList cs).utf8ByteSize = utf8Len cs := by
  induction cs with
  | nil => rfl
  | cons c cs ih =>
    rw [← List.singleton_append, String.ofList_append, String.utf8ByteSize_append, ih, utf8Len_append]
    simp

theorem utf8ByteSize_eq (s : String) : s.utf8ByteSize = utf8Len s.toList := by
  rw [← utf8ByteSize_ofList, String.ofList_toList]

/-- The characters before a byte offset; `none` if it is inside a character, or behind the text. -/
def charsTo : ℕ → List Char → Option (List Char)
  | 0, _ => some []
  | _ + 1, [] => none
  | n + 1, c :: cs =>
    if c.utf8Size ≤ n + 1 then (charsTo (n + 1 - c.utf8Size) cs).map (c :: ·) else none

theorem charsTo_utf8Len (cs rest : List Char) : charsTo (utf8Len cs) (cs ++ rest) = some cs := by
  induction cs with
  | nil => cases rest <;> rfl
  | cons c cs ih =>
    have hpos := c.utf8Size_pos
    obtain ⟨n, hn⟩ : ∃ n, utf8Len (c :: cs) = n + 1 :=
      ⟨utf8Len (c :: cs) - 1, by rw [utf8Len_cons]; omega⟩
    rw [hn, List.cons_append, charsTo]
    rw [utf8Len_cons] at hn
    rw [if_pos (by omega), show n + 1 - c.utf8Size = utf8Len cs by omega, ih]
    rfl

/-- **A cut** is between the characters whose bytes come before the offset, and the others. -/
theorem charsTo_eq_some {n : ℕ} {text cs : List Char} :
    charsTo n text = some cs ↔ ∃ rest, text = cs ++ rest ∧ utf8Len cs = n := by
  constructor
  · intro h
    induction text generalizing n cs with
    | nil =>
      cases n with
      | zero => cases h; exact ⟨[], rfl, rfl⟩
      | succ n => cases h
    | cons c text ih =>
      cases n with
      | zero => cases h; exact ⟨c :: text, rfl, rfl⟩
      | succ n =>
        rw [charsTo] at h
        split at h
        · rename_i hle
          obtain ⟨cs, hcs, rfl⟩ := Option.map_eq_some_iff.1 h
          obtain ⟨rest, rfl, hlen⟩ := ih hcs
          exact ⟨rest, rfl, by rw [utf8Len_cons]; omega⟩
        · cases h
  · rintro ⟨rest, rfl, rfl⟩
    exact charsTo_utf8Len cs rest

/-- `is_char_boundary`. -/
def isCharBoundary (text : String) (n : ℕ) : Bool := (charsTo n text.toList).isSome

/-- `&text[..n]`; `none` where it panics. -/
def sliceTo (text : String) (n : ℕ) : Option String := (charsTo n text.toList).map String.ofList

/-- `text.get(a..b)`. -/
def getSlice (text : String) (a b : ℕ) : Option (List Char) :=
  (charsTo b text.toList).bind fun cs => (charsTo a cs).map fun before => cs.drop before.length

/-- The loop `while cut > 0 && !text.is_char_boundary(cut) { cut -= 1 }`. -/
def floorBoundary (text : String) : ℕ → ℕ
  | 0 => 0
  | cut + 1 => if isCharBoundary text (cut + 1) = true then cut + 1 else floorBoundary text cut

theorem floorBoundary_le (text : String) (cut : ℕ) : floorBoundary text cut ≤ cut := by
  induction cut with
  | zero => exact le_rfl
  | succ cut ih =>
    unfold floorBoundary
    split
    · exact le_rfl
    · exact ih.trans (Nat.le_succ cut)

theorem isCharBoundary_floorBoundary (text : String) (cut : ℕ) :
    isCharBoundary text (floorBoundary text cut) = true := by
  induction cut with
  | zero =>
    unfold floorBoundary isCharBoundary
    cases text.toList <;> rfl
  | succ cut ih =>
    unfold floorBoundary
    split
    · assumption
    · exact ih

/-- No boundary in reach is further. -/
theorem le_floorBoundary {text : String} {n cut : ℕ} (hle : n ≤ cut)
    (hn : isCharBoundary text n = true) : n ≤ floorBoundary text cut := by
  induction cut with
  | zero => exact hle
  | succ cut ih =>
    unfold floorBoundary
    split
    · exact hle
    · rename_i hnot
      rcases Nat.le_succ_iff.1 hle with h | rfl
      · exact ih h
      · exact absurd hn hnot

/-- **The cut where the loop stops** does not panic: the text is what comes before and the rest. -/
theorem sliceTo_floorBoundary (text : String) (cut : ℕ) :
    ∃ before rest, sliceTo text (floorBoundary text cut) = some before ∧ text = before ++ rest ∧
      before.utf8ByteSize = floorBoundary text cut := by
  obtain ⟨cs, hcs⟩ := Option.isSome_iff_exists.1 (isCharBoundary_floorBoundary text cut)
  obtain ⟨rest, htext, hlen⟩ := charsTo_eq_some.1 hcs
  refine ⟨String.ofList cs, String.ofList rest, ?_, ?_, ?_⟩
  · rw [sliceTo, hcs, Option.map_some]
  · rw [← String.ofList_append, ← htext, String.ofList_toList]
  · rw [utf8ByteSize_ofList, hlen]

end Spectral.Lib
