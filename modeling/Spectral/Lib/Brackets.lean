import Mathlib.Algebra.BigOperators.Group.List.Basic
import Mathlib.Algebra.Order.Ring.Int

/-!
# The first block in brackets

A scan from the first opening bracket counts brackets and stops when as many have been closed as
opened.  What it returns is the first block: it begins with the bracket, and its depth is zero at its
end and nowhere before.

* `depth` — the brackets a list opens and does not close.
* `Block` — a list whose first bracket is closed by its end.
* `firstBlock_eq_some_iff` — what the scan returns.
-/

namespace Spectral.Lib

section

variable {α : Type*} [DecidableEq α] (opening closing : α)

/-- What an element adds to the depth. -/
def weight (x : α) : ℤ := if x = opening then 1 else if x = closing then -1 else 0

/-- The brackets that are opened and not closed. -/
def depth (w : List α) : ℤ := (w.map (weight opening closing)).sum

/-- The first bracket is closed by the end, and not before. -/
structure Block (w : List α) : Prop where
  head : w.head? = some opening
  closed : depth opening closing w = 0
  open_before : ∀ u v, w = u ++ v → u ≠ [] → v ≠ [] → 0 < depth opening closing u

/-- The scan from a depth: it goes on until a bracket brings the depth to zero. -/
def scanBlock : ℤ → List α → Option (List α)
  | _, [] => none
  | d, x :: rest =>
    if x = opening then (scanBlock (d + 1) rest).map (x :: ·)
    else if x = closing then
      if d - 1 = 0 then some [x] else (scanBlock (d - 1) rest).map (x :: ·)
    else (scanBlock d rest).map (x :: ·)

/-- The block from the first opening bracket on, if it is ever closed. -/
def firstBlock (l : List α) : Option (List α) :=
  scanBlock opening closing 0 (l.dropWhile fun x => x ≠ opening)

end

variable {α : Type*} [DecidableEq α] {opening closing : α} {l w : List α} {d : ℤ}

@[simp] theorem depth_nil : depth opening closing [] = 0 := rfl

@[simp] theorem depth_cons (x : α) (w : List α) :
    depth opening closing (x :: w) = weight opening closing x + depth opening closing w := rfl

theorem neg_one_le_weight (x : α) : -1 ≤ weight opening closing x := by
  unfold weight
  split
  · decide
  · split <;> decide

/-- One step of the scan, from a positive depth. -/
theorem scanBlock_cons (hd : 0 < d) (x : α) (rest : List α) :
    scanBlock opening closing d (x :: rest) =
      if d + weight opening closing x = 0 then some [x]
      else (scanBlock opening closing (d + weight opening closing x) rest).map (x :: ·) := by
  rw [scanBlock, weight]
  by_cases ho : x = opening
  · rw [if_pos ho, if_pos ho, if_neg (by omega)]
  · rw [if_neg ho, if_neg ho]
    by_cases hc : x = closing
    · rw [if_pos hc, if_pos hc]
      rfl
    · rw [if_neg hc, if_neg hc, add_zero, if_neg hd.ne']

/-- From a positive depth the scan returns what comes down to zero at its end and not before. -/
theorem scanBlock_eq_some_iff (hd : 0 < d) :
    scanBlock opening closing d l = some w ↔
      (∃ after, l = w ++ after) ∧ d + depth opening closing w = 0 ∧
        ∀ u v, w = u ++ v → v ≠ [] → 0 < d + depth opening closing u := by
  induction l generalizing d w with
  | nil =>
    refine ⟨nofun, fun ⟨⟨after, hl⟩, hzero, _⟩ => ?_⟩
    rw [(List.append_eq_nil_iff.1 hl.symm).1, depth_nil] at hzero
    omega
  | cons x rest ih =>
    have hweight : -1 ≤ weight opening closing x := neg_one_le_weight x
    rw [scanBlock_cons hd]
    by_cases hstop : d + weight opening closing x = 0
    · rw [if_pos hstop]
      constructor
      · intro h
        cases h
        refine ⟨⟨rest, rfl⟩, by rwa [depth_cons, depth_nil, add_zero], fun u v huv hv => ?_⟩
        rcases List.append_eq_cons_iff.1 huv.symm with ⟨rfl, -⟩ | ⟨u', rfl, hrest⟩
        · rwa [depth_nil, add_zero]
        · exact absurd (List.append_eq_nil_iff.1 hrest.symm).2 hv
      · rintro ⟨⟨after, hl⟩, hzero, hbefore⟩
        cases w with
        | nil =>
          rw [depth_nil, add_zero] at hzero
          exact absurd hzero hd.ne'
        | cons y w =>
          cases hl
          cases w with
          | nil => rfl
          | cons z w =>
            have hfirst := hbefore [x] (z :: w) rfl (List.cons_ne_nil z w)
            rw [depth_cons, depth_nil, add_zero, hstop] at hfirst
            exact absurd hfirst (lt_irrefl 0)
    · rw [if_neg hstop]
      have hpos : 0 < d + weight opening closing x := by omega
      constructor
      · intro h
        obtain ⟨w', hw', rfl⟩ := Option.map_eq_some_iff.1 h
        obtain ⟨⟨after, hafter⟩, hzero, hbefore⟩ := (ih hpos).1 hw'
        refine ⟨⟨after, by rw [hafter]; rfl⟩, by rw [depth_cons, ← add_assoc, hzero],
          fun u v huv hv => ?_⟩
        rcases List.append_eq_cons_iff.1 huv.symm with ⟨rfl, -⟩ | ⟨u', rfl, hrest⟩
        · rwa [depth_nil, add_zero]
        · rw [depth_cons, ← add_assoc]
          exact hbefore u' v hrest hv
      · rintro ⟨⟨after, hl⟩, hzero, hbefore⟩
        cases w with
        | nil =>
          rw [depth_nil, add_zero] at hzero
          exact absurd hzero hd.ne'
        | cons y w =>
          cases hl
          rw [depth_cons, ← add_assoc] at hzero
          refine Option.map_eq_some_iff.2 ⟨w, (ih hpos).2 ⟨⟨after, rfl⟩, hzero, ?_⟩, rfl⟩
          intro u v huv hv
          have hfront := hbefore (x :: u) v (by rw [huv]; rfl) hv
          rwa [depth_cons, ← add_assoc] at hfront

/-- From depth zero, at an opening bracket. -/
theorem scanBlock_opening_iff (rest : List α) :
    scanBlock opening closing 0 (opening :: rest) = some w ↔
      (∃ after, opening :: rest = w ++ after) ∧ Block opening closing w := by
  have hweight : weight opening closing opening = 1 := if_pos rfl
  rw [scanBlock, if_pos rfl, zero_add]
  constructor
  · intro h
    obtain ⟨w', hw', rfl⟩ := Option.map_eq_some_iff.1 h
    obtain ⟨⟨after, hafter⟩, hzero, hbefore⟩ := (scanBlock_eq_some_iff one_pos).1 hw'
    refine ⟨⟨after, by rw [hafter]; rfl⟩, rfl, by rwa [depth_cons, hweight], fun u v huv hu hv => ?_⟩
    rcases List.append_eq_cons_iff.1 huv.symm with ⟨rfl, -⟩ | ⟨u', rfl, hrest⟩
    · exact absurd rfl hu
    · rw [depth_cons, hweight]
      exact hbefore u' v hrest hv
  · rintro ⟨⟨after, hl⟩, hblock⟩
    cases w with
    | nil => cases hblock.head
    | cons y w =>
      cases hl
      have hclosed := hblock.closed
      rw [depth_cons, hweight] at hclosed
      refine Option.map_eq_some_iff.2 ⟨w, (scanBlock_eq_some_iff one_pos).2
        ⟨⟨after, rfl⟩, hclosed, fun u v huv hv => ?_⟩, rfl⟩
      have hfront := hblock.open_before (opening :: u) v (by rw [huv]; rfl)
        (List.cons_ne_nil _ u) hv
      rwa [depth_cons, hweight] at hfront

/-- **The scan returns the first block**: no opening bracket is before it, and its own is closed by its
end and not before. -/
theorem firstBlock_eq_some_iff :
    firstBlock opening closing l = some w ↔
      ∃ before after, l = before ++ w ++ after ∧ opening ∉ before ∧ Block opening closing w := by
  unfold firstBlock
  induction l with
  | nil =>
    refine ⟨nofun, fun ⟨before, after, hl, _, hblock⟩ => ?_⟩
    rw [(List.append_eq_nil_iff.1 (List.append_eq_nil_iff.1 hl.symm).1).2] at hblock
    cases hblock.head
  | cons x rest ih =>
    by_cases hx : x = opening
    · subst hx
      rw [List.dropWhile_cons_of_neg (by simp), scanBlock_opening_iff]
      constructor
      · rintro ⟨⟨after, hl⟩, hblock⟩
        exact ⟨[], after, hl, List.not_mem_nil, hblock⟩
      · rintro ⟨before, after, hl, hnot, hblock⟩
        cases before with
        | nil => exact ⟨⟨after, hl⟩, hblock⟩
        | cons y before =>
          cases hl
          exact absurd List.mem_cons_self hnot
    · rw [List.dropWhile_cons_of_pos (by simpa using hx), ih]
      constructor
      · rintro ⟨before, after, rfl, hnot, hblock⟩
        refine ⟨x :: before, after, rfl, fun hmem => ?_, hblock⟩
        rcases List.mem_cons.1 hmem with heq | hmem
        · exact hx heq.symm
        · exact hnot hmem
      · rintro ⟨before, after, hl, hnot, hblock⟩
        cases before with
        | nil =>
          cases w with
          | nil => cases hblock.head
          | cons y w =>
            cases hl
            exact absurd (Option.some.inj hblock.head) hx
        | cons y before =>
          cases hl
          exact ⟨before, after, rfl, fun hmem => hnot (List.mem_cons_of_mem _ hmem), hblock⟩

end Spectral.Lib
