import Mathlib.Algebra.Order.Ring.Defs
import Mathlib.Algebra.Order.Field.Rat
import Spectral.Lib.Ranking

/-!
# Being ahead by a factor

Of a list of scores, an entry is ahead when every other one, made larger by a factor above one, is
still at most as large.  There is one such entry at most, and a program that sorts the scores and
looks at the first two finds it.

* `Ahead` — an entry that leads by the factor.
* `ahead_unique` — it is the only one.
* `ahead_iff_sorted` — the first two after sorting.
-/

namespace Spectral.Lib

section Scored

variable {K : Type*} [LinearOrder K]

/-- The scores with their places, the best first, and of equals the earlier. -/
def scored (scores : List K) : List (ℕ × K) :=
  (scores.zipIdx.map fun c => (c.2, c.1)).insertionSort fun a b => b.2 ≤ a.2

theorem mem_scored {scores : List K} {i : ℕ} {score : K} :
    (i, score) ∈ scored scores ↔ scores[i]? = some score := by
  rw [scored, List.mem_insertionSort, List.mem_map]
  constructor
  · rintro ⟨c, hc, heq⟩
    rw [← (Prod.mk.inj heq).1, ← (Prod.mk.inj heq).2]
    exact List.mem_zipIdx_iff_getElem?.1 hc
  · intro h
    exact ⟨(score, i), List.mem_zipIdx_iff_getElem?.2 h, rfl⟩

theorem sorted_scored (scores : List K) : (scored scores).Pairwise fun a b => b.2 ≤ a.2 :=
  pairwise_sort Prod.snd _

/-- Every place is in the list once. -/
theorem nodup_places_scored (scores : List K) : ((scored scores).map Prod.fst).Nodup := by
  have hperm := (List.perm_insertionSort (fun a b : ℕ × K => b.2 ≤ a.2)
    (scores.zipIdx.map fun c => (c.2, c.1))).map Prod.fst
  have hrange : scores.zipIdx.map (Prod.fst ∘ fun c : K × ℕ => (c.2, c.1)) =
      List.range' 0 scores.length := List.zipIdx_map_snd 0 scores
  rw [scored, hperm.nodup_iff, List.map_map, hrange]
  exact List.nodup_range'

end Scored

variable {K : Type*} [Ring K] [LinearOrder K] [IsStrictOrderedRing K] {margin best : K}

/-- The entry at a place has a score that no other one reaches, even times the factor. -/
structure Ahead (margin : K) (scores : List K) (i : ℕ) (best : K) : Prop where
  at_place : scores[i]? = some best
  ahead : ∀ j score, j ≠ i → scores[j]? = some score → score * margin ≤ best

/-- What stays behind even times a factor above one is behind. -/
theorem lt_of_mul_le {score : K} (hmargin : 1 < margin) (hbest : 0 < best)
    (h : score * margin ≤ best) : score < best := by
  rcases le_or_gt score 0 with hneg | hpos
  · exact hneg.trans_lt hbest
  · calc score = score * 1 := (mul_one score).symm
      _ < score * margin := mul_lt_mul_of_pos_left hmargin hpos
      _ ≤ best := h

theorem Ahead.lt {scores : List K} {i j : ℕ} {score : K} (h : Ahead margin scores i best)
    (hmargin : 1 < margin) (hbest : 0 < best) (hj : scores[j]? = some score) (hne : j ≠ i) :
    score < best :=
  lt_of_mul_le hmargin hbest (h.ahead j score hne hj)

/-- One entry at most is ahead. -/
theorem ahead_unique {scores : List K} {i j : ℕ} {best' : K} (h : Ahead margin scores i best)
    (h' : Ahead margin scores j best') (hmargin : 1 < margin) (hbest : 0 < best) (hbest' : 0 < best') :
    j = i := by
  by_contra hne
  have hlt := h.lt hmargin hbest h'.at_place hne
  exact absurd (h'.lt hmargin hbest' h.at_place fun heq => hne heq.symm) hlt.not_gt

/-- What sorting leaves in front, when an entry is ahead. -/
theorem Ahead.first {scores : List K} {i : ℕ} (h : Ahead margin scores i best) (hmargin : 1 < margin)
    (hbest : 0 < best) : ∃ rest, scored scores = (i, best) :: rest := by
  have hmem := mem_scored.2 h.at_place
  cases hlist : scored scores with
  | nil =>
    rw [hlist] at hmem
    cases hmem
  | cons first rest =>
    obtain ⟨k, top⟩ := first
    have hsorted := sorted_scored scores
    rw [hlist] at hmem hsorted
    have htop : scores[k]? = some top := by
      rw [← mem_scored, hlist]
      exact List.mem_cons_self
    have hki : k = i := by
      by_contra hne
      have hlt := h.lt hmargin hbest htop hne
      rcases List.mem_cons.1 hmem with heq | hrest
      · exact hne (Prod.mk.inj heq).1.symm
      · exact absurd ((List.pairwise_cons.1 hsorted).1 _ hrest) hlt.not_ge
    subst hki
    rw [h.at_place] at htop
    cases htop
    exact ⟨rest, rfl⟩

/-- **Sorting finds the entry that is ahead**: it is the first, and the second stays behind. -/
theorem ahead_iff_sorted {scores : List K} {i : ℕ} (hmargin : 1 < margin) (hbest : 0 < best) :
    Ahead margin scores i best ↔
      ∃ rest, scored scores = (i, best) :: rest ∧
        ((rest.head?.map Prod.snd).getD 0) * margin ≤ best := by
  have hsorted := sorted_scored scores
  have hplaces := nodup_places_scored scores
  constructor
  · intro h
    obtain ⟨rest, hlist⟩ := h.first hmargin hbest
    rw [hlist] at hplaces
    refine ⟨rest, hlist, ?_⟩
    cases rest with
    | nil =>
      rw [List.head?_nil, Option.map_none, Option.getD_none, zero_mul]
      exact hbest.le
    | cons second rest =>
      obtain ⟨j, score⟩ := second
      refine h.ahead j score (fun heq => ?_) ?_
      · rw [List.map_cons, List.map_cons, List.nodup_cons] at hplaces
        exact hplaces.1 (heq ▸ List.mem_cons_self)
      · rw [← mem_scored, hlist]
        exact List.mem_cons_of_mem _ List.mem_cons_self
  · rintro ⟨rest, hlist, hbehind⟩
    rw [hlist] at hsorted
    refine ⟨mem_scored.1 (hlist ▸ List.mem_cons_self), fun j score hne hscore => ?_⟩
    have hmem := mem_scored.2 hscore
    rw [hlist] at hmem
    rcases List.mem_cons.1 hmem with heq | hrest
    · exact absurd (Prod.mk.inj heq).1 hne
    · cases rest with
      | nil => cases hrest
      | cons second rest =>
        have hle : score ≤ second.2 := by
          rcases List.mem_cons.1 hrest with heq | hrest
          · rw [← heq]
          · exact (List.pairwise_cons.1 (List.pairwise_cons.1 hsorted).2).1 _ hrest
        exact (mul_le_mul_of_nonneg_right hle (zero_le_one.trans hmargin.le)).trans hbehind

end Spectral.Lib
