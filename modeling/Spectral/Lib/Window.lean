import Mathlib.Data.List.Dedup
import Mathlib.Data.Finset.Card
import Mathlib.Order.Lattice.Nat
import Mathlib.Order.WithBot
import Mathlib.Order.Bounds.Basic
import Mathlib.Logic.Function.Basic

/-!
# The shortest window

Hits are places with a tag, in the order of their places.  Two pointers find the least span of
places that has a hit of every tag: the right one takes in hit after hit, and as long as the hits
between the pointers cover all tags the left one moves on.

* `shortestSpan` — the search.  It counts the tags between the pointers.
* `Sweeps` — its invariant: the hits between the pointers do not cover, every longer stretch up to
  here does, and the best span so far is that of the shortest stretch that covers.
* `isLeast_shortestSpan` — what it finds.
-/

namespace Spectral.Lib

variable {τ : Type*} [DecidableEq τ]

/-- The state of the search: the hits between the pointers, how often each tag occurs among them,
how many tags do, and the best span so far. -/
structure Slide (τ : Type*) where
  window : List (ℕ × τ) := []
  counts : τ → ℕ := fun _ => 0
  present : ℕ := 0
  best : WithTop ℕ := ⊤

namespace Slide

/-- The left pointer moves on over the hits of the window, while all tags are present. -/
def shrink (matched last : ℕ) (s : Slide τ) : List (ℕ × τ) → Slide τ
  | [] => { s with window := [] }
  | hit :: rest =>
    if s.present = matched then
      let count := s.counts hit.2 - 1
      shrink matched last
        { s with
          best := min s.best (.some (last - hit.1 + 1))
          counts := Function.update s.counts hit.2 count
          present := if count = 0 then s.present - 1 else s.present } rest
    else { s with window := hit :: rest }

/-- The right pointer takes in one hit. -/
def step (matched : ℕ) (s : Slide τ) (hit : ℕ × τ) : Slide τ :=
  let count := s.counts hit.2 + 1
  shrink matched hit.1
    { s with
      counts := Function.update s.counts hit.2 count
      present := if count = 1 then s.present + 1 else s.present } (s.window ++ [hit])

end Slide

/-- The search for the shortest window with `matched` tags. -/
def shortestSpan (matched : ℕ) (hits : List (ℕ × τ)) : WithTop ℕ :=
  (hits.foldl (Slide.step matched) {}).best

/-! ## Windows -/

/-- The tags of some hits. -/
def tags (hits : List (ℕ × τ)) : Finset τ := (hits.map Prod.snd).toFinset

/-- The places from the first hit to the last. -/
def spanOf (w : List (ℕ × τ)) : ℕ :=
  match w.head?, w.getLast? with
  | some a, some b => b.1 - a.1 + 1
  | _, _ => 0

section

variable {all w v hits : List (ℕ × τ)} {hit : ℕ × τ} {matched last : ℕ} {s : Slide τ}

theorem mem_tags {t : τ} : t ∈ tags hits ↔ ∃ p, (p, t) ∈ hits := by
  simp [tags]

theorem tags_mono (h : v ⊆ w) : tags v ⊆ tags w := by
  intro t ht
  obtain ⟨p, hp⟩ := mem_tags.1 ht
  exact mem_tags.2 ⟨p, h hp⟩

theorem tags_concat (w : List (ℕ × τ)) (hit : ℕ × τ) : tags (w ++ [hit]) = insert hit.2 (tags w) := by
  ext t
  simp [tags]

/-- The counters say what the window has. -/
structure Slide.Counts (s : Slide τ) (w : List (ℕ × τ)) : Prop where
  counts : ∀ t, s.counts t = (w.map Prod.snd).count t
  present : s.present = (tags w).card

theorem Slide.Counts.concat (h : s.Counts w) (hit : ℕ × τ) :
    Slide.Counts { s with
      counts := Function.update s.counts hit.2 (s.counts hit.2 + 1)
      present := if s.counts hit.2 + 1 = 1 then s.present + 1 else s.present } (w ++ [hit]) := by
  constructor
  · intro t
    by_cases ht : t = hit.2
    · subst ht
      simp [h.counts]
    · simp [Function.update_of_ne ht, h.counts, Ne.symm ht]
  · rw [tags_concat]
    by_cases hin : hit.2 ∈ tags w
    · have hpos : 0 < (w.map Prod.snd).count hit.2 :=
        List.count_pos_iff.2 (List.mem_toFinset.1 hin)
      have hcount := h.counts hit.2
      simp only [Finset.insert_eq_of_mem hin, ← h.present]
      exact if_neg (by omega)
    · have hzero : (w.map Prod.snd).count hit.2 = 0 :=
        List.count_eq_zero.2 fun hmem => hin (List.mem_toFinset.2 hmem)
      rw [Finset.card_insert_of_notMem hin, ← h.present]
      exact if_pos (by rw [h.counts, hzero])

theorem Slide.Counts.tail (h : s.Counts (hit :: w)) :
    Slide.Counts { s with
      counts := Function.update s.counts hit.2 (s.counts hit.2 - 1)
      present := if s.counts hit.2 - 1 = 0 then s.present - 1 else s.present } w := by
  have hcount : s.counts hit.2 = (w.map Prod.snd).count hit.2 + 1 := by
    rw [h.counts, List.map_cons, List.count_cons_self]
  have htags : tags (hit :: w) = insert hit.2 (tags w) := by
    ext t
    simp [tags]
  constructor
  · intro t
    by_cases ht : t = hit.2
    · subst ht
      simp [hcount]
    · simp [Function.update_of_ne ht, h.counts, Ne.symm ht]
  · have hpresent := h.present
    rw [htags] at hpresent
    by_cases hin : hit.2 ∈ tags w
    · have hpos : 0 < (w.map Prod.snd).count hit.2 :=
        List.count_pos_iff.2 (List.mem_toFinset.1 hin)
      rw [Finset.insert_eq_of_mem hin] at hpresent
      exact (if_neg (by omega)).trans hpresent
    · have hzero : (w.map Prod.snd).count hit.2 = 0 :=
        List.count_eq_zero.2 fun hmem => hin (List.mem_toFinset.2 hmem)
      rw [Finset.card_insert_of_notMem hin] at hpresent
      refine (if_pos (by omega)).trans ?_
      show s.present - 1 = _
      omega

/-! ## The left pointer -/

/-- All tags are present exactly when the window covers. -/
theorem Slide.Counts.present_eq_iff (h : s.Counts w) (hall : w ⊆ all) :
    s.present = (tags all).card ↔ tags all ⊆ tags w := by
  rw [h.present]
  constructor
  · intro hcard
    exact (Finset.eq_of_subset_of_card_le (tags_mono hall) hcard.ge).ge
  · intro hsub
    rw [Finset.Subset.antisymm (tags_mono hall) hsub]

variable (last) in
omit [DecidableEq τ] in
theorem spanOf_of_getLast {rest : List (ℕ × τ)} (hlast : ∀ h ∈ (hit :: rest).getLast?, h.1 = last) :
    spanOf (hit :: rest) = last - hit.1 + 1 := by
  cases hget : (hit :: rest).getLast? with
  | none => simp at hget
  | some h => simp [spanOf, hget, hlast h hget]

/-- What the left pointer leaves of a window whose last hit is at `last`. -/
structure Slide.Shrunk (all w : List (ℕ × τ)) (s s' : Slide τ) : Prop where
  suffix : s'.window <:+ w
  counts : s'.Counts s'.window
  short : ¬ tags all ⊆ tags s'.window
  le : s'.best ≤ s.best
  long : ∀ v, v <:+ w → s'.window.length < v.length → tags all ⊆ tags v ∧ s'.best ≤ .some (spanOf v)
  found : s'.best = s.best ∨ ∃ v, v <:+ w ∧ tags all ⊆ tags v ∧ s'.best = .some (spanOf v)

variable (last) in
theorem Slide.shrunk_shrink (hne : (tags all).Nonempty) (hall : w ⊆ all) (hcounts : s.Counts w)
    (hlast : ∀ h ∈ w.getLast?, h.1 = last) :
    Slide.Shrunk all w s (s.shrink (tags all).card last w) := by
  have hstop : ∀ {s : Slide τ} {w}, s.Counts w → ¬ tags all ⊆ tags w →
      Slide.Shrunk all w s { s with window := w } := by
    intro s w hcounts hshort
    refine ⟨List.suffix_rfl, ⟨hcounts.counts, hcounts.present⟩, hshort, le_rfl, ?_, Or.inl rfl⟩
    intro v hv hlen
    exact absurd hv.length_le (not_le.2 hlen)
  induction w generalizing s with
  | nil =>
    refine hstop hcounts fun hsub => ?_
    obtain ⟨t, ht⟩ := hne
    exact absurd (hsub ht) (by simp [tags])
  | cons hit rest ih =>
    rw [shrink]
    by_cases hcover : tags all ⊆ tags (hit :: rest)
    · rw [if_pos ((hcounts.present_eq_iff hall).2 hcover)]
      have hrest : ∀ h ∈ rest.getLast?, h.1 = last := by
        intro h hh
        refine hlast h ?_
        rw [List.getLast?_cons, Option.mem_def.1 hh]
        rfl
      have hshrunk := ih (fun x hx => hall (List.mem_cons_of_mem hit hx))
        (s := { s with
          best := min s.best (.some (last - hit.1 + 1))
          counts := Function.update s.counts hit.2 (s.counts hit.2 - 1)
          present := if s.counts hit.2 - 1 = 0 then s.present - 1 else s.present })
        ⟨hcounts.tail.counts, hcounts.tail.present⟩ hrest
      have hspan := spanOf_of_getLast last hlast
      refine ⟨hshrunk.suffix.trans (List.suffix_cons hit rest), hshrunk.counts, hshrunk.short,
        hshrunk.le.trans (min_le_left _ _), fun v hv hlen => ?_, ?_⟩
      · rcases List.suffix_cons_iff.1 hv with rfl | hv
        · refine ⟨hcover, ?_⟩
          rw [hspan]
          exact hshrunk.le.trans (min_le_right _ _)
        · exact hshrunk.long v hv hlen
      · rcases hshrunk.found with hsame | ⟨v, hv, hcov, hbest⟩
        · rcases min_choice s.best (.some (last - hit.1 + 1)) with hmin | hmin
          · exact Or.inl (hsame.trans hmin)
          · refine Or.inr ⟨hit :: rest, List.suffix_rfl, hcover, ?_⟩
            rw [hspan]
            exact hsame.trans hmin
        · exact Or.inr ⟨v, hv.trans (List.suffix_cons hit rest), hcov, hbest⟩
    · rw [if_neg (mt (hcounts.present_eq_iff hall).1 hcover)]
      exact hstop hcounts hcover

/-! ## The right pointer -/

/-- The search has been through the hits `past`. -/
structure Sweeps (all past : List (ℕ × τ)) (s : Slide τ) : Prop where
  suffix : s.window <:+ past
  counts : s.Counts s.window
  short : ¬ tags all ⊆ tags s.window
  long : ∀ v, v <:+ past → s.window.length < v.length → tags all ⊆ tags v
  least : ∀ v, v <:+: past → tags all ⊆ tags v → s.best ≤ .some (spanOf v)
  found : s.best = ⊤ ∨ ∃ v, v <:+: past ∧ tags all ⊆ tags v ∧ s.best = .some (spanOf v)

omit [DecidableEq τ] in
/-- One more hit makes a stretch longer. -/
theorem spanOf_concat (hsorted : (v ++ [hit]).Pairwise fun a b => a.1 < b.1) :
    spanOf v ≤ spanOf (v ++ [hit]) := by
  cases v with
  | nil => exact Nat.zero_le _
  | cons a v =>
    have hlast : ∀ h ∈ (a :: (v ++ [hit])).getLast?, h.1 = hit.1 := by
      intro h hh
      rw [← List.cons_append, List.getLast?_concat] at hh
      rw [Option.mem_some.1 hh]
    cases hget : (a :: v).getLast? with
    | none => simp at hget
    | some b =>
      have hlt : b.1 < hit.1 :=
        (List.pairwise_append.1 hsorted).2.2 b (List.mem_of_getLast? hget) hit (by simp)
      rw [List.cons_append, spanOf_of_getLast _ hlast, spanOf_of_getLast b.1 (by simp [hget])]
      omega

theorem Sweeps.step {past : List (ℕ × τ)} (hne : (tags all).Nonempty) (h : Sweeps all past s)
    (hall : past ++ [hit] ⊆ all) (hsorted : (past ++ [hit]).Pairwise fun a b => a.1 < b.1) :
    Sweeps all (past ++ [hit]) (s.step (tags all).card hit) := by
  have hsuffix : s.window ++ [hit] <:+ past ++ [hit] :=
    List.suffix_concat_iff.2 (Or.inr ⟨_, rfl, h.suffix⟩)
  have hshrunk := Slide.shrunk_shrink hit.1 hne (fun x hx => hall (hsuffix.subset hx))
    (s := { s with
      counts := Function.update s.counts hit.2 (s.counts hit.2 + 1)
      present := if s.counts hit.2 + 1 = 1 then s.present + 1 else s.present })
    ⟨(h.counts.concat hit).counts, (h.counts.concat hit).present⟩ (by simp)
  -- a stretch that starts before the window of before covered already
  have hearlier : ∀ v, v <:+ past → s.window.length < v.length →
      tags all ⊆ tags (v ++ [hit]) ∧ s.best ≤ .some (spanOf (v ++ [hit])) := by
    intro v hv hlen
    have hcover := h.long v hv hlen
    have hpair : (v ++ [hit]).Pairwise fun a b => a.1 < b.1 :=
      hsorted.sublist (List.suffix_concat_iff.2 (Or.inr ⟨v, rfl, hv⟩)).sublist
    refine ⟨hcover.trans (tags_mono (List.subset_append_left v [hit])), ?_⟩
    exact (h.least v hv.isInfix hcover).trans (WithTop.coe_le_coe.2 (spanOf_concat hpair))
  refine ⟨hshrunk.suffix.trans hsuffix, hshrunk.counts, hshrunk.short, fun v hv hlen => ?_,
    fun v hv hcover => ?_, ?_⟩
  · rcases List.suffix_concat_iff.1 hv with rfl | ⟨u, rfl, hu⟩
    · exact absurd hlen (by simp)
    · by_cases hold : s.window.length < u.length
      · exact (hearlier u hu hold).1
      · refine (hshrunk.long (u ++ [hit]) ?_ hlen).1
        exact List.suffix_concat_iff.2 (Or.inr ⟨u, rfl,
          List.suffix_of_suffix_length_le hu h.suffix (not_lt.1 hold)⟩)
  · rcases List.infix_concat_iff.1 hv with hv | hv
    · rcases List.suffix_concat_iff.1 hv with rfl | ⟨u, rfl, hu⟩
      · obtain ⟨t, ht⟩ := hne
        exact absurd (hcover ht) (by simp [tags])
      · by_cases hold : s.window.length < u.length
        · exact hshrunk.le.trans (hearlier u hu hold).2
        · have hwithin : u ++ [hit] <:+ s.window ++ [hit] :=
            List.suffix_concat_iff.2 (Or.inr ⟨u, rfl,
              List.suffix_of_suffix_length_le hu h.suffix (not_lt.1 hold)⟩)
          refine (hshrunk.long _ hwithin ?_).2
          by_contra hlen
          have hle := List.suffix_of_suffix_length_le hwithin hshrunk.suffix (not_lt.1 hlen)
          exact hshrunk.short (hcover.trans (tags_mono hle.subset))
    · exact hshrunk.le.trans (h.least v hv hcover)
  · rcases hshrunk.found with hsame | ⟨v, hv, hcover, hbest⟩
    · rcases h.found with htop | ⟨v, hv, hcover, hbest⟩
      · exact Or.inl (hsame.trans htop)
      · exact Or.inr ⟨v, List.infix_concat_iff.2 (Or.inr hv), hcover, hsame.trans hbest⟩
    · exact Or.inr ⟨v, (hv.trans hsuffix).isInfix, hcover, hbest⟩

theorem sweeps_foldl (hne : (tags all).Nonempty) (past : List (ℕ × τ)) (hall : past ⊆ all)
    (hsorted : past.Pairwise fun a b => a.1 < b.1) :
    Sweeps all past (past.foldl (Slide.step (tags all).card) {}) := by
  induction past using List.reverseRecOn with
  | nil =>
    have hnone : ¬ tags all ⊆ tags [] := by
      obtain ⟨t, ht⟩ := hne
      intro hsub
      exact absurd (hsub ht) (by simp [tags])
    refine ⟨List.suffix_rfl, ⟨fun t => by simp, by simp [tags]⟩, hnone, ?_, ?_, Or.inl rfl⟩
    · intro v hv hlen
      simp [List.suffix_nil.1 hv] at hlen
    · intro v hv hcover
      rw [List.infix_nil.1 hv] at hcover
      exact absurd hcover hnone
  | append_singleton past hit ih =>
    rw [List.foldl_append]
    exact (ih (fun x hx => hall (List.mem_append_left _ hx))
      (List.pairwise_append.1 hsorted).1).step hne hall hsorted

/-! ## The span found -/

/-- The hits at the `w` places from `i` on. -/
def between (i w : ℕ) (hits : List (ℕ × τ)) : List (ℕ × τ) :=
  (hits.dropWhile fun h => h.1 < i).takeWhile fun h => h.1 < i + w

omit [DecidableEq τ] in
theorem between_within (i w : ℕ) (hits : List (ℕ × τ)) : between i w hits <:+: hits :=
  (List.takeWhile_prefix _).isInfix.trans (List.dropWhile_suffix _).isInfix

omit [DecidableEq τ] in
/-- Hits in the order of their places: those of an interval are a stretch. -/
theorem mem_between (hsorted : hits.Pairwise fun a b => a.1 < b.1) {i w : ℕ} :
    hit ∈ between i w hits ↔ hit ∈ hits ∧ i ≤ hit.1 ∧ hit.1 < i + w := by
  have hdrop : ∀ {l : List (ℕ × τ)}, (l.Pairwise fun a b => a.1 < b.1) →
      ∀ h, h ∈ l.dropWhile (fun h => h.1 < i) ↔ h ∈ l ∧ i ≤ h.1 := by
    intro l hl h
    induction l with
    | nil => simp
    | cons a l ih =>
      obtain ⟨hfirst, hrest⟩ := List.pairwise_cons.1 hl
      by_cases ha : a.1 < i
      · rw [List.dropWhile_cons_of_pos (by simpa using ha), ih hrest, List.mem_cons]
        refine ⟨fun hh => ⟨Or.inr hh.1, hh.2⟩, ?_⟩
        rintro ⟨rfl | hh, hle⟩
        · omega
        · exact ⟨hh, hle⟩
      · rw [List.dropWhile_cons_of_neg (by simpa using ha)]
        refine ⟨fun hh => ⟨hh, ?_⟩, And.left⟩
        rcases List.mem_cons.1 hh with rfl | hh
        · omega
        · have hlt := hfirst h hh
          omega
  have htake : ∀ {l : List (ℕ × τ)}, (l.Pairwise fun a b => a.1 < b.1) →
      ∀ h, h ∈ l.takeWhile (fun h => h.1 < i + w) ↔ h ∈ l ∧ h.1 < i + w := by
    intro l hl h
    induction l with
    | nil => simp
    | cons a l ih =>
      obtain ⟨hfirst, hrest⟩ := List.pairwise_cons.1 hl
      by_cases ha : a.1 < i + w
      · rw [List.takeWhile_cons_of_pos (by simpa using ha), List.mem_cons, ih hrest, List.mem_cons,
          or_and_right]
        refine or_congr_left ⟨?_, And.left⟩
        rintro rfl
        exact ⟨rfl, ha⟩
      · rw [List.takeWhile_cons_of_neg (by simpa using ha)]
        refine iff_of_false List.not_mem_nil ?_
        rintro ⟨hh, hlt⟩
        rcases List.mem_cons.1 hh with rfl | hh
        · exact ha hlt
        · have hlt' := hfirst h hh
          omega
  rw [between, htake (hsorted.sublist (List.dropWhile_suffix _).sublist), hdrop hsorted, and_assoc]

omit [DecidableEq τ] in
/-- The places of a stretch are within its span. -/
theorem le_spanOf {a : ℕ × τ} (hsorted : (a :: v).Pairwise fun x y => x.1 < y.1)
    (h : hit ∈ a :: v) : a.1 ≤ hit.1 ∧ hit.1 < a.1 + spanOf (a :: v) := by
  have hfirst : a.1 ≤ hit.1 := by
    rcases List.mem_cons.1 h with rfl | h
    · exact le_rfl
    · exact (List.rel_of_pairwise_cons hsorted h).le
  have hne : a :: v ≠ [] := List.cons_ne_nil a v
  have hlast : hit.1 ≤ ((a :: v).getLast hne).1 := by
    rw [← List.dropLast_append_getLast hne] at h hsorted
    rcases List.mem_append.1 h with h | h
    · exact ((List.pairwise_append.1 hsorted).2.2 hit h _ (by simp)).le
    · rw [List.mem_singleton.1 h]
  rw [spanOf_of_getLast ((a :: v).getLast hne).1 (by simp [List.getLast?_eq_some_getLast])]
  omega

/-- **The search** finds the least span of places that has a hit of every tag. -/
theorem isLeast_shortestSpan (hne : hits ≠ [])
    (hsorted : hits.Pairwise fun a b => a.1 < b.1) :
    ∃ best : ℕ, shortestSpan (tags hits).card hits = .some best ∧
      IsLeast {w | ∃ i, ∀ t ∈ tags hits, ∃ p, (p, t) ∈ hits ∧ i ≤ p ∧ p < i + w} best := by
  obtain ⟨first, hfirst⟩ := List.exists_mem_of_ne_nil hits hne
  have htags : (tags hits).Nonempty := ⟨first.2, mem_tags.2 ⟨first.1, hfirst⟩⟩
  have hsweep := sweeps_foldl htags hits (fun _ h => h) hsorted
  have hall := hsweep.least hits List.infix_rfl (fun _ h => h)
  rcases hsweep.found with htop | ⟨v, hv, hcover, hbest⟩
  · rw [htop] at hall
    exact absurd hall (by simp)
  refine ⟨spanOf v, hbest, ?_, ?_⟩
  · cases v with
    | nil =>
      obtain ⟨t, ht⟩ := htags
      exact absurd (hcover ht) (by simp [tags])
    | cons a v =>
      refine ⟨a.1, fun t ht => ?_⟩
      obtain ⟨p, hp⟩ := mem_tags.1 (hcover ht)
      exact ⟨p, hv.subset hp, le_spanOf (hsorted.sublist hv.sublist) hp⟩
  · rintro w ⟨i, hi⟩
    have hcovers : tags hits ⊆ tags (between i w hits) := by
      intro t ht
      obtain ⟨p, hp, hle, hlt⟩ := hi t ht
      exact mem_tags.2 ⟨p, (mem_between hsorted).2 ⟨hp, hle, hlt⟩⟩
    have hspan := hsweep.least _ (between_within i w hits) hcovers
    rw [hbest] at hspan
    refine (WithTop.coe_le_coe.1 hspan).trans ?_
    -- the interval contains the stretch
    cases hb : between i w hits with
    | nil =>
      obtain ⟨t, ht⟩ := htags
      have hnone := hcovers ht
      rw [hb] at hnone
      exact absurd hnone (by simp [tags])
    | cons a v' =>
      have hne' : a :: v' ≠ [] := List.cons_ne_nil a v'
      have hwithin : ∀ h ∈ a :: v', i ≤ h.1 ∧ h.1 < i + w := by
        intro h hh
        rw [← hb] at hh
        exact ((mem_between hsorted).1 hh).2
      have ha := hwithin a List.mem_cons_self
      have hlast := hwithin _ (List.getLast_mem hne')
      rw [spanOf_of_getLast ((a :: v').getLast hne').1
        (by simp [List.getLast?_eq_some_getLast])]
      omega

end

end Spectral.Lib
