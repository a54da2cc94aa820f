import Mathlib.Tactic.Positivity
import Mathlib.Tactic.GCongr
import Spectral.Brain.Merge

/-!
# What one child can do to a ranking

With rank fusion the score of a content is a sum with one term for each child that has it: the
weight of the child over a constant and the best place it gives the content.

* `fusedScore` — the score of a content, which every hit with that content is ranked on.
* `fusedScore_eq_add` — it is what the other children make of it, and the share of the child.
* `share_le` — the share is at most the weight over the constant, whatever the child returns.
* `map_unscored_mergeAndRank` — the scores that the children gave their hits are not read.

All this needs the constant to be positive, and of a negative weight the share is at most zero.
-/

namespace Spectral

open Spectral.Lib

/-! ## Shares -/

/-- What a child adds to the score of a content it has at its best in some place. -/
def share (weights : HashMap Bytes32 (Option ℚ)) (k : Option ℚ) (e : (Bytes32 × Bytes32) × ℕ) : ℚ :=
  match (weights.get? e.1.1).getD (some 1), k with
  | some w, some k => if k + e.2 ≤ 0 then 0 else w / (k + e.2)
  | _, _ => 0

section

variable {order order' : Shuffle ((Bytes32 × Bytes32) × ℕ)} {k : Option ℚ} {flat : List Flat}
  {weights weights' : HashMap Bytes32 (Option ℚ)} {fp origin : Bytes32}

theorem getD_fuseOne (fused : HashMap Bytes32 ℚ) (e : (Bytes32 × Bytes32) × ℕ) :
    ((fuseOne weights k fused e).get? fp).getD 0 =
      (fused.get? fp).getD 0 + if e.1.2 = fp then share weights k e else 0 := by
  unfold fuseOne share
  cases (weights.get? e.1.1).getD (some 1) with
  | none => simp
  | some w =>
    cases k with
    | none => simp
    | some q =>
      dsimp only
      by_cases hpos : q + e.2 ≤ 0
      · simp [hpos]
      · rw [if_neg hpos, if_neg hpos, HashMap.get?_entry]
        by_cases hfp : e.1.2 = fp
        · simp [hfp]
        · simp [hfp, Ne.symm hfp]

theorem getD_foldl_fuseOne (entries : List ((Bytes32 × Bytes32) × ℕ)) (fused : HashMap Bytes32 ℚ) :
    ((entries.foldl (fuseOne weights k) fused).get? fp).getD 0 = (fused.get? fp).getD 0 +
      ((entries.filter fun e => e.1.2 = fp).map (share weights k)).sum := by
  induction entries generalizing fused with
  | nil => simp
  | cons e entries ih =>
    rw [List.foldl_cons, ih, getD_fuseOne, List.filter_cons]
    by_cases hfp : e.1.2 = fp
    · simp [hfp, add_assoc]
    · simp [hfp]

/-- The score of a content is the sum of the shares, in any order. -/
theorem getD_fusedScores : ((fusedScores order k flat).get? fp).getD 0 =
    (((bestRank flat).entries.filter fun e => e.1.2 = fp).map (share (weightOf flat) k)).sum := by
  have hperm := ((order.perm (bestRank flat).entries).filter fun e => e.1.2 = fp).map
    (share (weightOf flat) k)
  rw [fusedScores, getD_foldl_fuseOne, hperm.sum_eq, HashMap.get?_empty, Option.getD_none, zero_add]

theorem share_congr {e : (Bytes32 × Bytes32) × ℕ}
    (h : weights.get? e.1.1 = weights'.get? e.1.1) : share weights k e = share weights' k e := by
  unfold share
  rw [h]

/-- The best ranks of the other children, and their weights, are theirs. -/
theorem get?_bestRank_filter {key : Bytes32 × Bytes32} (h : key.1 ≠ origin) :
    (bestRank (flat.filter fun f => f.origin ≠ origin)).get? key = (bestRank flat).get? key :=
  HashMap.get?_foldl_entry_filter fun f hf => by
    rw [← hf] at h
    exact decide_eq_true h

theorem get?_weightOf_filter {other : Bytes32} (h : other ≠ origin) :
    (weightOf (flat.filter fun f => f.origin ≠ origin)).get? other = (weightOf flat).get? other :=
  HashMap.get?_foldl_entry_filter fun f hf => by
    rw [← hf] at h
    exact decide_eq_true h

/-- A child that has a hit has the weight of one of its hits. -/
theorem exists_of_get?_bestRank {fp : Bytes32} {r : ℕ}
    (h : (bestRank flat).get? (origin, fp) = some r) : ∃ f ∈ flat, f.origin = origin := by
  by_contra hno
  have hnone : (flat.filter fun f => (f.origin, f.fp) = (origin, fp)) = [] := by
    rw [List.filter_eq_nil_iff]
    intro f hf heq
    exact hno ⟨f, hf, congrArg Prod.fst (of_decide_eq_true heq)⟩
  unfold bestRank at h
  rw [HashMap.get?_foldl_entry, hnone] at h
  cases h

theorem get?_weightOf {weight : Option ℚ} (hin : ∃ f ∈ flat, f.origin = origin)
    (h : ∀ f ∈ flat, f.origin = origin → f.weight = weight) :
    (weightOf flat).get? origin = some weight := by
  unfold weightOf HashMap.insert
  rw [HashMap.get?_foldl_entry]
  have hof : ∀ f ∈ flat.filter fun f => f.origin = origin, f.weight = weight := by
    intro f hf
    obtain ⟨hf, horigin⟩ := List.mem_filter.1 hf
    exact h f hf (of_decide_eq_true horigin)
  have hsome : (flat.filter fun f => f.origin = origin) ≠ [] := by
    obtain ⟨f, hf, horigin⟩ := hin
    exact List.ne_nil_of_mem (List.mem_filter.2 ⟨hf, decide_eq_true horigin⟩)
  -- the last of them has the say
  generalize (flat.filter fun f => f.origin = origin) = own at hof hsome
  induction own using List.reverseRecOn with
  | nil => exact absurd rfl hsome
  | append_singleton own f ih =>
    rw [List.foldl_append, List.foldl_cons, List.foldl_nil, hof f (by simp)]

/-- The score of a content, by what the other children make of it and the share of a child. -/
theorem fusedScores_eq_add :
    ((fusedScores order k flat).get? fp).getD 0 =
      ((fusedScores order' k (flat.filter fun f => f.origin ≠ origin)).get? fp).getD 0 +
        (((bestRank flat).get? (origin, fp)).map fun r =>
          share (weightOf flat) k ((origin, fp), r)).getD 0 := by
  have hothers : ((bestRank flat).retain fun key _ => key.1 ≠ origin).entries.Perm
      (bestRank (flat.filter fun f => f.origin ≠ origin)).entries := by
    refine HashMap.perm_of_get? fun key => ?_
    rw [HashMap.get?_retain]
    by_cases h : key.1 = origin
    · have hnone : (bestRank (flat.filter fun f => f.origin ≠ origin)).get? key = none := by
        cases hget : (bestRank (flat.filter fun f => f.origin ≠ origin)).get? key with
        | none => rfl
        | some r =>
          have hof : ∃ f ∈ flat.filter fun f => f.origin ≠ origin, f.origin = key.1 :=
            exists_of_get?_bestRank hget
          obtain ⟨f, hf, horigin⟩ := hof
          exact absurd (horigin.trans h) (of_decide_eq_true (List.mem_filter.1 hf).2)
      rw [hnone]
      cases (bestRank flat).get? key <;> simp [h]
    · rw [get?_bestRank_filter h]
      cases (bestRank flat).get? key <;> simp [h]
  have hsplit := (List.filter_append_perm (fun e : (Bytes32 × Bytes32) × ℕ => e.1.1 ≠ origin)
    ((bestRank flat).entries.filter fun e => e.1.2 = fp)).map (share (weightOf flat) k)
  have hkept : (((bestRank flat).entries.filter fun e => e.1.2 = fp).filter
      fun e => e.1.1 ≠ origin).Perm ((bestRank (flat.filter fun f => f.origin ≠ origin)).entries.filter
        fun e => e.1.2 = fp) := by
    rw [List.filter_comm]
    exact hothers.filter _
  have hown : (((bestRank flat).entries.filter fun e => e.1.2 = fp).filter
      fun e => !decide (e.1.1 ≠ origin)) =
        (((bestRank flat).get? (origin, fp)).map fun r => ((origin, fp), r)).toList := by
    rw [← HashMap.filter_entries_eq, List.filter_filter]
    refine List.filter_congr fun e _ => ?_
    obtain ⟨⟨o, c⟩, r⟩ := e
    simp [Prod.ext_iff]
  rw [getD_fusedScores, getD_fusedScores, ← hsplit.sum_eq, List.map_append, List.sum_append, hown]
  congr 1
  · rw [(hkept.map _).sum_eq]
    refine congrArg List.sum (List.map_congr_left fun e he => ?_)
    have hin := hkept.mem_iff.2 he
    exact share_congr (get?_weightOf_filter (of_decide_eq_true (List.mem_filter.1 hin).2)).symm
  · cases (bestRank flat).get? (origin, fp) <;> simp

/-- **A share** is at most the weight over the constant. -/
theorem share_le {q : ℚ} (hq : 0 < q) {weight : Option ℚ}
    (h : ∀ f ∈ flat, f.origin = origin → f.weight = weight) :
    (((bestRank flat).get? (origin, fp)).map fun r =>
      share (weightOf flat) (some q) ((origin, fp), r)).getD 0 ≤ max (weight.getD 0) 0 / q := by
  have hbound : 0 ≤ max (weight.getD 0) 0 / q := by positivity
  cases hget : (bestRank flat).get? (origin, fp) with
  | none => exact hbound
  | some r =>
    have hweight := get?_weightOf (exists_of_get?_bestRank hget) h
    simp only [Option.map_some, Option.getD_some, share, hweight]
    cases weight with
    | none => exact hbound
    | some w =>
      dsimp only
      have hpos : 0 < q + r := by positivity
      rw [if_neg (not_le.2 hpos)]
      calc w / (q + r) ≤ max w 0 / (q + r) := by gcongr; exact le_max_left w 0
        _ ≤ max w 0 / q := by gcongr; simp

end

/-! ## Scores that are not read -/

/-- The hit without the score its child gave it. -/
def MemoryHit.unscored (hit : MemoryHit) : MemoryHit := { hit with signalScore := 0 }

/-- What the child contributes, without the scores. -/
def ChildHits.unscored (c : ChildHits) : ChildHits := { c with hits := c.hits.map MemoryHit.unscored }

/-- The same of a ranked hit. -/
def LabeledHit.unscored (l : LabeledHit) : LabeledHit := { l with hit := l.hit.unscored }

/-- The same of a hit with its place. -/
def Flat.unscored (f : Flat) : Flat := { f with hit := f.hit.unscored }

section

variable {env : Env} {pf : Platform} {isWhitespace : Char → Bool}
  {order order' : Shuffle ((Bytes32 × Bytes32) × ℕ)} {contributions : List ChildHits}
  {policy : MergePolicy} {k : Option ℚ} {flat : List Flat}

theorem bestRank_map_unscored : bestRank (flat.map Flat.unscored) = bestRank flat := by
  unfold bestRank
  rw [List.foldl_map]
  rfl

theorem weightOf_map_unscored : weightOf (flat.map Flat.unscored) = weightOf flat := by
  unfold weightOf
  rw [List.foldl_map]
  rfl

theorem cappedFlat_map_unscored :
    cappedFlat env pf isWhitespace policy (contributions.map ChildHits.unscored) =
      (cappedFlat env pf isWhitespace policy contributions).map Flat.unscored := by
  unfold cappedFlat
  rw [List.map_flatMap, List.map_map, List.flatMap_map, List.flatMap_map]
  refine List.flatMap_congr fun c _ => ?_
  have hcap : c.unscored.cap policy = (c.cap policy).unscored := by
    unfold ChildHits.cap
    split
    · unfold ChildHits.unscored
      simp only [List.map_take]
    · rfl
  show (c.unscored.cap policy).flat env pf isWhitespace = _
  rw [hcap]
  unfold ChildHits.flat ChildHits.unscored
  rw [List.zipIdx_map, List.map_map, List.map_map]
  rfl

/-- **Rank fusion** does not read the scores of the children. -/
theorem map_unscored_mergeAndRank :
    (mergeAndRank env pf isWhitespace order contributions { policy with fusion := .rrf k }).1.map
        LabeledHit.unscored =
      (mergeAndRank env pf isWhitespace order (contributions.map ChildHits.unscored)
        { policy with fusion := .rrf k }).1 := by
  rw [mergeAndRank_eq, mergeAndRank_eq, cappedFlat_map_unscored, List.map_map, List.map_map]
  generalize cappedFlat env pf isWhitespace { policy with fusion := .rrf k } contributions = flat
  have hscore : ∀ f : Flat, effectiveScore order { policy with fusion := .rrf k }
      (flat.map Flat.unscored) f.unscored =
        effectiveScore order { policy with fusion := .rrf k } flat f := by
    intro f
    unfold effectiveScore fusedScores
    rw [bestRank_map_unscored, weightOf_map_unscored]
    rfl
  have hkeyed : flat.map (Flat.keyed (effectiveScore order { policy with fusion := .rrf k }
      (flat.map Flat.unscored)) ∘ Flat.unscored) =
        (flat.map (Flat.keyed (effectiveScore order { policy with fusion := .rrf k } flat))).map
          fun p => (p.1, p.2.unscored) := by
    rw [List.map_map]
    refine List.map_congr_left fun f _ => ?_
    show Flat.keyed _ f.unscored = _
    unfold Flat.keyed
    rw [hscore]
    rfl
  have hsort := List.map_insertionSort RanksFirst RanksFirst
    (fun p : Bytes32 × LabeledHit => (p.1, p.2.unscored)) (flat.map (Flat.keyed (effectiveScore order
      { policy with fusion := .rrf k } flat))) fun a _ b _ => Iff.rfl
  rw [hkeyed, ← hsort, List.map_map]
  rfl

theorem mergeAndRank_rrf_order (order order' : Shuffle ((Bytes32 × Bytes32) × ℕ)) :
    (mergeAndRank env pf isWhitespace order contributions { policy with fusion := .rrf k }).1 =
      (mergeAndRank env pf isWhitespace order' contributions { policy with fusion := .rrf k }).1 := by
  have hscore : effectiveScore order { policy with fusion := .rrf k } =
      effectiveScore order' { policy with fusion := .rrf k } := by
    funext flat f
    show ((fusedScores order k flat).get? f.fp).getD 0 = ((fusedScores order' k flat).get? f.fp).getD 0
    rw [getD_fusedScores, getD_fusedScores]
  rw [mergeAndRank_eq, mergeAndRank_eq, hscore]

end

/-! ## One child -/

section

variable (env : Env) (pf : Platform) (isWhitespace : Char → Bool) (policy : MergePolicy)

/-- The score rank fusion gives a content. -/
def fusedScore (order : Shuffle ((Bytes32 × Bytes32) × ℕ)) (k : Option ℚ)
    (contributions : List ChildHits) (fp : Bytes32) : ℚ :=
  ((fusedScores order k (cappedFlat env pf isWhitespace policy contributions)).get? fp).getD 0

variable {env pf isWhitespace policy} in
/-- Every hit is ranked on the score of its content. -/
theorem effectiveScore_of_mem_mergeAndRank {order : Shuffle ((Bytes32 × Bytes32) × ℕ)}
    {k : Option ℚ} {contributions : List ChildHits} {l : LabeledHit}
    (h : l ∈ (mergeAndRank env pf isWhitespace order contributions { policy with fusion := .rrf k }).1) :
    l.effectiveScore = fusedScore env pf isWhitespace policy order k contributions
      (contentFingerprint env pf isWhitespace l.hit.content) := by
  rw [mergeAndRank_eq] at h
  obtain ⟨p, hp, rfl⟩ := List.mem_map.1 h
  rw [List.mem_insertionSort] at hp
  obtain ⟨f, hf, rfl⟩ := List.mem_map.1 hp
  obtain ⟨c, -, hfc⟩ := mem_cappedFlat.1 hf
  show ((fusedScores order k _).get? f.fp).getD 0 = _
  rw [(ChildHits.mem_flat.1 hfc).2.2.2]
  rfl

/-- The hits of the other children. -/
theorem cappedFlat_filter (contributions : List ChildHits) (origin : Bytes32) :
    cappedFlat env pf isWhitespace policy (contributions.filter fun c => c.origin ≠ origin) =
      (cappedFlat env pf isWhitespace policy contributions).filter fun f => f.origin ≠ origin := by
  induction contributions with
  | nil => rfl
  | cons c contributions ih =>
    have hown : ∀ f ∈ (c.cap policy).flat env pf isWhitespace, f.origin = c.origin :=
      fun f hf => origin_of_mem_flat hf
    unfold cappedFlat at ih ⊢
    rw [List.map_cons, List.flatMap_cons, List.filter_append, ← ih]
    by_cases h : c.origin = origin
    · have hnone : ((c.cap policy).flat env pf isWhitespace).filter (fun f => f.origin ≠ origin) =
          [] := by
        rw [List.filter_eq_nil_iff]
        intro f hf
        simp [hown f hf, h]
      rw [List.filter_cons_of_neg (by simp [h]), hnone, List.nil_append]
    · have hall : ((c.cap policy).flat env pf isWhitespace).filter (fun f => f.origin ≠ origin) =
          (c.cap policy).flat env pf isWhitespace := by
        rw [List.filter_eq_self]
        intro f hf
        simp [hown f hf, h]
      rw [List.filter_cons_of_pos (by simp [h]), hall, List.map_cons, List.flatMap_cons]

/-- **One child cannot stuff the ranking.**  With rank fusion hits are ranked on the fused scores.
With a positive constant a child adds to the score of a content no more than its weight over the
constant, or nothing if the weight is negative.  And the scores that children give their hits are
of no consequence. -/
theorem mergeAndRank_bounds_child (k : Option ℚ) (contributions : List ChildHits) :
    (∀ order, ∀ l ∈ (mergeAndRank env pf isWhitespace order contributions
        { policy with fusion := .rrf k }).1,
      l.effectiveScore = fusedScore env pf isWhitespace policy order k contributions
        (contentFingerprint env pf isWhitespace l.hit.content)) ∧
    (∀ q, k = some q → 0 < q → ∀ origin weight,
      (∀ c ∈ contributions, c.origin = origin → c.weight = weight) → ∀ order order' fp,
        fusedScore env pf isWhitespace policy order k contributions fp ≤
          fusedScore env pf isWhitespace policy order' k
            (contributions.filter fun c => c.origin ≠ origin) fp + max (weight.getD 0) 0 / q) ∧
    (∀ contributions', contributions'.map ChildHits.unscored = contributions.map ChildHits.unscored →
      ∀ order order',
        (mergeAndRank env pf isWhitespace order' contributions'
            { policy with fusion := .rrf k }).1.map LabeledHit.unscored =
          (mergeAndRank env pf isWhitespace order contributions
            { policy with fusion := .rrf k }).1.map LabeledHit.unscored ∧
        ∀ fp, fusedScore env pf isWhitespace policy order' k contributions' fp =
          fusedScore env pf isWhitespace policy order k contributions fp) := by
  refine ⟨fun order l => effectiveScore_of_mem_mergeAndRank, ?_, ?_⟩
  · rintro q rfl hq origin weight hweight order order' fp
    unfold fusedScore
    rw [cappedFlat_filter]
    refine fusedScores_eq_add.trans_le (add_le_add_right (share_le hq ?_) _)
    intro f hf horigin
    obtain ⟨c, hc, hfc⟩ := mem_cappedFlat.1 hf
    have hcap : (c.cap policy).weight = c.weight := by
      unfold ChildHits.cap
      split <;> rfl
    rw [(ChildHits.mem_flat.1 hfc).2.2.1, hcap]
    exact hweight c hc ((origin_of_mem_flat hfc).symm.trans horigin)
  · intro contributions' h order order'
    constructor
    · rw [mergeAndRank_rrf_order order' order, map_unscored_mergeAndRank, map_unscored_mergeAndRank, h]
    · intro fp
      unfold fusedScore
      rw [getD_fusedScores, getD_fusedScores, ← bestRank_map_unscored, ← weightOf_map_unscored,
        ← cappedFlat_map_unscored, h, cappedFlat_map_unscored, bestRank_map_unscored,
        weightOf_map_unscored]

end

/-! ## Two children with one note -/

/-- Of the two children the one that has the note twice adds its weight over the constant. -/
theorem mergeAndRank_bounds_two_children :
    fusedScore authorEnv .plain (fun c => c.isWhitespace) {} .inOrder (some 60) twoChildren
        (contentFingerprint authorEnv .plain (fun c => c.isWhitespace) "note") ≤
      fusedScore authorEnv .plain (fun c => c.isWhitespace) {} .backwards (some 60)
        (twoChildren.filter fun c => c.origin ≠ author)
        (contentFingerprint authorEnv .plain (fun c => c.isWhitespace) "note") + max 1 0 / 60 :=
  (mergeAndRank_bounds_child authorEnv .plain (fun c => c.isWhitespace) {} (some 60)
    twoChildren).2.1 60 rfl (by norm_num) author (some 1) (by decide +kernel) _ _ _

/-- A child with two notes. -/
def noteSecond (weight : ℚ) : List ChildHits :=
  [⟨author, some weight, [plainHit "a" "monday", plainHit "b" "note"]⟩]

/-- The two notes with these scores. -/
def scoredNotes (x y : ℚ) : List ChildHits :=
  [⟨author, some 1, [{ plainHit "a" "monday" with signalScore := x },
    { plainHit "b" "note" with signalScore := y }]⟩]

/-- A share in the second place is above the weight over the constant when the weight is negative,
or the constant is; and where hits are ranked on the scores of the children, the scores decide. -/
theorem share_above_bound :
    (-1 / 60 : ℚ) < fusedScore authorEnv .plain (fun c => c.isWhitespace) {} .inOrder (some 60)
        (noteSecond (-1)) (contentFingerprint authorEnv .plain (fun c => c.isWhitespace) "note") ∧
      (1 / (-1 / 2) : ℚ) < fusedScore authorEnv .plain (fun c => c.isWhitespace) {} .inOrder
        (some (-1 / 2)) (noteSecond 1)
        (contentFingerprint authorEnv .plain (fun c => c.isWhitespace) "note") ∧
      (mergeAndRank authorEnv .plain (fun c => c.isWhitespace) .inOrder (scoredNotes 1 0)
          { fusion := .rawScore }).1.map LabeledHit.unscored ≠
        (mergeAndRank authorEnv .plain (fun c => c.isWhitespace) .inOrder (scoredNotes 0 1)
          { fusion := .rawScore }).1.map LabeledHit.unscored := by
  decide +kernel

end Spectral
