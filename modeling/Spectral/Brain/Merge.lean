import Mathlib.Algebra.BigOperators.Group.List.Basic
import Spectral.Lib.Orderless
import Spectral.Brain.FanOut

/-!
# Merging in any order

`mergeAndRank` as a function of what the children contribute.

* `perm_mergeAndRank` — what is ranked are the hits that are within the caps, each as often as it
  was contributed.
* `pairwise_mergeAndRank` — they are in the order of the scores, and of the ties.
* `mergeAndRank_perm` — the order of the children is of no consequence, nor is the order the maps
  are iterated in: the score of a content is a sum with one term for each child that has it, and
  hits that tie come from one child.
-/

namespace Spectral

open Spectral.Lib

/-! ## The order of the ranking -/

theorem bytes_eq_iff {a b : Bytes32} : a = b ↔ a.toList = b.toList := Vector.toList_inj.symm

instance : Std.Total RanksFirst := ⟨fun a b => by
  unfold RanksFirst
  simp only [bytes_eq_iff]
  grind⟩

instance : IsTrans (Bytes32 × LabeledHit) RanksFirst := ⟨fun a b c => by
  unfold RanksFirst
  simp only [bytes_eq_iff]
  grind⟩

/-- Hits that tie are of one child. -/
theorem RanksFirst.origin_eq {a b : Bytes32 × LabeledHit} (hab : RanksFirst a b)
    (hba : RanksFirst b a) : a.2.origin = b.2.origin := by
  unfold RanksFirst at hab hba
  simp only [bytes_eq_iff] at hab hba ⊢
  grind

section

variable {env : Env} {pf : Platform} {isWhitespace : Char → Bool}
  {order order' : Shuffle ((Bytes32 × Bytes32) × ℕ)} {contributions contributions' : List ChildHits}
  {policy : MergePolicy} {flat flat' : List Flat}

/-! ## The maps -/

/-- The best ranks do not depend on the order of the hits. -/
theorem get?_bestRank_of_perm (h : flat.Perm flat') (key : Bytes32 × Bytes32) :
    (bestRank flat).get? key = (bestRank flat').get? key := by
  refine HashMap.get?_foldl_of_perm h (fun f m m' hm k => ?_) (fun f _ g _ m k => ?_)
    (fun _ => rfl) key
  · rw [HashMap.get?_entry, HashMap.get?_entry, hm, hm]
  · refine HashMap.get?_entry_comm (fun _ o => ?_) m k
    cases o with
    | none => simp [Nat.min_comm]
    | some r => exact Nat.min_right_comm r f.rank g.rank

/-- Nor do the weights, when the hits of a child agree on its weight. -/
theorem get?_weightOf_of_perm (h : flat.Perm flat')
    (hagree : ∀ f ∈ flat, ∀ g ∈ flat, f.origin = g.origin → f.weight = g.weight) (origin : Bytes32) :
    (weightOf flat).get? origin = (weightOf flat').get? origin := by
  refine HashMap.get?_foldl_of_perm h (fun f m m' hm k => ?_) (fun f hf g hg m k => ?_)
    (fun _ => rfl) origin
  · rw [HashMap.get?_insert, HashMap.get?_insert, hm]
  · exact HashMap.get?_entry_comm (fun horigin _ => (hagree f hf g hg horigin).symm) m k

/-- What a child adds depends on the weights it finds. -/
theorem fuseOne_congr {weights weights' : HashMap Bytes32 (Option ℚ)}
    (h : ∀ origin, weights.get? origin = weights'.get? origin) (k : Option ℚ) :
    fuseOne weights k = fuseOne weights' k := by
  funext fused e
  unfold fuseOne
  rw [h]

/-- The share a child adds to the score of a content, if any. -/
theorem exists_fuseOne_eq (weights : HashMap Bytes32 (Option ℚ)) (k : Option ℚ)
    (e : (Bytes32 × Bytes32) × ℕ) :
    (∀ fused, fuseOne weights k fused e = fused) ∨
      ∃ share, ∀ fused, fuseOne weights k fused e = fused.entry e.1.2 0 fun score => score + share := by
  unfold fuseOne
  split
  · split
    · exact Or.inl fun _ => rfl
    · exact Or.inr ⟨_, fun _ => rfl⟩
  · exact Or.inl fun _ => rfl

/-- The shares of two children are added in either order. -/
theorem get?_fuseOne_comm (weights : HashMap Bytes32 (Option ℚ)) (k : Option ℚ)
    (e e' : (Bytes32 × Bytes32) × ℕ) (fused : HashMap Bytes32 ℚ) (fp : Bytes32) :
    (fuseOne weights k (fuseOne weights k fused e) e').get? fp =
      (fuseOne weights k (fuseOne weights k fused e') e).get? fp := by
  rcases exists_fuseOne_eq weights k e with he | ⟨share, he⟩ <;>
    rcases exists_fuseOne_eq weights k e' with he' | ⟨share', he'⟩ <;>
    simp only [he, he']
  exact HashMap.get?_entry_comm (fun _ o => add_right_comm _ _ _) fused fp

/-- Nor do the fused scores, whatever the order the best ranks are iterated in. -/
theorem get?_fusedScores_of_perm (h : flat.Perm flat')
    (hagree : ∀ f ∈ flat, ∀ g ∈ flat, f.origin = g.origin → f.weight = g.weight)
    (k : Option ℚ) (fp : Bytes32) :
    (fusedScores order k flat).get? fp = (fusedScores order' k flat').get? fp := by
  have hranks : (bestRank flat).entries.Perm (bestRank flat').entries :=
    HashMap.perm_of_get? (get?_bestRank_of_perm h)
  rw [fusedScores, fusedScores, fuseOne_congr (get?_weightOf_of_perm h hagree)]
  refine HashMap.get?_foldl_of_perm ((order.perm _).trans (hranks.trans (order'.perm _).symm))
    (fun e m m' hm k' => ?_) (fun e _ e' _ m k' => get?_fuseOne_comm _ k e e' m k') (fun _ => rfl) fp
  rcases exists_fuseOne_eq (weightOf flat') k e with he | ⟨share, he⟩
  · rw [he, he, hm]
  · rw [he, he, HashMap.get?_entry, HashMap.get?_entry, hm, hm]

theorem effectiveScore_of_perm (h : flat.Perm flat')
    (hagree : ∀ f ∈ flat, ∀ g ∈ flat, f.origin = g.origin → f.weight = g.weight) (f : Flat) :
    effectiveScore order policy flat f = effectiveScore order' policy flat' f := by
  unfold effectiveScore
  split
  · rfl
  · rw [get?_fusedScores_of_perm h hagree]

/-! ## The hits -/

variable (env pf isWhitespace policy) in
/-- The hits within the caps, with their places. -/
def cappedFlat (contributions : List ChildHits) : List Flat :=
  (contributions.map (ChildHits.cap policy)).flatMap (ChildHits.flat env pf isWhitespace)

/-- What is ranked, before it is sorted. -/
def Flat.keyed (score : Flat → ℚ) (f : Flat) : Bytes32 × LabeledHit :=
  (f.fp, ⟨f.origin, score f, f.hit⟩)

theorem mergeAndRank_eq :
    (mergeAndRank env pf isWhitespace order contributions policy).1 =
      ((((cappedFlat env pf isWhitespace policy contributions).map (Flat.keyed (effectiveScore order
        policy (cappedFlat env pf isWhitespace policy contributions)))).insertionSort
          RanksFirst).map Prod.snd) := rfl

theorem ChildHits.mem_flat {c : ChildHits} {f : Flat} : f ∈ c.flat env pf isWhitespace ↔
    c.hits[f.rank]? = some f.hit ∧ f.origin = c.origin ∧ f.weight = c.weight ∧
      f.fp = contentFingerprint env pf isWhitespace f.hit.content := by
  unfold flat
  rw [List.mem_map]
  constructor
  · rintro ⟨p, hp, rfl⟩
    exact ⟨List.mem_zipIdx_iff_getElem?.1 hp, rfl, rfl, rfl⟩
  · rintro ⟨hhit, horigin, hweight, hfp⟩
    refine ⟨(f.hit, f.rank), List.mem_zipIdx_iff_getElem?.2 hhit, ?_⟩
    cases f
    simp_all

/-- A hit is in the place it has within the cap of a child. -/
theorem mem_cappedFlat {f : Flat} : f ∈ cappedFlat env pf isWhitespace policy contributions ↔
    ∃ c ∈ contributions, f ∈ (c.cap policy).flat env pf isWhitespace := by
  simp [cappedFlat]

theorem origin_of_mem_flat {c : ChildHits} {f : Flat}
    (h : f ∈ (c.cap policy).flat env pf isWhitespace) : f.origin = c.origin :=
  (ChildHits.mem_flat.1 h).2.1.trans ChildHits.origin_cap

/-- Hits of one origin are of one child, when every child contributes once. -/
theorem exists_child_of_origin_eq (hnodup : (contributions.map ChildHits.origin).Nodup) {f g : Flat}
    (hf : f ∈ cappedFlat env pf isWhitespace policy contributions)
    (hg : g ∈ cappedFlat env pf isWhitespace policy contributions) (horigin : f.origin = g.origin) :
    ∃ c ∈ contributions, f ∈ (c.cap policy).flat env pf isWhitespace ∧
      g ∈ (c.cap policy).flat env pf isWhitespace := by
  obtain ⟨c, hc, hfc⟩ := mem_cappedFlat.1 hf
  obtain ⟨c', hc', hgc⟩ := mem_cappedFlat.1 hg
  rw [origin_of_mem_flat hfc, origin_of_mem_flat hgc] at horigin
  obtain rfl := List.inj_on_of_nodup_map hnodup hc hc' horigin
  exact ⟨c, hc, hfc, hgc⟩

theorem weight_eq_of_origin_eq (hnodup : (contributions.map ChildHits.origin).Nodup) :
    ∀ f ∈ cappedFlat env pf isWhitespace policy contributions,
    ∀ g ∈ cappedFlat env pf isWhitespace policy contributions,
      f.origin = g.origin → f.weight = g.weight := by
  intro f hf g hg horigin
  obtain ⟨c, -, hfc, hgc⟩ := exists_child_of_origin_eq hnodup hf hg horigin
  exact (ChildHits.mem_flat.1 hfc).2.2.1.trans (ChildHits.mem_flat.1 hgc).2.2.1.symm

/-- A hit is told from the others by its child and its place. -/
theorem flat_ext (hnodup : (contributions.map ChildHits.origin).Nodup) {f g : Flat}
    (hf : f ∈ cappedFlat env pf isWhitespace policy contributions)
    (hg : g ∈ cappedFlat env pf isWhitespace policy contributions) (horigin : f.origin = g.origin)
    (hrank : f.rank = g.rank) : f = g := by
  obtain ⟨c, -, hfc, hgc⟩ := exists_child_of_origin_eq hnodup hf hg horigin
  obtain ⟨hfhit, -, hfw, hffp⟩ := ChildHits.mem_flat.1 hfc
  obtain ⟨hghit, -, hgw, hgfp⟩ := ChildHits.mem_flat.1 hgc
  have hhit : f.hit = g.hit := by
    rw [hrank, hghit] at hfhit
    exact (Option.some.inj hfhit).symm
  cases f
  cases g
  simp_all

/-- The hits of a child come in the order of their places. -/
theorem pairwise_cappedFlat (hnodup : (contributions.map ChildHits.origin).Nodup) :
    (cappedFlat env pf isWhitespace policy contributions).Pairwise fun f g =>
      f.origin = g.origin → f.rank ≤ g.rank := by
  unfold cappedFlat
  rw [List.pairwise_flatMap]
  refine ⟨fun capped hcapped => ?_, ?_⟩
  · have hranks : (capped.hits.zipIdx.map Prod.snd).Pairwise (· < ·) := by
      rw [List.zipIdx_map_snd]
      exact List.pairwise_lt_range'
    rw [ChildHits.flat, List.pairwise_map]
    exact (List.pairwise_map.1 hranks).imp fun hlt _ => hlt.le
  · rw [List.pairwise_map]
    refine (List.pairwise_map.1 hnodup).imp fun hne f hf g hg horigin => ?_
    exact absurd ((origin_of_mem_flat hf).symm.trans (horigin.trans (origin_of_mem_flat hg))) hne

/-! ## The ranking -/

/-- What is ranked is what the caps leave. -/
theorem perm_mergeAndRank :
    ((mergeAndRank env pf isWhitespace order contributions policy).1.map fun l =>
        (l.origin, l.hit)).Perm
      (contributions.flatMap fun c => (c.cap policy).hits.map fun hit => (c.origin, hit)) := by
  rw [mergeAndRank_eq, List.map_map]
  refine ((List.perm_insertionSort _ _).map _).trans ?_
  rw [List.map_map, cappedFlat, List.map_flatMap, List.flatMap_map]
  refine List.Perm.of_eq (List.flatMap_congr fun c _ => ?_)
  have hhits := List.zipIdx_map_fst 0 (c.cap policy).hits
  rw [ChildHits.flat, List.map_map]
  show ((c.cap policy).hits.zipIdx.map fun p => ((c.cap policy).origin, p.1)) = _
  rw [ChildHits.origin_cap]
  conv_rhs => rw [← hhits, List.map_map]
  rfl

/-- It is in order. -/
theorem pairwise_mergeAndRank :
    (mergeAndRank env pf isWhitespace order contributions policy).1.Pairwise fun a b =>
      RanksFirst (contentFingerprint env pf isWhitespace a.hit.content, a)
        (contentFingerprint env pf isWhitespace b.hit.content, b) := by
  rw [mergeAndRank_eq, List.pairwise_map]
  refine (List.pairwise_insertionSort RanksFirst _).imp_of_mem fun {a b} ha hb hab => ?_
  have hfp : ∀ p ∈ ((cappedFlat env pf isWhitespace policy contributions).map (Flat.keyed
      (effectiveScore order policy (cappedFlat env pf isWhitespace policy contributions)))),
      (contentFingerprint env pf isWhitespace p.2.hit.content, p.2) = p := by
    intro p hp
    obtain ⟨f, hf, rfl⟩ := List.mem_map.1 hp
    obtain ⟨c, -, hfc⟩ := mem_cappedFlat.1 hf
    rw [Flat.keyed, (ChildHits.mem_flat.1 hfc).2.2.2]
  rw [List.mem_insertionSort] at ha hb
  rwa [hfp a ha, hfp b hb]

/-- The order of the children does not matter, nor that of the iterations. -/
theorem mergeAndRank_perm (hnodup : (contributions.map ChildHits.origin).Nodup)
    (h : contributions.Perm contributions') :
    (mergeAndRank env pf isWhitespace order contributions policy).1 =
      (mergeAndRank env pf isWhitespace order' contributions' policy).1 := by
  have hnodup' : (contributions'.map ChildHits.origin).Nodup := (h.map _).nodup_iff.1 hnodup
  have hflat : (cappedFlat env pf isWhitespace policy contributions).Perm
      (cappedFlat env pf isWhitespace policy contributions') := (h.map _).flatMap_right _
  have hscore : effectiveScore order policy (cappedFlat env pf isWhitespace policy contributions) =
      effectiveScore order' policy (cappedFlat env pf isWhitespace policy contributions') :=
    funext fun f => effectiveScore_of_perm hflat (weight_eq_of_origin_eq hnodup) f
  rw [mergeAndRank_eq, mergeAndRank_eq, ← hscore]
  generalize effectiveScore order policy (cappedFlat env pf isWhitespace policy contributions) = score
  -- the hits are sorted as they are, with their places
  have hsort : ∀ l : List Flat, (l.map (Flat.keyed score)).insertionSort RanksFirst =
      (l.insertionSort fun f g => RanksFirst (f.keyed score) (g.keyed score)).map
        (Flat.keyed score) := by
    intro l
    refine (List.map_insertionSort (fun f g : Flat => RanksFirst (f.keyed score) (g.keyed score))
      RanksFirst (Flat.keyed score) l fun f _ g _ => Iff.rfl).symm
  have htotal : Std.Total fun f g : Flat => RanksFirst (f.keyed score) (g.keyed score) :=
    ⟨fun f g => total_of RanksFirst _ _⟩
  have htrans : IsTrans Flat fun f g => RanksFirst (f.keyed score) (g.keyed score) :=
    ⟨fun f g e => trans_of RanksFirst⟩
  -- hits that tie are of one child, and come in the order of their places
  have htied : ∀ {l : List ChildHits}, (l.map ChildHits.origin).Nodup →
      (cappedFlat env pf isWhitespace policy l).Pairwise fun f g =>
        RanksFirst (f.keyed score) (g.keyed score) → RanksFirst (g.keyed score) (f.keyed score) →
          f.rank ≤ g.rank :=
    fun hl => (pairwise_cappedFlat hl).imp fun hle hfg hgf => hle (hfg.origin_eq hgf)
  rw [hsort, hsort, insertionSort_eq_of_tied hflat (htied hnodup) (htied hnodup')]
  intro f hf g hg hfg hgf hle hge
  exact flat_ext hnodup hf hg (hfg.origin_eq hgf) (le_antisymm hle hge)

/-! ## What a coordinator merges -/

section Asked

variable {query : String} {context : RecognitionContext} {config : CascadePipelineConfig}
  {visibility : Visibility}

variable (env policy query context config visibility) in
/-- A child that is asked contributes once, or fails. -/
theorem contributions_askChild (acc : FanOutState) (child : Child) :
    (askChild env query context config visibility policy acc child).contributions =
        acc.contributions ∨
      ∃ c : ChildHits, c.origin = child.brainId ∧
        (askChild env query context config visibility policy acc child).contributions =
          acc.contributions ++ [c] := by
  unfold askChild
  split
  · exact Or.inl rfl
  · exact Or.inr ⟨_, rfl, rfl⟩

variable (env policy query context config visibility) in
/-- The children that answered, in their order. -/
theorem origins_asked (children : List Child) (acc : FanOutState) :
    ∃ answered, answered.Sublist (children.map Child.brainId) ∧
      (children.foldl (askChild env query context config visibility policy)
        acc).contributions.map ChildHits.origin =
          acc.contributions.map ChildHits.origin ++ answered := by
  induction children generalizing acc with
  | nil => exact ⟨[], List.Sublist.refl _, by simp⟩
  | cons child children ih =>
    obtain ⟨answered, hsub, horigins⟩ :=
      ih (askChild env query context config visibility policy acc child)
    rw [List.foldl_cons, horigins]
    rcases contributions_askChild env policy query context config visibility acc
      child with h | ⟨c, hc, h⟩
    · exact ⟨answered, hsub.cons _, by rw [h]⟩
    · exact ⟨child.brainId :: answered, hsub.cons_cons _, by simp [h, hc]⟩

/-- A coordinator merges contributions of different children. -/
theorem nodup_origins_asked (c : FederationCoordinator) :
    ((c.children.foldl (askChild env query context config visibility policy)
      {}).contributions.map ChildHits.origin).Nodup := by
  obtain ⟨answered, hsub, horigins⟩ :=
    origins_asked env policy query context config visibility c.children {}
  rw [horigins]
  exact hsub.nodup c.nodup

end Asked

/-- **Merging** loses no hit and adds none, orders what it ranks, and ranks what children contribute
alike in any order of the children and of the maps. -/
theorem mergeAndRank_orderless (env : Env) (pf : Platform) (isWhitespace : Char → Bool)
    (contributions : List ChildHits) (policy : MergePolicy) :
    (∀ order, ((mergeAndRank env pf isWhitespace order contributions policy).1.map fun l =>
          (l.origin, l.hit)).Perm
        (contributions.flatMap fun c => (c.cap policy).hits.map fun hit => (c.origin, hit)) ∧
      (mergeAndRank env pf isWhitespace order contributions policy).1.Pairwise fun a b =>
        RanksFirst (contentFingerprint env pf isWhitespace a.hit.content, a)
          (contentFingerprint env pf isWhitespace b.hit.content, b)) ∧
    ((contributions.map ChildHits.origin).Nodup →
      ∀ contributions', contributions.Perm contributions' → ∀ order order',
        (mergeAndRank env pf isWhitespace order contributions policy).1 =
          (mergeAndRank env pf isWhitespace order' contributions' policy).1) :=
  ⟨fun _ => ⟨perm_mergeAndRank, pairwise_mergeAndRank⟩,
    fun hnodup _ h _ _ => mergeAndRank_perm hnodup h⟩

end

/-! ## Two children with one note -/

/-- A hit, by its id and its content. -/
def plainHit (id content : String) : MemoryHit :=
  { id, key := id, content, wing := none, hall := none, signalScore := 0, visibility := "team"
    hits := 1, source := none, deviceId := none, confidence := 1, createdAt := ""
    lastReinforcedAt := none, episodeId := none, declarativeDensity := none, description := none
    sourceBrainId := none, signature := none }

/-- Both have the note, and one has it twice. -/
def twoChildren : List ChildHits :=
  [⟨author, some 1, [plainHit "a" "note", plainHit "b" "monday", plainHit "a" "Note"]⟩,
    ⟨peerId, some 1, [plainHit "c" "note"]⟩]

/-- They are ranked alike in either order. -/
theorem mergeAndRank_two_children :
    (mergeAndRank authorEnv .plain (fun c => c.isWhitespace) .inOrder twoChildren {}).1 =
      (mergeAndRank authorEnv .plain (fun c => c.isWhitespace) .backwards twoChildren.reverse {}).1 :=
  (mergeAndRank_orderless authorEnv .plain (fun c => c.isWhitespace) twoChildren {}).2
    (by decide +kernel) _ (List.reverse_perm _).symm _ _

end Spectral
