import Spectral.Recall.Search
import Mathlib.Algebra.Order.Ring.WithTop

/-!
# Anticipated memories

A recall can be followed by memories the query did not match: those that were often retrieved
together with its first hits.

* `Store.recommendByLift` — the memories associated with one, by lift.
* `Store.anticipated` — what `append_anticipated` appends to the results of a recall.
* `mem_anticipated_iff` — in terms of the recommendations: the first three distinct ones that
  are admissible.
-/

namespace Spectral

open Spectral.Lib

/-- `RelatedMemory`. -/
structure RelatedMemory where
  memoryId : String
  coCount : ℕ
  lift : ℚ
  deriving DecidableEq

namespace Store

section

variable (s : Store)

/-- `occ`: how often a memory was retrieved together with others. -/
def occurrences (id : String) : ℕ :=
  ((s.coRetrievalPairs.rows.filter fun p => p.memoryIdA = id).map CoRetrievalPair.coCount).sum +
    ((s.coRetrievalPairs.rows.filter fun p => p.memoryIdB = id).map CoRetrievalPair.coCount).sum

/-- `tot`. -/
def totalCoCount : ℕ := (s.coRetrievalPairs.rows.map CoRetrievalPair.coCount).sum

/-- `neighbors`: the memories a memory is paired with, and how often. -/
def neighbors (id : String) : List (String × ℕ) :=
  ((s.coRetrievalPairs.rows.filter fun p => p.memoryIdA = id).map fun p =>
      (p.memoryIdB, p.coCount)) ++
    (s.coRetrievalPairs.rows.filter fun p => p.memoryIdB = id).map fun p =>
      (p.memoryIdA, p.coCount)

/-- The lift of a neighbor; `NULL`, which sorts last, when it would divide by zero. -/
def lift (seed : String) (n : String × ℕ) : WithBot ℚ :=
  if s.occurrences seed = 0 ∨ s.occurrences n.1 = 0 then ⊥
  else ((n.2 * s.totalCoCount / (s.occurrences seed * s.occurrences n.1) : ℚ) : WithBot ℚ)

/-- `ORDER BY lift DESC, co_count DESC, rid`. -/
def LiftFirst (seed : String) (a b : String × ℕ) : Prop :=
  s.lift seed b < s.lift seed a ∨
    s.lift seed a = s.lift seed b ∧ (b.2 < a.2 ∨ a.2 = b.2 ∧ a.1 ≤ b.1)

instance (seed : String) : DecidableRel (s.LiftFirst seed) := fun _ _ =>
  inferInstanceAs (Decidable (_ ∨ _ ∧ (_ ∨ _ ∧ _)))

/-- `recommend_by_lift`. -/
def recommendByLift (memoryId : String) (limit minCoCount : ℕ) : List RelatedMemory :=
  ((((s.neighbors memoryId).filter fun n => decide (minCoCount ≤ n.2)).insertionSort
    (s.LiftFirst memoryId)).take limit).map fun n =>
      ⟨n.1, n.2, (s.lift memoryId n).unbotD 0⟩

end

/-- `MAX_ANTICIPATED`. -/
def maxAnticipated : ℕ := 3

/-- `MIN_LIFT`. -/
def minLift : ℚ := 1

/-- `SEED_HITS`. -/
def seedHits : ℕ := 3

section

variable (s : Store) (visibility : Visibility)

/-- One recommendation.  The state is the ids that are present and the hits added so far. -/
def anticipateOne (acc : List String × List MemoryHit) (r : RelatedMemory) :
    List String × List MemoryHit :=
  if maxAnticipated ≤ acc.2.length then acc
  else if r.lift < minLift ∨ r.memoryId ∈ acc.1 then acc
  else match s.getMemory r.memoryId with
    | none => acc
    | some m =>
      if (strToVis m.visibility).allows visibility then
        (r.memoryId :: acc.1, acc.2 ++ [memoryHitFromRow 0 m])
      else acc

/-- The recommendations of one seed. -/
def anticipateSeed (acc : List String × List MemoryHit) (seed : String) :
    List String × List MemoryHit :=
  if maxAnticipated ≤ acc.2.length then acc
  else (s.recommendByLift seed maxAnticipated 2).foldl (s.anticipateOne visibility) acc

/-- `append_anticipated`: the hits it appends to the results of a recall. -/
def anticipated (results : List MemoryHit) : List MemoryHit :=
  (((results.take seedHits).map MemoryHit.id).foldl (s.anticipateSeed visibility)
    (results.map MemoryHit.id, [])).2

/-- What is recommended to go with some results, in order: above-baseline associations of the
first of them. -/
def recommended (results : List MemoryHit) : List String :=
  (((results.take seedHits).flatMap fun h => s.recommendByLift h.id maxAnticipated 2).filter
    fun r => decide (minLift ≤ r.lift)).map RelatedMemory.memoryId

/-- A recommendation is admissible when it is a visible memory that is not among the results. -/
def admissible (results : List MemoryHit) (id : String) : Bool :=
  decide (id ∉ results.map MemoryHit.id) &&
    (s.getMemory id).any fun m => (strToVis m.visibility).allows visibility

end

/-! ## What is appended -/

variable {s : Store} {visibility : Visibility} {results : List MemoryHit}

/-- Where the loop stands when it has collected some ids. -/
structure Anticipates (s : Store) (visibility : Visibility) (results : List MemoryHit)
    (ids : List String) (acc : List String × List MemoryHit) : Prop where
  present : ∀ id, id ∈ acc.1 ↔ id ∈ ids ∨ id ∈ results.map MemoryHit.id
  added : acc.2 = ids.filterMap fun id => (s.getMemory id).map (memoryHitFromRow 0)
  length : acc.2.length = ids.length

/-- One recommendation is collected, or dropped for its lift. -/
theorem anticipates_anticipateOne {ids : List String} {acc : List String × List MemoryHit}
    (h : s.Anticipates visibility results ids acc) (r : RelatedMemory) :
    s.Anticipates visibility results
      (if minLift ≤ r.lift then
        collect (s.admissible visibility results) maxAnticipated ids r.memoryId else ids)
      (s.anticipateOne visibility acc r) := by
  unfold anticipateOne collect
  rw [h.length]
  by_cases hfull : maxAnticipated ≤ ids.length
  · simpa [hfull] using h
  · by_cases hlift : r.lift < minLift
    · simpa [hfull, hlift, not_le.2 hlift] using h
    · by_cases hin : r.memoryId ∈ acc.1
      · -- present already, as a result or as collected before
        have hskip : s.admissible visibility results r.memoryId = false ∨ r.memoryId ∈ ids := by
          rcases (h.present _).1 hin with hids | hres
          · exact Or.inr hids
          · exact Or.inl (by simp [admissible, hres])
        simpa [hfull, hlift, hin, not_lt.1 hlift, hskip] using h
      · obtain ⟨hids, hres⟩ := not_or.1 (mt (h.present _).2 hin)
        simp only [hfull, hlift, hin, if_false, or_self, not_lt.1 hlift, if_true, hids, false_or,
          or_false]
        cases hget : s.getMemory r.memoryId with
        | none => simpa [admissible, hget] using h
        | some m =>
          by_cases hvis : (strToVis m.visibility).allows visibility = true
          · have hok : s.admissible visibility results r.memoryId = true := by
              simp [admissible, hres, hget, hvis]
            simp only [hvis, hok, if_true, Bool.true_eq_false, if_false]
            refine ⟨fun id => ?_, ?_, ?_⟩
            · rw [List.mem_cons, h.present, List.mem_append, List.mem_singleton]
              tauto
            · rw [List.filterMap_append, h.added]
              simp [hget]
            · simp [h.length]
          · simpa [admissible, hget, hvis] using h

theorem anticipates_foldl {ids : List String} {acc : List String × List MemoryHit}
    (h : s.Anticipates visibility results ids acc) (recs : List RelatedMemory) :
    s.Anticipates visibility results
      (((recs.filter fun r => decide (minLift ≤ r.lift)).map RelatedMemory.memoryId).foldl
        (collect (s.admissible visibility results) maxAnticipated) ids)
      (recs.foldl (s.anticipateOne visibility) acc) := by
  induction recs generalizing ids acc with
  | nil => exact h
  | cons r recs ih =>
    have hone := anticipates_anticipateOne h r
    by_cases hlift : minLift ≤ r.lift
    · rw [if_pos hlift] at hone
      rw [List.filter_cons_of_pos (by simpa using hlift)]
      exact ih hone
    · rw [if_neg hlift] at hone
      rw [List.filter_cons_of_neg (by simpa using hlift)]
      exact ih hone

/-- The check before each seed only saves work. -/
theorem anticipateSeed_eq_foldl (acc : List String × List MemoryHit) (seed : String) :
    s.anticipateSeed visibility acc seed =
      (s.recommendByLift seed maxAnticipated 2).foldl (s.anticipateOne visibility) acc := by
  unfold anticipateSeed
  split
  · rename_i hfull
    have hsame : ∀ recs : List RelatedMemory,
        recs.foldl (s.anticipateOne visibility) acc = acc := by
      intro recs
      induction recs with
      | nil => rfl
      | cons r recs ih => rwa [List.foldl_cons, anticipateOne, if_pos hfull]
    exact (hsame _).symm
  · rfl

/-- **What is appended**: the memories of the first three distinct admissible
recommendations. -/
theorem mem_anticipated_iff {hit : MemoryHit} :
    hit ∈ s.anticipated visibility results ↔
      ∃ r ∈ s.memories, hit = memoryHitFromRow 0 r ∧
        s.admissible visibility results r.id = true ∧
        ∃ past, past ++ [r.id] <+: s.recommended results ∧
          (distinct (s.admissible visibility results) past).length < maxAnticipated := by
  have hstart : s.Anticipates visibility results [] (results.map MemoryHit.id, []) :=
    ⟨fun id => by simp, rfl, rfl⟩
  have hfold : (((results.take seedHits).map MemoryHit.id).foldl (s.anticipateSeed visibility)
      (results.map MemoryHit.id, [])) =
        ((results.take seedHits).flatMap fun h => s.recommendByLift h.id maxAnticipated 2).foldl
          (s.anticipateOne visibility) (results.map MemoryHit.id, []) := by
    rw [List.foldl_flatMap, List.foldl_map]
    congr 1
    funext acc hit
    exact anticipateSeed_eq_foldl acc hit.id
  unfold anticipated
  rw [hfold, (anticipates_foldl hstart _).added, List.mem_filterMap]
  constructor
  · rintro ⟨id, hid, hrow⟩
    obtain ⟨r, hget, rfl⟩ := Option.map_eq_some_iff.1 hrow
    obtain ⟨hr, rfl⟩ := getMemory_eq_some.1 hget
    exact ⟨r, hr, rfl, (mem_foldl_collect_iff _ _).1 hid⟩
  · rintro ⟨r, hr, rfl, hcollected⟩
    refine ⟨r.id, (mem_foldl_collect_iff _ _).2 hcollected, ?_⟩
    rw [getMemory_eq_some.2 ⟨hr, rfl⟩]
    rfl

end Store

end Spectral
