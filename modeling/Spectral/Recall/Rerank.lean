import Spectral.Wing.Search

/-!
# Re-ranking

What `apply_reranking_pipeline_with_query` does with its candidates once they are scored: it sorts
them, drops references to a context that was referred to already, and moves the overflow of an
episode to the end.

* `dedupContextChains` — the references, `mem_dropSeen_or` — what is dropped.
* `applyEpisodeDiversity` — the episodes: nothing is dropped.
* `Reranking.places` — the places of the candidates that are kept, in their order.
* `Reranking.kept_or_duplicate` — every candidate is kept, or refers to a context that one that is
  kept refers to.

The scores are arithmetic on floats: a parameter.
-/

namespace Spectral

/-- A candidate, and its place among the candidates. -/
abbrev Placed := MemoryHit × ℕ

/-! ## Context chains -/

/-- `ref_key`: what a "[Memory context]" line refers to, empty for any other content. -/
def contextRef (content : String) : String :=
  let marker := "[Memory context] - ".toList
  if marker <+: content.toList then
    String.ofList ((content.toList.drop marker.length).takeWhile fun c => c ≠ ':')
  else ""

/-- The loop of `dedup_context_chains`.  The state is the references that were met. -/
def dropSeen : List String → List Placed → List Placed
  | _, [] => []
  | seen, p :: ps =>
    let ref := contextRef p.1.content
    if ref = "" then p :: dropSeen seen ps
    else if ref ∈ seen then dropSeen seen ps
    else p :: dropSeen (ref :: seen) ps

/-- `dedup_context_chains`: the best of each reference. -/
def dedupContextChains (candidates : List Placed) : List Placed :=
  dropSeen [] (candidates.insertionSort fun p q => p.1.StrongerFirst q.1)

theorem dropSeen_sublist (seen : List String) (ps : List Placed) : (dropSeen seen ps).Sublist ps := by
  induction ps generalizing seen with
  | nil => exact List.Sublist.refl _
  | cons p ps ih =>
    unfold dropSeen
    dsimp only
    split
    · exact (ih seen).cons_cons p
    · split
      · exact (ih seen).cons p
      · exact (ih _).cons_cons p

/-- **What is dropped** refers to a context that was met, or that one before it that is kept refers
to. -/
theorem mem_dropSeen_or_before {r : Placed → Placed → Prop} {seen : List String} {ps : List Placed}
    {p : Placed} (hpairwise : ps.Pairwise r) (h : p ∈ ps) :
    p ∈ dropSeen seen ps ∨ contextRef p.1.content ≠ "" ∧
      (contextRef p.1.content ∈ seen ∨
        ∃ q ∈ dropSeen seen ps, contextRef q.1.content = contextRef p.1.content ∧ r q p) := by
  induction ps generalizing seen with
  | nil => exact absurd h List.not_mem_nil
  | cons first ps ih =>
    obtain ⟨hfirst, hpairwise⟩ := List.pairwise_cons.1 hpairwise
    unfold dropSeen
    dsimp only
    split
    · -- no reference: kept
      rcases List.mem_cons.1 h with rfl | h
      · exact Or.inl List.mem_cons_self
      · rcases ih hpairwise h with hin | ⟨hp, hmet⟩
        · exact Or.inl (List.mem_cons_of_mem first hin)
        · refine Or.inr ⟨hp, hmet.imp_right fun ⟨q, hq, href⟩ => ?_⟩
          exact ⟨q, List.mem_cons_of_mem first hq, href⟩
    · rename_i hne
      split
      · rename_i hseen
        rcases List.mem_cons.1 h with rfl | h
        · exact Or.inr ⟨hne, Or.inl hseen⟩
        · exact ih hpairwise h
      · rcases List.mem_cons.1 h with rfl | h
        · exact Or.inl List.mem_cons_self
        · rcases ih hpairwise h with hin | ⟨hp, hmet⟩
          · exact Or.inl (List.mem_cons_of_mem first hin)
          · refine Or.inr ⟨hp, ?_⟩
            rcases hmet with hmet | ⟨q, hq, href⟩
            · rcases List.mem_cons.1 hmet with hsame | hmet
              · exact Or.inr ⟨first, List.mem_cons_self, hsame.symm, hfirst p h⟩
              · exact Or.inl hmet
            · exact Or.inr ⟨q, List.mem_cons_of_mem first hq, href⟩

theorem mem_dropSeen_or {seen : List String} {ps : List Placed} {p : Placed} (h : p ∈ ps) :
    p ∈ dropSeen seen ps ∨ contextRef p.1.content ≠ "" ∧
      (contextRef p.1.content ∈ seen ∨
        ∃ q ∈ dropSeen seen ps, contextRef q.1.content = contextRef p.1.content) := by
  have hany : ps.Pairwise fun _ _ => True := List.pairwise_of_forall fun _ _ => trivial
  refine (mem_dropSeen_or_before hany h).imp_right (And.imp_right (Or.imp_right ?_))
  exact fun ⟨q, hq, href, _⟩ => ⟨q, hq, href⟩

/-- What is kept refers to no context that was met. -/
theorem contextRef_not_mem_of_mem_dropSeen {seen : List String} {ps : List Placed} {p : Placed}
    (h : p ∈ dropSeen seen ps) (hne : contextRef p.1.content ≠ "") :
    contextRef p.1.content ∉ seen := by
  induction ps generalizing seen with
  | nil => exact absurd h List.not_mem_nil
  | cons first ps ih =>
    unfold dropSeen at h
    dsimp only at h
    split at h
    · rename_i hnone
      rcases List.mem_cons.1 h with rfl | h
      · exact absurd hnone hne
      · exact ih h
    · split at h
      · exact ih h
      · rename_i hnew
        rcases List.mem_cons.1 h with rfl | h
        · exact hnew
        · exact fun hin => ih h (List.mem_cons_of_mem _ hin)

/-- **Each reference is kept once**. -/
theorem pairwise_dropSeen (seen : List String) (ps : List Placed) :
    (dropSeen seen ps).Pairwise fun p q =>
      contextRef p.1.content ≠ "" → contextRef p.1.content ≠ contextRef q.1.content := by
  induction ps generalizing seen with
  | nil => exact List.Pairwise.nil
  | cons first ps ih =>
    unfold dropSeen
    dsimp only
    split
    · rename_i hnone
      exact (ih seen).cons fun q _ hne => absurd hnone hne
    · split
      · exact ih seen
      · refine (ih _).cons fun q hq hne hsame => ?_
        exact contextRef_not_mem_of_mem_dropSeen hq (hsame ▸ hne) (hsame ▸ List.mem_cons_self)

theorem mem_of_mem_dedupContextChains {ps : List Placed} {p : Placed}
    (h : p ∈ dedupContextChains ps) : p ∈ ps :=
  (List.mem_insertionSort _).1 ((dropSeen_sublist _ _).subset h)

/-! ## Episodes -/

/-- `ep_key`: the episode, or the part of the key before the colon. -/
def episodeKey (hit : MemoryHit) : String :=
  hit.episodeId.getD (String.ofList (hit.key.toList.takeWhile fun c => c ≠ ':'))

/-- The loop of `apply_episode_diversity`: the candidates within the cap of their episode, and the
overflow.  The state is the episodes of the candidates that were within. -/
def splitEpisodes (cap : ℕ) : List String → List Placed → List Placed × List Placed
  | _, [] => ([], [])
  | met, p :: ps =>
    if met.count (episodeKey p.1) < cap then
      let (within, overflow) := splitEpisodes cap (episodeKey p.1 :: met) ps
      (p :: within, overflow)
    else
      let (within, overflow) := splitEpisodes cap met ps
      (within, p :: overflow)

/-- `apply_episode_diversity`. -/
def applyEpisodeDiversity (maxPerEpisode : ℕ) (ps : List Placed) : List Placed :=
  if maxPerEpisode = 0 then ps
  else
    let (within, overflow) := splitEpisodes maxPerEpisode [] ps
    within ++ overflow

theorem splitEpisodes_perm (cap : ℕ) (met : List String) (ps : List Placed) :
    ((splitEpisodes cap met ps).1 ++ (splitEpisodes cap met ps).2).Perm ps := by
  induction ps generalizing met with
  | nil => exact List.Perm.nil
  | cons p ps ih =>
    unfold splitEpisodes
    split
    · exact (ih _).cons p
    · exact List.perm_middle.trans ((ih met).cons p)

/-- The hits of an episode. -/
def ofEpisode (e : String) (p : Placed) : Bool := decide (episodeKey p.1 = e)

/-- Within the cap each episode stays within the cap. -/
theorem countP_within_le (cap : ℕ) (met : List String) (ps : List Placed) {e : String}
    (h : met.count e ≤ cap) : met.count e + (splitEpisodes cap met ps).1.countP (ofEpisode e) ≤ cap := by
  induction ps generalizing met with
  | nil => simpa [splitEpisodes] using h
  | cons p ps ih =>
    unfold splitEpisodes
    split
    · rename_i hroom
      rcases eq_or_ne (episodeKey p.1) e with rfl | he
      · have hcount := List.count_cons_self (a := episodeKey p.1) (l := met)
        have := ih (episodeKey p.1 :: met) (by rw [hcount]; exact hroom)
        rw [hcount] at this
        simp only [List.countP_cons, ofEpisode, decide_true, if_true] at this ⊢
        omega
      · have hcount : (episodeKey p.1 :: met).count e = met.count e := List.count_cons_of_ne he
        have := ih (episodeKey p.1 :: met) (by rwa [hcount])
        rw [hcount] at this
        simp only [List.countP_cons, ofEpisode, he, decide_false, Bool.false_eq_true, if_false] at this ⊢
        exact this
    · exact ih met h

/-- The episodes of the overflow have reached the cap. -/
theorem cap_le_countP_within {cap : ℕ} {met : List String} {ps : List Placed} {q : Placed}
    (h : q ∈ (splitEpisodes cap met ps).2) :
    cap ≤ met.count (episodeKey q.1) +
      (splitEpisodes cap met ps).1.countP (ofEpisode (episodeKey q.1)) := by
  induction ps generalizing met with
  | nil => exact absurd h List.not_mem_nil
  | cons p ps ih =>
    unfold splitEpisodes at h ⊢
    split
    · rename_i hroom
      simp only [hroom, if_true] at h
      have := ih h
      simp only [List.countP_cons, List.count_cons, ofEpisode, beq_iff_eq, decide_eq_true_iff] at this ⊢
      omega
    · rename_i hfull
      simp only [hfull, if_false] at h
      rcases List.mem_cons.1 h with rfl | h
      · exact (not_lt.1 hfull).trans (Nat.le_add_right _ _)
      · exact ih h

/-- Diversity reorders, and drops nothing. -/
theorem applyEpisodeDiversity_perm (maxPerEpisode : ℕ) (ps : List Placed) :
    (applyEpisodeDiversity maxPerEpisode ps).Perm ps := by
  unfold applyEpisodeDiversity
  split
  · exact List.Perm.refl ps
  · exact splitEpisodes_perm maxPerEpisode [] ps

/-! ## The pipeline -/

/-- A re-ranking: the score of each candidate, by its place, and what follows the sort. -/
structure Reranking where
  score : List MemoryHit → ℕ → ℚ
  applyContextDedup : Bool := true
  /-- `max_per_episode`, when the diversity of episodes is applied. -/
  maxPerEpisode : Option ℕ := none

namespace Reranking

variable (R : Reranking) (candidates : List MemoryHit)

/-- The candidates with their scores. -/
def scored : List Placed :=
  candidates.zipIdx.map fun p => ({ p.1 with signalScore := R.score candidates p.2 }, p.2)

/-- The candidates by their scores. -/
def sorted : List Placed :=
  (R.scored candidates).insertionSort fun p q => p.1.StrongerFirst q.1

/-- What is left of them without references that repeat. -/
def deduped : List Placed :=
  if R.applyContextDedup = true then dedupContextChains (R.sorted candidates)
  else R.sorted candidates

/-- The candidates that are kept, in their order. -/
def kept : List Placed :=
  match R.maxPerEpisode with
  | some cap => applyEpisodeDiversity cap (R.deduped candidates)
  | none => R.deduped candidates

/-- `apply_reranking_pipeline_with_query`: the hits. -/
def hits : List MemoryHit := (R.kept candidates).map Prod.fst

/-- The places of the hits among the candidates, and their scores. -/
def places : List (ℕ × ℚ) := (R.kept candidates).map fun p => (p.2, p.1.signalScore)

variable {R candidates} {p : Placed}

theorem mem_scored_iff : p ∈ R.scored candidates ↔
    ∃ c, candidates[p.2]? = some c ∧ p.1 = { c with signalScore := R.score candidates p.2 } := by
  unfold scored
  rw [List.mem_map]
  constructor
  · rintro ⟨⟨c, i⟩, hc, rfl⟩
    exact ⟨c, List.mem_zipIdx_iff_getElem?.1 hc, rfl⟩
  · rintro ⟨c, hc, hp⟩
    exact ⟨(c, p.2), List.mem_zipIdx_iff_getElem?.2 hc, Prod.ext hp.symm rfl⟩

theorem kept_perm : (R.kept candidates).Perm (R.deduped candidates) := by
  unfold kept
  split
  · exact applyEpisodeDiversity_perm _ _
  · exact List.Perm.refl _

theorem mem_scored_of_mem_kept (h : p ∈ R.kept candidates) : p ∈ R.scored candidates := by
  have hdeduped := kept_perm.mem_iff.1 h
  unfold deduped at hdeduped
  split at hdeduped
  · exact (List.mem_insertionSort _).1 (mem_of_mem_dedupContextChains hdeduped)
  · exact (List.mem_insertionSort _).1 hdeduped

theorem mem_deduped_or (h : p ∈ R.scored candidates) : p ∈ R.deduped candidates ∨
    contextRef p.1.content ≠ "" ∧
      ∃ q ∈ R.deduped candidates, contextRef q.1.content = contextRef p.1.content := by
  have hsorted : p ∈ R.sorted candidates := (List.mem_insertionSort _).2 h
  unfold deduped
  split
  · refine (mem_dropSeen_or ((List.mem_insertionSort _).2 hsorted)).imp_right ?_
    exact And.imp_right fun hmet => hmet.resolve_left List.not_mem_nil
  · exact Or.inl hsorted

/-- Reading the places off the candidates gives the hits. -/
theorem filterMap_places : ((R.places candidates).filterMap fun p =>
    candidates[p.1]?.map fun hit => { hit with signalScore := p.2 }) = R.hits candidates := by
  unfold places hits
  rw [List.filterMap_map, ← List.filterMap_eq_map]
  refine List.filterMap_congr fun p hp => ?_
  obtain ⟨c, hc, hscored⟩ := mem_scored_iff.1 (mem_scored_of_mem_kept hp)
  simp [hc, hscored]

variable (R candidates) in
/-- What is left without references that repeat is some of the candidates, by their scores. -/
theorem exists_sorted_deduped : ∃ l, l.Perm (R.scored candidates) ∧
    (l.Pairwise fun p q => p.1.StrongerFirst q.1) ∧ (R.deduped candidates).Sublist l := by
  have hsorted : (R.sorted candidates).Perm (R.scored candidates) := List.perm_insertionSort _ _
  unfold deduped
  split
  · refine ⟨_, (List.perm_insertionSort _ _).trans hsorted, ?_, dropSeen_sublist _ _⟩
    exact List.pairwise_insertionSort (fun p q : Placed => p.1.StrongerFirst q.1) _
  · refine ⟨_, hsorted, ?_, List.Sublist.refl _⟩
    exact List.pairwise_insertionSort (fun p q : Placed => p.1.StrongerFirst q.1) _

theorem map_id_scored : (R.scored candidates).map (fun p => p.1.id) = candidates.map MemoryHit.id := by
  unfold scored
  rw [List.map_map]
  have : ((fun p : Placed => p.1.id) ∘ fun p : Placed =>
      (({ p.1 with signalScore := R.score candidates p.2 }, p.2) : Placed)) =
        MemoryHit.id ∘ Prod.fst := rfl
  rw [this, ← List.map_map, List.zipIdx_map_fst]

/-- **No candidate comes twice**. -/
theorem nodup_id_kept (hids : (candidates.map MemoryHit.id).Nodup) :
    ((R.kept candidates).map fun p => p.1.id).Nodup := by
  obtain ⟨l, hperm, -, hsub⟩ := exists_sorted_deduped R candidates
  rw [← map_id_scored (R := R), ← (hperm.map _).nodup_iff] at hids
  exact (kept_perm.map _).nodup_iff.2 (hids.sublist (hsub.map _))

/-- **What is dropped** refers to a context that a better one refers to. -/
theorem mem_kept_or_better (h : p ∈ R.scored candidates) : p ∈ R.kept candidates ∨
    R.applyContextDedup = true ∧ contextRef p.1.content ≠ "" ∧ ∃ q ∈ R.kept candidates,
      contextRef q.1.content = contextRef p.1.content ∧ q.1.StrongerFirst p.1 := by
  have hsorted : p ∈ R.sorted candidates := (List.mem_insertionSort _).2 h
  simp only [kept_perm.mem_iff]
  unfold deduped
  split
  · rename_i hdedup
    have hpairwise := List.pairwise_insertionSort (fun p q : Placed => p.1.StrongerFirst q.1)
      (R.sorted candidates)
    rcases mem_dropSeen_or_before hpairwise ((List.mem_insertionSort _).2 hsorted) with hin | hmet
    · exact Or.inl hin
    · obtain ⟨hne, hmet⟩ := hmet
      exact Or.inr ⟨hdedup, hne, hmet.resolve_left List.not_mem_nil⟩
  · exact Or.inl hsorted

/-- **Each reference is kept once**. -/
theorem eq_of_contextRef_eq (hdedup : R.applyContextDedup = true) {q : Placed}
    (hp : p ∈ R.kept candidates) (hq : q ∈ R.kept candidates) (hne : contextRef p.1.content ≠ "")
    (hsame : contextRef p.1.content = contextRef q.1.content) : p = q := by
  rw [kept_perm.mem_iff, deduped, if_pos hdedup] at hp hq
  by_contra hdiff
  have : Std.Symm fun p q : Placed =>
      contextRef p.1.content ≠ "" → contextRef p.1.content ≠ contextRef q.1.content :=
    ⟨fun p q h hq hsame => h (hsame ▸ hq) hsame.symm⟩
  exact (pairwise_dropSeen [] _).forall hp hq hdiff hne hsame

variable (candidates) in
/-- **No episode is beyond its cap** before the overflow. -/
theorem exists_kept_eq_append {cap : ℕ} (hcap : R.maxPerEpisode = some cap) (hpos : 0 < cap) :
    ∃ front tail, R.kept candidates = front ++ tail ∧
      (∀ e, front.countP (ofEpisode e) ≤ cap) ∧
        ∀ q ∈ tail, cap ≤ front.countP (ofEpisode (episodeKey q.1)) := by
  unfold kept
  simp only [hcap]
  unfold applyEpisodeDiversity
  rw [if_neg hpos.ne']
  refine ⟨_, _, rfl, fun e => ?_, fun q hq => ?_⟩
  · have := countP_within_le cap [] (R.deduped candidates) (e := e) (Nat.zero_le cap)
    rwa [List.count_nil, Nat.zero_add] at this
  · have := cap_le_countP_within hq
    rwa [List.count_nil, Nat.zero_add] at this

@[simp] theorem hits_nil : R.hits [] = [] := by
  rw [← filterMap_places]
  simp

/-- **Every candidate is kept**, with a new score, or refers to a context that a hit refers to. -/
theorem kept_or_duplicate {c : MemoryHit} (h : c ∈ candidates) :
    (∃ score, { c with signalScore := score } ∈ R.hits candidates) ∨
      contextRef c.content ≠ "" ∧
        ∃ hit ∈ R.hits candidates, contextRef hit.content = contextRef c.content := by
  obtain ⟨i, hi⟩ := List.mem_iff_getElem?.1 h
  let p : Placed := ({ c with signalScore := R.score candidates i }, i)
  have hp := mem_deduped_or (mem_scored_iff.2 ⟨c, hi, rfl⟩ : p ∈ R.scored candidates)
  simp only [← kept_perm.mem_iff] at hp
  refine hp.imp (fun hkept => ⟨_, List.mem_map_of_mem (f := Prod.fst) hkept⟩) (And.imp_right ?_)
  rintro ⟨q, hq, href⟩
  exact ⟨q.1, List.mem_map_of_mem hq, href⟩

end Reranking

end Spectral
