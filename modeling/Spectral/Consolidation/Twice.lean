import Spectral.Consolidation.Chains
import Mathlib.Tactic.Linarith

/-!
# Consolidating twice

`consolidate_into` puts an edge in once, but it adds the scores of the sources that point to the
target up each time it is called.

* `Joins` — a source is counted: it points to the target, before the call or by it.
* `Loop` — the state of the loop over the sources, in terms of the store before.
* `ScoreSettled` — a second call adds nothing to the score of the target.
* `consolidateInto_idempotent_iff` — two calls leave what one call leaves, if and only if the call is
  refused or the score is settled.
-/

namespace Spectral

open Spectral.Lib

namespace Store

variable {s s' : Store} {target : String} {policy : InvalidSourcePolicy}

/-! ## What is counted -/

/-- The target a lookup finds is the least one. -/
theorem existingTarget_eq_some {source t : String} :
    s.existingTarget source = some t ↔
      s.MergedInto source t ∧ ∀ z, s.MergedInto source z → t ≤ z := by
  have hmem : ∀ z, z ∈ ((s.consolidationEdges.rows.filter fun e =>
      decide (e.sourceKey = source)).map ConsolidationEdge.targetKey).insertionSort (· ≤ ·) ↔
      s.MergedInto source z := by
    intro z
    rw [List.mem_insertionSort]
    simp only [List.mem_map, List.mem_filter, decide_eq_true_eq, and_assoc, MergedInto]
  have hsorted := List.pairwise_insertionSort (· ≤ ·) ((s.consolidationEdges.rows.filter fun e =>
    decide (e.sourceKey = source)).map ConsolidationEdge.targetKey)
  simp only [existingTarget, ← hmem]
  revert hsorted
  cases ((s.consolidationEdges.rows.filter fun e => decide (e.sourceKey = source)).map
      ConsolidationEdge.targetKey).insertionSort (· ≤ ·) with
  | nil => simp
  | cons a l =>
    intro hsorted
    have hle := (List.pairwise_cons.1 hsorted).1
    rw [List.head?_cons, Option.some_inj]
    constructor
    · rintro rfl
      refine ⟨List.mem_cons_self, fun z hz => ?_⟩
      rcases List.mem_cons.1 hz with rfl | hz
      · exact le_rfl
      · exact hle z hz
    · rintro ⟨ht, hleast⟩
      refine le_antisymm ?_ (hleast a List.mem_cons_self)
      rcases List.mem_cons.1 ht with rfl | ht
      · exact le_rfl
      · exact hle t ht

/-- A source is counted when those before it in the list are done with: no edge leads from it to a
key before the target, and it has no edge yet, or one to the target, or was merged into a source that
has just been merged. -/
def Joins (s : Store) (past : List String) (target source : String) : Prop :=
  source ≠ target ∧ s.HasKey source ∧
    (¬ ∃ e ∈ s.consolidationEdges.rows, e.sourceKey = source ∧ e.targetKey < target) ∧
    (¬ s.Hidden source ∨ s.MergedInto source target ∨
      ∃ y ∈ past, s.Taken past target y ∧ s.MergedInto source y)

instance (past : List String) (target source : String) : Decidable (s.Joins past target source) :=
  inferInstanceAs (Decidable (_ ∧ _ ∧ _ ∧ _))

/-- The sources a call counts. -/
def counted (s : Store) (target : String) : List String → List String → List String
  | _, [] => []
  | past, source :: sources =>
    (if s.Joins past target source then [source] else []) ++ counted s target (past ++ [source]) sources

theorem counted_concat (past sources : List String) (source : String) :
    s.counted target past (sources ++ [source]) =
      s.counted target past sources ++
        if s.Joins (past ++ sources) target source then [source] else [] := by
  induction sources generalizing past with
  | nil => simp [counted]
  | cons a sources ih => simp [counted, ih]

theorem not_exists_before_iff {source : String} :
    (¬ ∃ e ∈ s.consolidationEdges.rows, e.sourceKey = source ∧ e.targetKey < target) ↔
      ∀ z, s.MergedInto source z → target ≤ z := by
  constructor
  · rintro h z ⟨e, he, hsource, rfl⟩
    exact not_lt.1 fun hlt => h ⟨e, he, hsource, hlt⟩
  · rintro h ⟨e, he, hsource, hlt⟩
    exact absurd hlt (not_lt.2 (h _ ⟨e, he, hsource, rfl⟩))

/-! ## The loop -/

/-- The edges after some sources: each of them that had none leads to the target now, and with it all
that was merged into it. -/
structure Flattened (sources : List String) (target : String) (s s' : Store) : Prop where
  memories : s'.memories = s.memories
  edges : ∀ x y, s'.MergedInto x y ↔ s.MergedInto x y ∨ y = target ∧
    (s.Taken sources target x ∨ x ≠ target ∧ ∃ z ∈ sources, s.Taken sources target z ∧ s.MergedInto x z)

/-- Sources none of which is taken leave the edges. -/
theorem Flattened.skip {sources : List String} {source : String} (h : s.Flattened sources target s')
    (hsource : s.Taken (sources ++ [source]) target source → s.Taken sources target source) :
    s.Flattened (sources ++ [source]) target s' := by
  have htaken : ∀ x, s.Taken (sources ++ [source]) target x ↔ s.Taken sources target x := by
    intro x
    refine ⟨fun hx => ?_, Taken.concat⟩
    rcases List.mem_append.1 hx.1 with hpast | hlast
    · exact ⟨hpast, hx.2⟩
    · obtain rfl := List.mem_singleton.1 hlast
      exact hsource hx
  refine ⟨h.memories, fun x y => ?_⟩
  rw [h.edges, htaken]
  refine or_congr_right (and_congr_right fun _ => or_congr_right (and_congr_right fun _ => ?_))
  constructor
  · rintro ⟨z, hz, hzt, hxz⟩
    exact ⟨z, List.mem_append_left _ hz, hzt.concat, hxz⟩
  · rintro ⟨z, -, hzt, hxz⟩
    exact ⟨z, ((htaken z).1 hzt).1, (htaken z).1 hzt, hxz⟩

/-- A source that is taken gets its edge, and what was merged into it gets one. -/
theorem Flattened.take {sources : List String} {source : String} {t u : Store}
    (h : s.Flattened sources target t) (hne : source ≠ target) (hkey : t.HasKey source)
    (hnot : ¬ t.Hidden source) (hedge : t.insertEdge target source = .ok u)
    (hinbound : (u.inbound source target).foldlM (insertEdge target) u = .ok s') :
    s.Flattened (sources ++ [source]) target s' := by
  obtain ⟨humem, -, hu⟩ := insertEdge_eq_ok hedge
  obtain ⟨hsmem, hs'⟩ := foldlM_insertEdge_eq_ok hinbound
  have hsource : s.Taken (sources ++ [source]) target source := by
    refine ⟨by simp, hne, (hasKey_congr h.memories source).1 hkey, fun hhid => hnot ?_⟩
    obtain ⟨y, hy⟩ := hidden_iff.1 hhid
    exact hidden_iff.2 ⟨y, (h.edges source y).2 (Or.inl hy)⟩
  -- what is merged into the source now was before: the new edges lead to the target
  have hin : ∀ x, x ∈ u.inbound source target ↔ s.MergedInto x source ∧ x ≠ target := by
    intro x
    rw [mem_inbound, hu, h.edges]
    simp [hne]
  refine ⟨hsmem.trans (humem.trans h.memories), fun x y => ?_⟩
  rw [hs', hu, h.edges, hin]
  constructor
  · rintro (((hxy | ⟨rfl, hx | ⟨hxt, z, hz, hzt, hxz⟩⟩) | ⟨rfl, rfl⟩) | ⟨⟨hxs, hxt⟩, rfl⟩)
    · exact Or.inl hxy
    · exact Or.inr ⟨rfl, Or.inl hx.concat⟩
    · exact Or.inr ⟨rfl, Or.inr ⟨hxt, z, List.mem_append_left _ hz, hzt.concat, hxz⟩⟩
    · exact Or.inr ⟨rfl, Or.inl hsource⟩
    · exact Or.inr ⟨rfl, Or.inr ⟨hxt, source, by simp, hsource, hxs⟩⟩
  · rintro (hxy | ⟨rfl, hx | ⟨hxt, z, -, hzt, hxz⟩⟩)
    · exact Or.inl (Or.inl (Or.inl hxy))
    · rcases List.mem_append.1 hx.1 with hpast | hlast
      · exact Or.inl (Or.inl (Or.inr ⟨rfl, Or.inl ⟨hpast, hx.2⟩⟩))
      · exact Or.inl (Or.inr ⟨List.mem_singleton.1 hlast, rfl⟩)
    · rcases List.mem_append.1 hzt.1 with hpast | hlast
      · exact Or.inl (Or.inl (Or.inr ⟨rfl, Or.inr ⟨hxt, z, hpast, ⟨hpast, hzt.2⟩, hxz⟩⟩))
      · obtain rfl := List.mem_singleton.1 hlast
        exact Or.inr ⟨⟨hxz, hxt⟩, rfl⟩

/-- A source of the loop is counted when it has no edge, or the first one leads to the target. -/
theorem Flattened.joins_iff {sources : List String} {source : String}
    (h : s.Flattened sources target s') (hne : source ≠ target) (hkey : s'.HasKey source) :
    s.Joins sources target source ↔
      s'.existingTarget source = none ∨ s'.existingTarget source = some target := by
  rw [Joins, and_iff_right hne, and_iff_right ((hasKey_congr h.memories source).1 hkey),
    not_exists_before_iff, existingTarget_eq_none, existingTarget_eq_some]
  have hleast : (∀ z, s.MergedInto source z → target ≤ z) ↔
      ∀ z, s'.MergedInto source z → target ≤ z := by
    refine ⟨fun hs z hz => ?_, fun hs z hz => hs z ((h.edges source z).2 (Or.inl hz))⟩
    rcases (h.edges source z).1 hz with hz | ⟨rfl, -⟩
    · exact hs z hz
    · exact le_rfl
  constructor
  · rintro ⟨hbefore, hor⟩
    by_cases hhid : s'.Hidden source
    · refine Or.inr ⟨(h.edges source target).2 ?_, hleast.1 hbefore⟩
      rcases hor with hnot | hmerged | hflat
      · obtain ⟨z, hz⟩ := hidden_iff.1 hhid
        rcases (h.edges source z).1 hz with hz | ⟨-, hz⟩
        · exact absurd (hidden_iff.2 ⟨z, hz⟩) hnot
        · exact Or.inr ⟨rfl, hz⟩
      · exact Or.inl hmerged
      · exact Or.inr ⟨rfl, Or.inr ⟨hne, hflat⟩⟩
    · exact Or.inl hhid
  · rintro (hhid | ⟨hmerged, hbefore⟩)
    · have hnot : ¬ s.Hidden source := fun hs => by
        obtain ⟨z, hz⟩ := hidden_iff.1 hs
        exact hhid (hidden_iff.2 ⟨z, (h.edges source z).2 (Or.inl hz)⟩)
      exact ⟨fun z hz => absurd (hidden_iff.2 ⟨z, hz⟩) hnot, Or.inl hnot⟩
    · refine ⟨hleast.2 hbefore, ?_⟩
      rcases (h.edges source target).1 hmerged with hmerged | ⟨-, htaken | ⟨-, hflat⟩⟩
      · exact Or.inr (Or.inl hmerged)
      · exact Or.inl htaken.2.2.2
      · exact Or.inr (Or.inr hflat)

/-- What the loop leaves, and what it counts. -/
theorem flattened_foldlM {sources : List String}
    {acc : Store × List String × List (String × SkipReason)}
    (h : sources.foldlM (consolidateSource target policy) (s, [], []) = .ok acc) :
    s.Flattened sources target acc.1 ∧ acc.2.1 = s.counted target [] sources := by
  induction sources using List.reverseRecOn generalizing acc with
  | nil =>
    cases h
    exact ⟨⟨rfl, fun x y => by simp [Taken]⟩, rfl⟩
  | append_singleton sources source ih =>
    obtain ⟨⟨t, consolidated, skipped⟩, hpast, h⟩ := foldlM_concat_eq_ok.1 h
    obtain ⟨hflat, hcounted⟩ : s.Flattened sources target t ∧ consolidated = _ := ih hpast
    rw [counted_concat, ← hcounted, List.nil_append]
    -- if it has an edge, it is not taken now
    have hskip : t.Hidden source → s.Taken (sources ++ [source]) target source →
        s.Taken sources target source := by
      intro hhid htaken
      obtain ⟨y, hy⟩ := hidden_iff.1 hhid
      rcases (hflat.edges source y).1 hy with hold | ⟨-, hpast | ⟨-, z, -, -, hold⟩⟩
      · exact absurd (hidden_iff.2 ⟨y, hold⟩) htaken.2.2.2
      · exact hpast
      · exact absurd (hidden_iff.2 ⟨z, hold⟩) htaken.2.2.2
    obtain ⟨s', consolidated', skipped'⟩ := acc
    have houtcome : SourceOutcome t consolidated target source s' consolidated' :=
      sourceOutcome_of_eq_ok h
    cases houtcome with
    | self heq =>
      exact ⟨hflat.skip fun htaken => absurd heq htaken.2.1, by simp [Joins, heq]⟩
    | again hne hkey hexisting =>
      exact ⟨hflat.skip (hskip (hidden_of_existingTarget hexisting)),
        by rw [if_pos ((hflat.joins_iff hne hkey).2 (Or.inr hexisting))]⟩
    | elsewhere existing hne hkey hexisting hother =>
      refine ⟨hflat.skip (hskip (hidden_of_existingTarget hexisting)), ?_⟩
      rw [if_neg, List.append_nil]
      rw [hflat.joins_iff hne hkey, hexisting]
      simpa using hother
    | merged hne hkey hexisting hedge hinbound =>
      exact ⟨hflat.take hne hkey (existingTarget_eq_none.1 hexisting) hedge hinbound,
        by rw [if_pos ((hflat.joins_iff hne hkey).2 (Or.inl hexisting))]⟩
    | missing hne hkey =>
      have hmissing : ¬ s.HasKey source := fun hs => hkey ((hasKey_congr hflat.memories source).2 hs)
      exact ⟨hflat.skip fun htaken => absurd htaken.2.2.1 hmissing, by simp [Joins, hmissing]⟩

/-- The loop leaves a store none of whose sources is taken. -/
theorem foldlM_consolidateSource_of_not_taken {sources : List String}
    {acc : Store × List String × List (String × SkipReason)}
    (hnot : ∀ x, ¬ s.Taken sources target x)
    (h : sources.foldlM (consolidateSource target policy) (s, [], []) = .ok acc) : acc.1 = s := by
  induction sources using List.reverseRecOn generalizing acc with
  | nil => cases h; rfl
  | append_singleton sources source ih =>
    obtain ⟨⟨t, consolidated, skipped⟩, hpast, hstep⟩ := foldlM_concat_eq_ok.1 h
    have ht : t = s := ih (fun x hx => hnot x hx.concat) hpast
    unfold consolidateSource at hstep
    dsimp only at hstep
    split at hstep
    · cases hstep
      exact ht
    case isFalse hne =>
      split at hstep
      case isTrue hkey =>
        split at hstep
        · split at hstep <;> cases hstep <;> exact ht
        case h_2 hexisting =>
          rw [ht] at hkey hexisting
          exact absurd ⟨by simp, hne, hkey, existingTarget_eq_none.1 hexisting⟩ (hnot source)
      case isFalse =>
        split at hstep <;> cases hstep
        exact ht

/-! ## Scores -/

theorem scoreOf_eq {r : MemoryRow} (hr : r ∈ s.memories) : s.scoreOf r.key = r.signalScore := by
  rw [scoreOf, memoryByKey_eq_some.2 ⟨hr, rfl⟩]
  rfl

/-- The score of the target is set. -/
def setScore (target : String) (score : ℚ) (s : Store) : Store :=
  s.updateMemories (fun r => r.key = target) (fun r => { r with signalScore := score })
    fun _ => ⟨rfl, rfl⟩

theorem setScore_eq_self_iff (h : s.HasKey target) {score : ℚ} :
    s.setScore target score = s ↔ score = s.scoreOf target := by
  obtain ⟨row, hrow, rfl⟩ := h
  rw [scoreOf_eq hrow]
  constructor
  · intro h
    have hmem : { row with signalScore := score } ∈ (s.setScore row.key score).memories :=
      mem_memories_updateMemories.2 ⟨row, hrow, by simp⟩
    rw [h] at hmem
    exact congrArg MemoryRow.signalScore (eq_of_key hmem hrow rfl)
  · rintro rfl
    refine updateMemories_eq_self fun r hr hkey => ?_
    rw [eq_of_key hr hrow (of_decide_eq_true hkey)]

theorem scoreOf_setScore (h : s.HasKey target) (score : ℚ) :
    (s.setScore target score).scoreOf target = score := by
  obtain ⟨r, hr, rfl⟩ := h
  have hmem : { r with signalScore := score } ∈ (s.setScore r.key score).memories :=
    mem_memories_updateMemories.2 ⟨r, hr, by simp⟩
  exact scoreOf_eq hmem

/-- The scores of other memories stay. -/
theorem sumScores_setScore {keys : List String} (h : target ∉ keys) (score : ℚ) :
    (s.setScore target score).sumScores keys = s.sumScores keys := by
  have hrow : ∀ r : MemoryRow, (if decide (r.key = target) = true then { r with signalScore := score }
      else r).key = r.key := by
    intro r
    split <;> rfl
  simp only [sumScores, setScore, updateMemories, Table.update, List.filter_map, List.map_map]
  have hfilter : (s.memories.rows.filter ((fun r : MemoryRow => decide (r.key ∈ keys)) ∘ fun r =>
      if decide (r.key = target) = true then { r with signalScore := score } else r)) =
      s.memories.rows.filter fun r => decide (r.key ∈ keys) :=
    List.filter_congr fun r _ => by rw [Function.comp_apply, hrow]
  rw [hfilter]
  refine congrArg List.sum (List.map_congr_left fun r hr => ?_)
  have hkey : r.key ≠ target := fun hkey => h (hkey ▸ by simpa using (List.mem_filter.1 hr).2)
  simp [hkey]

/-- Sums over the same keys are the same. -/
theorem sumScores_congr {keys keys' : List String} (h : ∀ k, k ∈ keys ↔ k ∈ keys') :
    s.sumScores keys = s.sumScores keys' := by
  simp only [sumScores, h]

/-! ## A call, and another one -/

/-- What a call leaves: one that fails is rolled back. -/
def consolidate (sources : List String) (target : String) (policy : InvalidSourcePolicy) (s : Store) :
    Store :=
  match s.consolidateInto sources target policy with
  | .ok (s', _) => s'
  | .error _ => s

/-- The score of the target once some sources are counted. -/
def scoreAfter (s : Store) (target : String) (keys : List String) : ℚ :=
  if keys = [] then s.scoreOf target else min (s.scoreOf target + s.sumScores keys) 1

/-- The sources a second call counts. -/
def recounted (s : Store) (sources : List String) (target : String) : List String :=
  sources.filter fun source => s.Joins sources target source

/-- A second call adds nothing: it counts no source, or their scores add up to nothing, or the score
of the target has come to one. -/
def ScoreSettled (s : Store) (sources : List String) (target : String) : Prop :=
  s.recounted sources target = [] ∨
    s.sumScores (s.recounted sources target) = 0 ∧
      (s.counted target [] sources = [] → s.scoreOf target ≤ 1) ∨
    0 ≤ s.sumScores (s.recounted sources target) ∧
      if s.counted target [] sources = [] then s.scoreOf target = 1
      else 1 ≤ s.scoreOf target + s.sumScores (s.counted target [] sources)

/-- A call that fails leaves all as it was, and two calls leave what one leaves. -/
def ConsolidatesOnce (s : Store) (sources : List String) (target : String)
    (policy : InvalidSourcePolicy) : Prop :=
  (∀ e, s.consolidateInto sources target policy = .error e → s.consolidate sources target policy = s) ∧
    (s.consolidate sources target policy).consolidate sources target policy =
      s.consolidate sources target policy

variable {sources : List String}

/-- The call in terms of its loop. -/
theorem consolidate_eq_of_loop (hkey : s.HasKey target) {t : Store} {skipped : List (String × SkipReason)}
    {consolidated : List String}
    (h : sources.foldlM (consolidateSource target policy) (s, [], []) =
      .ok (t, consolidated, skipped)) :
    s.consolidate sources target policy =
      if consolidated = [] then t else t.setScore target (t.scoreAfter target consolidated) := by
  rw [consolidate, consolidateInto, if_pos hkey, h]
  simp only [bind, Except.bind, pure, Except.pure]
  by_cases hnil : consolidated = []
  · simp [hnil]
  · simp only [hnil, ↓reduceIte, scoreAfter]
    rfl

theorem scoreAfter_congr {t : Store} (h : t.memories = s.memories) (keys : List String) :
    t.scoreAfter target keys = s.scoreAfter target keys := by
  simp only [scoreAfter, scoreOf, memoryByKey, sumScores, h]

/-- What an accepted call leaves. -/
theorem exists_consolidate_eq (hs : s.Rooted) (h : s.Accepts sources target policy) :
    ∃ t, s.Flattened sources target t ∧
      ((∀ x, ¬ s.Taken sources target x) → t = s) ∧
      s.consolidate sources target policy =
        if s.counted target [] sources = [] then t
        else t.setScore target (s.scoreAfter target (s.counted target [] sources)) := by
  obtain ⟨⟨t, consolidated, skipped⟩, hloop⟩ := (exists_foldlM_consolidateSource_eq_ok_iff hs).2 h.2
  obtain ⟨hflat, rfl⟩ : s.Flattened sources target t ∧ consolidated = _ := flattened_foldlM hloop
  refine ⟨t, hflat, fun hnot => foldlM_consolidateSource_of_not_taken hnot hloop, ?_⟩
  rw [consolidate_eq_of_loop h.1 hloop, scoreAfter_congr hflat.memories]

theorem mem_counted {past : List String} {x : String} :
    x ∈ s.counted target past sources ↔
      ∃ before after, sources = before ++ x :: after ∧ s.Joins (past ++ before) target x := by
  induction sources generalizing past with
  | nil => simp [counted]
  | cons a sources ih =>
    rw [counted, List.mem_append, ih]
    constructor
    · rintro (hx | ⟨before, after, rfl, hx⟩)
      · split at hx
        case isTrue ha =>
          obtain rfl := List.mem_singleton.1 hx
          exact ⟨[], sources, rfl, by simpa using ha⟩
        case isFalse => exact absurd hx List.not_mem_nil
      · exact ⟨a :: before, after, rfl, by simpa using hx⟩
    · rintro ⟨before, after, hlist, hx⟩
      cases before with
      | nil =>
        obtain ⟨rfl, rfl⟩ := List.cons.inj hlist
        left
        rw [if_pos (by simpa using hx)]
        exact List.mem_singleton_self a
      | cons b before =>
        obtain ⟨rfl, rfl⟩ := List.cons.inj hlist
        exact Or.inr ⟨before, after, rfl, by simpa using hx⟩

theorem hasKey_setScore {score : ℚ} {key : String} :
    (s.setScore target score).HasKey key ↔ s.HasKey key := hasKey_updateMemories key

/-- After a call there is nothing left to take. -/
theorem Flattened.not_taken {t : Store} (h : s.Flattened sources target t) (x : String) :
    ¬ t.Taken sources target x := by
  rintro ⟨hx, hne, hkey, hnot⟩
  have hfree : ¬ s.Hidden x := fun hhid => by
    obtain ⟨y, hy⟩ := hidden_iff.1 hhid
    exact hnot (hidden_iff.2 ⟨y, (h.edges x y).2 (Or.inl hy)⟩)
  have htaken : s.Taken sources target x := ⟨hx, hne, (hasKey_congr h.memories x).1 hkey, hfree⟩
  exact hnot (hidden_iff.2 ⟨target, (h.edges x target).2 (Or.inr ⟨rfl, Or.inl htaken⟩)⟩)

/-- A store with nothing to take is the store after a part of the sources. -/
theorem flattened_self {past : List String} (hsub : ∀ x ∈ past, x ∈ sources)
    (hnot : ∀ x, ¬ s.Taken sources target x) : s.Flattened past target s := by
  have hpast : ∀ x, ¬ s.Taken past target x := fun x hx => hnot x ⟨hsub x hx.1, hx.2⟩
  exact ⟨rfl, fun x y => by simp [hpast]⟩

/-- What a second call counts. -/
theorem mem_counted_again {u : Store} (h : s.Flattened sources target s')
    (hkeys : ∀ key, u.HasKey key ↔ s.HasKey key) (hedges : u.consolidationEdges = s'.consolidationEdges)
    (hnot : ∀ x, ¬ u.Taken sources target x) {x : String} :
    x ∈ u.counted target [] sources ↔ x ∈ s.recounted sources target := by
  have hexisting : u.existingTarget x = s'.existingTarget x := by
    simp only [existingTarget, hedges]
  have hsame : ∀ past, (∀ y ∈ past, y ∈ sources) →
      (u.Joins past target x ↔ s.Joins sources target x) := by
    intro past hsub
    by_cases hx : x ≠ target ∧ s.HasKey x
    · rw [h.joins_iff hx.1 ((hasKey_congr h.memories x).2 hx.2),
        (flattened_self hsub hnot).joins_iff hx.1 ((hkeys x).2 hx.2), hexisting]
    · exact iff_of_false (fun hj => hx ⟨hj.1, (hkeys x).1 hj.2.1⟩) fun hj => hx ⟨hj.1, hj.2.1⟩
  rw [mem_counted, recounted, List.mem_filter, decide_eq_true_eq]
  constructor
  · rintro ⟨before, after, rfl, hx⟩
    exact ⟨by simp, (hsame _ fun y hy => by simpa using Or.inl hy).1 hx⟩
  · rintro ⟨hx, hjoins⟩
    obtain ⟨before, after, rfl⟩ := List.append_of_mem hx
    exact ⟨before, after, rfl, (hsame _ fun y hy => by simpa using Or.inl hy).2 hjoins⟩

/-- A score that is added to again stays when there is nothing to add, or it is one. -/
theorem min_add_eq_iff {b sum : ℚ} : min (b + sum) 1 = b ↔ sum = 0 ∧ b ≤ 1 ∨ 0 ≤ sum ∧ b = 1 := by
  rcases le_total (b + sum) 1 with h | h
  · rw [min_eq_left h]
    constructor
    · intro hb
      exact Or.inl ⟨by linarith, by linarith⟩
    · rintro (⟨rfl, -⟩ | ⟨hsum, rfl⟩)
      · rw [add_zero]
      · linarith
  · rw [min_eq_right h]
    constructor
    · rintro rfl
      exact Or.inr ⟨by linarith, rfl⟩
    · rintro (⟨rfl, hb⟩ | ⟨-, rfl⟩)
      · linarith
      · rfl

/-- The score is settled when a second sum does not change what the first one made of it. -/
theorem settled_iff :
    s.ScoreSettled sources target ↔ s.recounted sources target = [] ∨
      min (s.scoreAfter target (s.counted target [] sources) +
        s.sumScores (s.recounted sources target)) 1 =
        s.scoreAfter target (s.counted target [] sources) := by
  rw [ScoreSettled, min_add_eq_iff, scoreAfter]
  refine or_congr_right ?_
  by_cases h : s.counted target [] sources = []
  · simp only [h, ↓reduceIte, forall_const]
  · simp only [h, ↓reduceIte, false_imp_iff, and_true, min_le_right, min_eq_right_iff]

/-- An accepted call does the same twice exactly when the score is settled. -/
theorem consolidate_consolidate_iff (hs : s.Rooted) (h : s.Accepts sources target policy) :
    (s.consolidate sources target policy).consolidate sources target policy =
      s.consolidate sources target policy ↔ s.ScoreSettled sources target := by
  obtain ⟨t, hflat, -, honce⟩ := exists_consolidate_eq hs h
  generalize s.consolidate sources target policy = u at honce ⊢
  have hedges : u.consolidationEdges = t.consolidationEdges := by
    rw [honce]
    split <;> rfl
  have hkeys : ∀ key, u.HasKey key ↔ s.HasKey key := by
    intro key
    rw [honce, ← hasKey_congr hflat.memories key]
    split
    · rfl
    · exact hasKey_setScore
  have hmerged : ∀ x y, u.MergedInto x y ↔ t.MergedInto x y := fun x y => by
    simp only [MergedInto, hedges]
  have hrooted : u.Rooted := by
    intro x y hxy
    rw [hkeys]
    rcases (hflat.edges x y).1 ((hmerged x y).1 hxy) with hold | ⟨-, htaken | ⟨-, z, -, -, hold⟩⟩
    · exact hs x y hold
    · exact htaken.2.2.1
    · exact hs x z hold
  have hnot : ∀ x, ¬ u.Taken sources target x := by
    rintro x ⟨hx, hne, hkey, hhid⟩
    refine hflat.not_taken x ⟨hx, hne, (hasKey_congr hflat.memories x).2 ((hkeys x).1 hkey), ?_⟩
    rwa [Hidden, ← hedges]
  have haccepts : u.Accepts sources target policy := by
    simpa only [Accepts, hkeys] using h
  obtain ⟨t', -, hsame, htwice⟩ := exists_consolidate_eq hrooted haccepts
  obtain rfl := hsame hnot
  have hmem : ∀ x, x ∈ t'.counted target [] sources ↔ x ∈ s.recounted sources target :=
    fun x => mem_counted_again hflat hkeys hedges hnot
  have hnil : t'.counted target [] sources = [] ↔ s.recounted sources target = [] := by
    simp only [List.eq_nil_iff_forall_not_mem, hmem]
  have htarget : target ∉ s.recounted sources target := fun ht =>
    (of_decide_eq_true (List.mem_filter.1 ht).2 : s.Joins sources target target).1 rfl
  have hscore : t'.scoreOf target = s.scoreAfter target (s.counted target [] sources) := by
    rw [honce]
    split
    case isTrue hone => rw [scoreAfter, if_pos hone, scoreOf, scoreOf, memoryByKey, memoryByKey, hflat.memories]
    case isFalse => exact scoreOf_setScore ((hasKey_congr hflat.memories target).2 h.1) _
  have hsum : t'.sumScores (t'.counted target [] sources) =
      s.sumScores (s.recounted sources target) := by
    rw [sumScores_congr hmem, honce]
    split
    · rw [sumScores, sumScores, hflat.memories]
    · rw [sumScores_setScore htarget, sumScores, sumScores, hflat.memories]
  rw [settled_iff, htwice]
  by_cases hagain : s.recounted sources target = []
  · rw [if_pos (hnil.2 hagain)]
    exact iff_of_true rfl (Or.inl hagain)
  · rw [if_neg (mt hnil.1 hagain), setScore_eq_self_iff haccepts.1, or_iff_right hagain, scoreAfter,
      if_neg (mt hnil.1 hagain), hsum, hscore]

/-- A call that fails leaves all as it was, and two calls leave what one leaves, if and only if the
call is refused or the score of the target is settled. -/
theorem consolidateInto_idempotent_iff (s : Store) (hs : s.Rooted) (sources : List String)
    (target : String) (policy : InvalidSourcePolicy) :
    s.ConsolidatesOnce sources target policy ↔
      ¬ s.Accepts sources target policy ∨ s.ScoreSettled sources target := by
  have hrollback : ∀ e, s.consolidateInto sources target policy = .error e →
      s.consolidate sources target policy = s := by
    intro e he
    rw [consolidate, he]
  rw [ConsolidatesOnce, and_iff_right hrollback]
  by_cases h : s.Accepts sources target policy
  · rw [consolidate_consolidate_iff hs h, or_iff_right (not_not_intro h)]
  · refine iff_of_true ?_ (Or.inl h)
    cases hcall : s.consolidateInto sources target policy with
    | error e => rw [hrollback e hcall, hrollback e hcall]
    | ok r =>
      have hok : (s.consolidateInto sources target policy).isOk = true := by
        rw [hcall]
        rfl
      exact absurd ((isOk_consolidateInto_iff hs).1 hok) h

/-! ## Two notes -/

/-- Two notes with scores of their own. -/
def twoNotes (monday tuesday : ℚ) : Store :=
  run (applyMerge (Env.ofRecords [] []) Platform.plain) {}
    [⟨.write { mondayNote with signalScore := monday } [], "2026-01-03 09:00:00"⟩,
      ⟨.write { tuesdayNote with signalScore := tuesday } [], "2026-01-03 09:01:00"⟩]

/-- The scores come to one, and the second call does nothing. -/
theorem consolidatesOnce_full :
    (twoNotes (1 / 2) (1 / 2)).ConsolidatesOnce ["tuesday"] "monday" .abortAll := by
  have hnone : (twoNotes (1 / 2) (1 / 2)).consolidationEdges.rows = [] := by decide +kernel
  have hrooted : (twoNotes (1 / 2) (1 / 2)).Rooted := by
    rintro x y ⟨e, he, -⟩
    exact absurd (hnone ▸ he) List.not_mem_nil
  refine (consolidateInto_idempotent_iff (twoNotes (1 / 2) (1 / 2)) hrooted ["tuesday"] "monday"
    .abortAll).2 (Or.inr ?_)
  unfold ScoreSettled
  decide +kernel

/-- A fifth and three tenths come to a half, and then to four fifths. -/
theorem not_consolidatesOnce :
    ¬ (twoNotes (1 / 5) (3 / 10)).ConsolidatesOnce ["tuesday"] "monday" .abortAll := by
  intro h
  exact absurd h.2 (by decide +kernel)

end Store

end Spectral
