import Spectral.Lib.Forwarding
import Spectral.Lib.Run
import Spectral.Ingest.Write
import Mathlib.Data.List.Sort
import Mathlib.Data.String.Basic

/-!
# Consolidation

`consolidate_into` marks memories as merged into another one.  A memory that is the source of a
consolidation edge is hidden from recall; the edge says where its content went.

* `consolidateInto` — the call: one edge for every source that has none yet, and for every
  memory that was merged into such a source an edge of its own (chains are kept flat).
* `isOk_consolidateInto_iff` — when it goes through.
* `forwardTo_consolidateInto` — in terms of `Spectral.Lib.Forwarding`: it points the sources
  it takes to the target.
-/

namespace Spectral

open Spectral.Lib

/-- `InvalidSourcePolicy`. -/
inductive InvalidSourcePolicy where
  | abortAll
  | skipAndReport
  deriving DecidableEq, Repr

/-- `SkipReason`. -/
inductive SkipReason where
  | sourceNotFound
  | alreadyConsolidatedElsewhere (target : String)
  | sourceEqualsTarget
  deriving DecidableEq, Repr

/-- `ConsolidationResult`. -/
structure ConsolidationResult where
  consolidated : List String
  skipped : List (String × SkipReason)
  targetScoreAfter : ℚ
  deriving DecidableEq

namespace Store

variable (s : Store)

/-- Is there a memory with this key? -/
def HasKey (key : String) : Prop := ∃ r ∈ s.memories.rows, r.key = key

instance (key : String) : Decidable (s.HasKey key) :=
  inferInstanceAs (Decidable (∃ r ∈ s.memories.rows, r.key = key))

/-- There is an edge from `source` to `target`. -/
def MergedInto (source target : String) : Prop :=
  ∃ e ∈ s.consolidationEdges.rows, e.sourceKey = source ∧ e.targetKey = target

instance (source target : String) : Decidable (s.MergedInto source target) :=
  inferInstanceAs (Decidable (∃ e ∈ s.consolidationEdges.rows, _ ∧ _))

/-- `key IN (SELECT source_key FROM consolidation_edges)`: hidden from recall. -/
def Hidden (key : String) : Prop := ∃ e ∈ s.consolidationEdges.rows, e.sourceKey = key

instance (key : String) : Decidable (s.Hidden key) :=
  inferInstanceAs (Decidable (∃ e ∈ s.consolidationEdges.rows, e.sourceKey = key))

theorem forwarding_mergedInto {s : Store} {key : String} :
    Forwarding s.MergedInto key ↔ s.Hidden key := by
  constructor
  · rintro ⟨-, e, he, hk, -⟩
    exact ⟨e, he, hk⟩
  · rintro ⟨e, he, hk⟩
    exact ⟨e.targetKey, e, he, hk, rfl⟩

/-- `INSERT OR IGNORE INTO consolidation_edges`.  The uniqueness of the edge is ignored, the
foreign key of its source is not. -/
def insertEdge (target : String) (s : Store) (source : String) : Except String Store :=
  let edge : ConsolidationEdge := ⟨source, target⟩
  if s.consolidationEdges.Clashes edge then .ok s
  else if s.HasKey source then
    .ok { s with consolidationEdges := s.consolidationEdges.insertOrIgnore edge }
  else .error "FOREIGN KEY constraint failed"

/-- `SELECT target_key FROM consolidation_edges WHERE source_key = ?1`: the first one, in the
order of the primary key. -/
def existingTarget (source : String) : Option String :=
  let edges := s.consolidationEdges.rows.filter fun e => decide (e.sourceKey = source)
  ((edges.map ConsolidationEdge.targetKey).insertionSort (· ≤ ·)).head?

/-- The memories merged into `source`, `target` excepted. -/
def inbound (source target : String) : List String :=
  (s.consolidationEdges.rows.filter fun e =>
    decide (e.targetKey = source) && decide (e.sourceKey ≠ target)).map ConsolidationEdge.sourceKey

/-- The body of the loop in `consolidate_into`: one source.  The state is the store, what is
consolidated and what is skipped so far. -/
def consolidateSource (target : String) (policy : InvalidSourcePolicy)
    (acc : Store × List String × List (String × SkipReason)) (source : String) :
    Except String (Store × List String × List (String × SkipReason)) :=
  let (s, consolidated, skipped) := acc
  if source = target then .ok (s, consolidated, skipped ++ [(source, .sourceEqualsTarget)])
  else if s.HasKey source then
    match s.existingTarget source with
    | some existing =>
      if existing = target then .ok (s, consolidated ++ [source], skipped)
      else .ok (s, consolidated, skipped ++ [(source, .alreadyConsolidatedElsewhere existing)])
    | none => do
      let s ← s.insertEdge target source
      let s ← (s.inbound source target).foldlM (insertEdge target) s
      return (s, consolidated ++ [source], skipped)
  else
    match policy with
    | .abortAll => .error s!"source key '{source}' does not exist"
    | .skipAndReport => .ok (s, consolidated, skipped ++ [(source, .sourceNotFound)])

/-- The signal score of the memory under a key. -/
def scoreOf (key : String) : ℚ := ((s.memoryByKey key).map MemoryRow.signalScore).getD 0

/-- The sum of the scores of the memories under some keys. -/
def sumScores (keys : List String) : ℚ :=
  ((s.memories.rows.filter fun r => decide (r.key ∈ keys)).map MemoryRow.signalScore).sum

/-- `consolidate_into`. -/
def consolidateInto (sources : List String) (target : String) (policy : InvalidSourcePolicy)
    (s : Store) : Except String (Store × ConsolidationResult) :=
  if s.HasKey target then do
    let (s, consolidated, skipped) ← sources.foldlM (consolidateSource target policy) (s, [], [])
    if consolidated = [] then return (s, ⟨consolidated, skipped, s.scoreOf target⟩)
    else
      let score := min (s.scoreOf target + s.sumScores consolidated) 1
      return (s.updateMemories (fun r => r.key = target) (fun r => { r with signalScore := score })
        fun _ => ⟨rfl, rfl⟩, ⟨consolidated, skipped, score⟩)
  else .error s!"target key '{target}' does not exist"

variable {s} {s' : Store} {source target : String} {policy : InvalidSourcePolicy}

/-- An update of other columns leaves the keys. -/
theorem hasKey_updateMemories {p : MemoryRow → Bool} {g : MemoryRow → MemoryRow}
    {hg : ∀ r, (g r).id = r.id ∧ (g r).key = r.key} (key : String) :
    (s.updateMemories p g hg).HasKey key ↔ s.HasKey key := by
  constructor
  · rintro ⟨r', hr', rfl⟩
    obtain ⟨r, hr, rfl⟩ := mem_memories_updateMemories.1 hr'
    refine ⟨r, hr, ?_⟩
    split
    · exact (hg r).2.symm
    · rfl
  · rintro ⟨r, hr, rfl⟩
    refine ⟨_, mem_memories_updateMemories.2 ⟨r, hr, rfl⟩, ?_⟩
    split
    · exact (hg r).2
    · rfl

/-! ## One edge -/

/-- An edge that is put in, or there already. -/
theorem insertEdge_eq_ok (h : s.insertEdge target source = .ok s') :
    s'.memories = s.memories ∧ (s.MergedInto source target ∨ s.HasKey source) ∧
      ∀ x y, s'.MergedInto x y ↔ s.MergedInto x y ∨ x = source ∧ y = target := by
  unfold insertEdge at h
  dsimp only at h
  split at h
  · rename_i hclash
    cases h
    obtain ⟨e, he, hpk⟩ := hclash
    have hedge : s.MergedInto source target :=
      ⟨e, he, congrArg Prod.fst hpk, congrArg Prod.snd hpk⟩
    refine ⟨rfl, Or.inl hedge, fun x y => ⟨Or.inl, ?_⟩⟩
    rintro (hxy | ⟨rfl, rfl⟩)
    · exact hxy
    · exact hedge
  · rename_i hclash
    split at h
    · rename_i hkey
      cases h
      refine ⟨rfl, Or.inr hkey, fun x y => ?_⟩
      unfold MergedInto
      simp only [Table.rows_insertOrIgnore_of_not_clashes hclash, List.mem_append,
        List.mem_singleton]
      constructor
      · rintro ⟨e, he | rfl, hx, hy⟩
        · exact Or.inl ⟨e, he, hx, hy⟩
        · exact Or.inr ⟨hx.symm, hy.symm⟩
      · rintro (⟨e, he, hx, hy⟩ | ⟨rfl, rfl⟩)
        · exact ⟨e, Or.inl he, hx, hy⟩
        · exact ⟨_, Or.inr rfl, rfl, rfl⟩
    · cases h

/-- Edges from a list of sources to one target. -/
theorem foldlM_insertEdge_eq_ok {xs : List String} (h : xs.foldlM (insertEdge target) s = .ok s') :
    s'.memories = s.memories ∧
      ∀ x y, s'.MergedInto x y ↔ s.MergedInto x y ∨ x ∈ xs ∧ y = target := by
  induction xs generalizing s with
  | nil => cases h; exact ⟨rfl, fun x y => by simp⟩
  | cons a xs ih =>
    rw [List.foldlM_cons] at h
    cases hone : s.insertEdge target a with
    | error e => rw [hone] at h; cases h
    | ok t =>
      rw [hone] at h
      obtain ⟨hmem, -, hedge⟩ := insertEdge_eq_ok hone
      obtain ⟨hmem', hedge'⟩ := ih h
      refine ⟨hmem'.trans hmem, fun x y => ?_⟩
      rw [hedge', hedge, List.mem_cons]
      tauto

theorem mem_inbound {x : String} :
    x ∈ s.inbound source target ↔ s.MergedInto x source ∧ x ≠ target := by
  unfold inbound MergedInto
  simp only [List.mem_map, List.mem_filter, Bool.and_eq_true, decide_eq_true_eq]
  constructor
  · rintro ⟨e, ⟨he, hs, ht⟩, rfl⟩
    exact ⟨⟨e, he, rfl, hs⟩, ht⟩
  · rintro ⟨⟨e, he, rfl, hs⟩, ht⟩
    exact ⟨e, ⟨he, hs, ht⟩, rfl⟩

theorem existingTarget_eq_none : s.existingTarget source = none ↔ ¬ s.Hidden source := by
  unfold existingTarget Hidden
  rw [List.head?_eq_none_iff, ← List.length_eq_zero_iff, List.length_insertionSort,
    List.length_eq_zero_iff, List.map_eq_nil_iff, List.filter_eq_nil_iff]
  simp

/-! ## The loop -/

/-- The sources a call takes: other memories than the target that have no edge yet. -/
def Taken (s : Store) (sources : List String) (target x : String) : Prop :=
  x ∈ sources ∧ x ≠ target ∧ s.HasKey x ∧ ¬ s.Hidden x

instance (sources : List String) (target x : String) : Decidable (s.Taken sources target x) :=
  inferInstanceAs (Decidable (_ ∧ _ ∧ _ ∧ _))

/-- What the loop leaves: the memories, the edges of before, an edge to the target for every
source it takes, and further edges to the target only of memories that were hidden. -/
structure Merged (sources : List String) (target : String) (s s' : Store) : Prop where
  memories : s'.memories = s.memories
  old : ∀ x y, s.MergedInto x y → s'.MergedInto x y
  new : ∀ x, s.Taken sources target x → s'.MergedInto x target
  only : ∀ x y, s'.MergedInto x y →
    s.MergedInto x y ∨ y = target ∧ (s.Taken sources target x ∨ s.Hidden x)

theorem hasKey_congr (h : s'.memories = s.memories) (key : String) :
    s'.HasKey key ↔ s.HasKey key := by
  unfold HasKey
  rw [h]

theorem hidden_iff {key : String} : s.Hidden key ↔ ∃ y, s.MergedInto key y :=
  forwarding_mergedInto.symm

theorem Taken.concat {sources : List String} {a x : String} (h : s.Taken sources target x) :
    s.Taken (sources ++ [a]) target x := ⟨List.mem_append_left _ h.1, h.2⟩

/-- One more source that leaves the edges as they are: it is not taken, or was before. -/
theorem Merged.skip {sources : List String} (h : s.Merged sources target s')
    (hsource : s.Taken (sources ++ [source]) target source → s.Taken sources target source) :
    s.Merged (sources ++ [source]) target s' where
  memories := h.memories
  old := h.old
  new x hx := by
    rcases List.mem_append.1 hx.1 with hpast | hlast
    · exact h.new x ⟨hpast, hx.2⟩
    · rw [List.mem_singleton] at hlast
      subst hlast
      exact h.new x (hsource hx)
  only x y hxy := (h.only x y hxy).imp_right fun ⟨hy, hor⟩ => ⟨hy, hor.imp_left Taken.concat⟩

/-- One more source that is given its edge, and the memories merged into it with it. -/
theorem Merged.take {sources : List String} {t u : Store} (h : s.Merged sources target t)
    (hne : source ≠ target) (hkey : t.HasKey source) (hnot : ¬ t.Hidden source)
    (hedge : t.insertEdge target source = .ok u)
    (hinbound : (u.inbound source target).foldlM (insertEdge target) u = .ok s') :
    s.Merged (sources ++ [source]) target s' := by
  obtain ⟨humem, -, hu⟩ := insertEdge_eq_ok hedge
  obtain ⟨hsmem, hs'⟩ := foldlM_insertEdge_eq_ok hinbound
  have hsource : s.Taken (sources ++ [source]) target source := by
    refine ⟨by simp, hne, (hasKey_congr h.memories source).1 hkey, fun hhid => hnot ?_⟩
    obtain ⟨y, hy⟩ := hidden_iff.1 hhid
    exact hidden_iff.2 ⟨y, h.old source y hy⟩
  refine ⟨hsmem.trans (humem.trans h.memories), fun x y hxy => ?_, fun x hx => ?_,
    fun x y hxy => ?_⟩
  · exact (hs' x y).2 (Or.inl ((hu x y).2 (Or.inl (h.old x y hxy))))
  · rcases List.mem_append.1 hx.1 with hpast | hlast
    · exact (hs' x target).2 (Or.inl ((hu x target).2 (Or.inl (h.new x ⟨hpast, hx.2⟩))))
    · exact (hs' x target).2 (Or.inl ((hu x target).2 (Or.inr ⟨List.mem_singleton.1 hlast, rfl⟩)))
  · have hold : ∀ y, t.MergedInto x y → s.MergedInto x y ∨
        y = target ∧ (s.Taken (sources ++ [source]) target x ∨ s.Hidden x) := fun y hy =>
      (h.only x y hy).imp_right fun ⟨hy, hor⟩ => ⟨hy, hor.imp_left Taken.concat⟩
    rcases (hs' x y).1 hxy with hxy | ⟨hin, rfl⟩
    · rcases (hu x y).1 hxy with hxy | ⟨rfl, rfl⟩
      · exact hold y hxy
      · exact Or.inr ⟨rfl, Or.inl hsource⟩
    · -- a memory merged into the source had that edge before
      obtain ⟨hxs, -⟩ := mem_inbound.1 hin
      rcases (hu x source).1 hxs with hxs | ⟨-, hself⟩
      · refine Or.inr ⟨rfl, ?_⟩
        rcases hold source hxs with hxs | ⟨-, hor⟩
        · exact Or.inr (hidden_iff.2 ⟨source, hxs⟩)
        · exact hor
      · exact absurd hself hne

/-- What one source does to the store and to what is consolidated so far. -/
inductive SourceOutcome (t : Store) (consolidated : List String) (target source : String) :
    Store → List String → Prop
  | self (heq : source = target) : SourceOutcome t consolidated target source t consolidated
  | again (hne : source ≠ target) (hkey : t.HasKey source)
      (hexisting : t.existingTarget source = some target) :
      SourceOutcome t consolidated target source t (consolidated ++ [source])
  | elsewhere (existing : String) (hne : source ≠ target) (hkey : t.HasKey source)
      (hexisting : t.existingTarget source = some existing) (hother : existing ≠ target) :
      SourceOutcome t consolidated target source t consolidated
  | merged {u v : Store} (hne : source ≠ target) (hkey : t.HasKey source)
      (hexisting : t.existingTarget source = none) (hedge : t.insertEdge target source = .ok u)
      (hinbound : (u.inbound source target).foldlM (insertEdge target) u = .ok v) :
      SourceOutcome t consolidated target source v (consolidated ++ [source])
  | missing (hne : source ≠ target) (hkey : ¬ t.HasKey source) :
      SourceOutcome t consolidated target source t consolidated

/-- **One source.** -/
theorem sourceOutcome_of_eq_ok {t : Store} {consolidated : List String}
    {skipped : List (String × SkipReason)} {acc : Store × List String × List (String × SkipReason)}
    (h : consolidateSource target policy (t, consolidated, skipped) source = .ok acc) :
    SourceOutcome t consolidated target source acc.1 acc.2.1 := by
  unfold consolidateSource at h
  dsimp only at h
  split at h
  · rename_i heq
    cases h
    exact .self heq
  · rename_i hne
    split at h
    · rename_i hkey
      split at h
      · rename_i existing hexisting
        split at h
        · rename_i heq
          cases h
          exact .again hne hkey (heq ▸ hexisting)
        · rename_i hother
          cases h
          exact .elsewhere existing hne hkey hexisting hother
      · rename_i hexisting
        cases hedge : t.insertEdge target source with
        | error e => rw [hedge] at h; cases h
        | ok u =>
          rw [hedge] at h
          cases hin : (u.inbound source target).foldlM (insertEdge target) u with
          | error e => simp only [bind, Except.bind, hin] at h; cases h
          | ok v =>
            simp only [bind, Except.bind, hin, pure, Except.pure] at h
            cases h
            exact .merged hne hkey hexisting hedge hin
    · rename_i hkey
      split at h
      · cases h
      · cases h
        exact .missing hne hkey

/-- A source that has an edge is hidden. -/
theorem hidden_of_existingTarget {t : Store} {existing : String}
    (h : t.existingTarget source = some existing) : t.Hidden source := by
  by_contra hnot
  rw [existingTarget_eq_none.2 hnot] at h
  cases h

/-- **The loop.**  What the sources handled so far leave. -/
theorem merged_foldlM {sources : List String}
    {acc : Store × List String × List (String × SkipReason)}
    (h : sources.foldlM (consolidateSource target policy) (s, [], []) = .ok acc) :
    s.Merged sources target acc.1 := by
  induction sources using List.reverseRecOn generalizing acc with
  | nil =>
    cases h
    exact ⟨rfl, fun _ _ h => h, fun x hx => absurd hx.1 List.not_mem_nil, fun _ _ => Or.inl⟩
  | append_singleton sources source ih =>
    obtain ⟨⟨t, consolidated, skipped⟩, hpast, h⟩ := foldlM_concat_eq_ok.1 h
    have hm : s.Merged sources target t := ih hpast
    -- if it has an edge, that is one of before, or the one it was given earlier in the loop
    have hskip : t.Hidden source → s.Taken (sources ++ [source]) target source →
        s.Taken sources target source := by
      intro hhid htaken
      obtain ⟨y, hy⟩ := hidden_iff.1 hhid
      rcases hm.only source y hy with hold | ⟨-, hpast | hold⟩
      · exact absurd (hidden_iff.2 ⟨y, hold⟩) htaken.2.2.2
      · exact hpast
      · exact absurd hold htaken.2.2.2
    obtain ⟨s', consolidated', skipped'⟩ := acc
    have houtcome : SourceOutcome t consolidated target source s' consolidated' :=
      sourceOutcome_of_eq_ok h
    cases houtcome with
    | self heq => exact hm.skip fun htaken => absurd heq htaken.2.1
    | again hne hkey hexisting => exact hm.skip (hskip (hidden_of_existingTarget hexisting))
    | elsewhere existing hne hkey hexisting =>
      exact hm.skip (hskip (hidden_of_existingTarget hexisting))
    | merged hne hkey hexisting hedge hinbound =>
      exact hm.take hne hkey (existingTarget_eq_none.1 hexisting) hedge hinbound
    | missing hne hkey =>
      exact hm.skip fun htaken => absurd ((hasKey_congr hm.memories source).2 htaken.2.2.1) hkey

/-! ## Calls that go through -/

/-- The edges start at memories that are there: the foreign key of their source. -/
def Rooted (s : Store) : Prop := ∀ x y, s.MergedInto x y → s.HasKey x

/-- The target is there and, under `AbortAll`, so is every source but the target. -/
def Accepts (s : Store) (sources : List String) (target : String) (policy : InvalidSourcePolicy) :
    Prop :=
  s.HasKey target ∧ (policy = .abortAll → ∀ source ∈ sources, source = target ∨ s.HasKey source)

instance (sources : List String) (target : String) (policy : InvalidSourcePolicy) :
    Decidable (s.Accepts sources target policy) :=
  inferInstanceAs (Decidable (_ ∧ (_ → ∀ source ∈ sources, source = target ∨ s.HasKey source)))

theorem Merged.rooted {sources : List String} (h : s.Merged sources target s') (hs : s.Rooted) :
    s'.Rooted := by
  intro x y hxy
  rw [hasKey_congr h.memories]
  rcases h.only x y hxy with hold | ⟨-, htaken | hhid⟩
  · exact hs x y hold
  · exact htaken.2.2.1
  · obtain ⟨z, hz⟩ := hidden_iff.1 hhid
    exact hs x z hz

theorem exists_insertEdge_eq_ok (target : String) (h : s.HasKey source) :
    ∃ s', s.insertEdge target source = .ok s' := by
  unfold insertEdge
  dsimp only
  split
  · exact ⟨_, rfl⟩
  · exact ⟨_, rfl⟩

theorem exists_foldlM_insertEdge_eq_ok (target : String) {xs : List String}
    (h : ∀ x ∈ xs, s.HasKey x) : ∃ s', xs.foldlM (insertEdge target) s = .ok s' := by
  induction xs generalizing s with
  | nil => exact ⟨s, rfl⟩
  | cons a xs ih =>
    obtain ⟨t, ht⟩ := exists_insertEdge_eq_ok target (h a List.mem_cons_self)
    obtain ⟨htmem, -, -⟩ := insertEdge_eq_ok ht
    obtain ⟨s', hs'⟩ := ih (s := t) fun x hx =>
      (hasKey_congr htmem x).2 (h x (List.mem_cons_of_mem a hx))
    refine ⟨s', ?_⟩
    simp only [List.foldlM_cons, ht, bind, Except.bind]
    exact hs'

/-- One source goes through, unless it is missing under `AbortAll`. -/
theorem exists_consolidateSource_eq_ok_iff (hs : s.Rooted) {consolidated : List String}
    {skipped : List (String × SkipReason)} :
    (∃ acc, consolidateSource target policy (s, consolidated, skipped) source = .ok acc) ↔
      (policy = .abortAll → source = target ∨ s.HasKey source) := by
  unfold consolidateSource
  dsimp only
  split
  · rename_i heq
    exact ⟨fun _ _ => Or.inl heq, fun _ => ⟨_, rfl⟩⟩
  · rename_i hne
    split
    · rename_i hkey
      refine ⟨fun _ _ => Or.inr hkey, fun _ => ?_⟩
      split
      · split <;> exact ⟨_, rfl⟩
      · obtain ⟨t, ht⟩ := exists_insertEdge_eq_ok target hkey
        obtain ⟨htmem, -, hedge⟩ := insertEdge_eq_ok ht
        -- what was merged into the source starts at memories that are there
        have hinbound : ∀ x ∈ t.inbound source target, t.HasKey x := by
          intro x hx
          rw [hasKey_congr htmem]
          rcases (hedge x source).1 (mem_inbound.1 hx).1 with hold | ⟨rfl, -⟩
          · exact hs x source hold
          · exact hkey
        obtain ⟨u, hu⟩ := exists_foldlM_insertEdge_eq_ok target hinbound
        refine ⟨(u, consolidated ++ [source], skipped), ?_⟩
        simp only [ht, hu, bind, Except.bind, pure, Except.pure]
    · rename_i hkey
      cases policy with
      | abortAll =>
        constructor
        · rintro ⟨acc, h⟩
          cases h
        · exact fun h => absurd (h rfl) (not_or.2 ⟨hne, hkey⟩)
      | skipAndReport => exact ⟨fun _ habort => (nomatch habort), fun _ => ⟨_, rfl⟩⟩

/-- The loop goes through, unless a source is missing under `AbortAll`. -/
theorem exists_foldlM_consolidateSource_eq_ok_iff (hs : s.Rooted) {sources : List String} :
    (∃ acc, sources.foldlM (consolidateSource target policy) (s, [], []) = .ok acc) ↔
      (policy = .abortAll → ∀ source ∈ sources, source = target ∨ s.HasKey source) := by
  induction sources using List.reverseRecOn with
  | nil => exact ⟨fun _ _ x hx => absurd hx List.not_mem_nil, fun _ => ⟨_, rfl⟩⟩
  | append_singleton sources source ih =>
    have hlast : ∀ {acc}, sources.foldlM (consolidateSource target policy) (s, [], []) = .ok acc →
        ((∃ acc', consolidateSource target policy acc source = .ok acc') ↔
          (policy = .abortAll → source = target ∨ s.HasKey source)) := by
      intro acc hpast
      have hm := merged_foldlM hpast
      rw [← hasKey_congr hm.memories source]
      exact exists_consolidateSource_eq_ok_iff (hm.rooted hs)
    simp only [foldlM_concat_eq_ok, List.mem_append, List.mem_singleton]
    constructor
    · rintro ⟨acc', acc, hpast, hstep⟩ habort x (hx | rfl)
      · exact ih.1 ⟨acc, hpast⟩ habort x hx
      · exact (hlast hpast).1 ⟨acc', hstep⟩ habort
    · intro h
      obtain ⟨acc, hpast⟩ := ih.2 fun habort x hx => h habort x (Or.inl hx)
      obtain ⟨acc', hstep⟩ := (hlast hpast).2 fun habort => h habort source (Or.inr rfl)
      exact ⟨acc', acc, hpast, hstep⟩

/-- **A call goes through** exactly when it is accepted. -/
theorem isOk_consolidateInto_iff (hs : s.Rooted) {sources : List String} :
    (s.consolidateInto sources target policy).isOk = true ↔ s.Accepts sources target policy := by
  unfold consolidateInto Accepts
  rw [← exists_foldlM_consolidateSource_eq_ok_iff hs]
  split
  · rename_i htarget
    cases hfold : sources.foldlM (consolidateSource target policy) (s, [], []) with
    | error e =>
      constructor
      · intro h
        cases h
      · rintro ⟨-, acc, h⟩
        cases h
    | ok acc =>
      simp only [bind, Except.bind, pure, Except.pure]
      refine ⟨fun _ => ⟨htarget, acc, rfl⟩, fun _ => ?_⟩
      split <;> rfl
  · rename_i htarget
    constructor
    · intro h
      cases h
    · exact fun h => absurd h.1 htarget

/-! ## What a call leaves -/

/-- **A call that goes through** runs the loop, and sets the score of the target where something was
consolidated. -/
theorem of_consolidateInto_eq_ok {sources : List String} {result : ConsolidationResult}
    (h : s.consolidateInto sources target policy = .ok (s', result)) :
    s.HasKey target ∧ ∃ t skipped,
      sources.foldlM (consolidateSource target policy) (s, [], []) =
        .ok (t, result.consolidated, skipped) ∧
      (s' = t ∨ result.consolidated ≠ [] ∧ ∃ score : ℚ,
        s' = t.updateMemories (fun r => r.key = target) (fun r => { r with signalScore := score })
          fun _ => ⟨rfl, rfl⟩) := by
  unfold consolidateInto at h
  split at h
  · rename_i hkey
    refine ⟨hkey, ?_⟩
    cases hfold : sources.foldlM (consolidateSource target policy) (s, [], []) with
    | error e => rw [hfold] at h; cases h
    | ok acc =>
      rw [hfold] at h
      simp only [bind, Except.bind, pure, Except.pure] at h
      split at h
      · cases h
        exact ⟨acc.1, acc.2.2, rfl, Or.inl rfl⟩
      · rename_i hsome
        cases h
        exact ⟨acc.1, acc.2.2, rfl, Or.inr ⟨hsome, _, rfl⟩⟩
  · cases h

/-- A call that consolidates nothing leaves the memories. -/
theorem memories_consolidateInto_of_nil {sources : List String} {result : ConsolidationResult}
    (h : s.consolidateInto sources target policy = .ok (s', result))
    (hnil : result.consolidated = []) : s'.memories = s.memories := by
  obtain ⟨-, t, skipped, hfold, rfl | ⟨hsome, -⟩⟩ := of_consolidateInto_eq_ok h
  · exact (merged_foldlM hfold).memories
  · exact absurd hnil hsome

/-- **One consolidation.**  A call that goes through leaves the keys of the memories, and points
the sources it takes to the target. -/
theorem forwardTo_consolidateInto {sources : List String} {result : ConsolidationResult}
    (h : s.consolidateInto sources target policy = .ok (s', result)) :
    (∀ key, s'.HasKey key ↔ s.HasKey key) ∧
      ForwardTo s.HasKey s.MergedInto s'.MergedInto (s.Taken sources target) target := by
  obtain ⟨-, t, skipped, hfold, hs'⟩ := of_consolidateInto_eq_ok h
  have hm : s.Merged sources target t := merged_foldlM hfold
  have hto : ∀ u : Store, u.consolidationEdges = t.consolidationEdges →
      ForwardTo s.HasKey s.MergedInto u.MergedInto (s.Taken sources target) target := by
    intro u hu
    have hedges : u.MergedInto = t.MergedInto := by
      unfold MergedInto
      rw [hu]
    rw [hedges]
    refine ⟨fun x hx => ⟨hx.2.2.1, fun hf => hx.2.2.2 (forwarding_mergedInto.1 hf)⟩, hm.old,
      hm.new, fun x y hxy => ?_⟩
    rw [forwarding_mergedInto]
    exact hm.only x y hxy
  rcases hs' with rfl | ⟨-, score, rfl⟩
  · exact ⟨hasKey_congr hm.memories, hto _ rfl⟩
  · refine ⟨fun key => ?_, hto _ rfl⟩
    rw [← hasKey_congr hm.memories key]
    exact hasKey_updateMemories key

end Store

end Spectral
