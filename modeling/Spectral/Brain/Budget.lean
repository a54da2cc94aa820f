import Spectral.Brain.Cascade
import Spectral.Recall.Rerank

/-!
# What a recall leaves out

A recall has a limit and a visibility context.  What it returns is admissible in the context; what
it leaves out is left out for want of room, and the room is not taken by what is not admissible.

* `Store.Due` — a memory that is visible in the context, is not a consolidated source and matches
  the words of the query.
* `Store.mem_ftsSearchScoped_of_room` — full-text search that has room left has every such memory.
* `Store.Unstarved` — what a recall owes: `unstarved_recallTopkFts`, `unstarved_recallCascade` and
  `unstarved_recallAt`.
* `recalls_unstarved` — the three of them.
* `wing_answers_alone` — a wing that answers before full text does: a due memory of another wing is
  left out, and there was room for it.

The scores of a re-ranking are arithmetic on floats, and a parameter; what the re-ranking does by
them is in the model.
-/

namespace Spectral

open Spectral.Lib

/-! ## Memories that are due -/

namespace Store

variable (s : Store) (en : Engine) (pf : Platform) (fusion : Bool)

/-- The row matches the words of a query, in one of the indexes that are searched.  Of the words
the first `MAX_FTS_TERMS` count. -/
def MatchesWords (queryWords : List String) (r : MemoryRow) : Prop :=
  let words := queryWords.take maxFtsTerms
  ftsQuery words ≠ "" ∧ (en.matchesFts s (ftsQuery words) r = true ∨
    fusion = true ∧ en.matchesFtsRaw s (rawQuery pf.toLowercase words) r = true)

/-- A memory that a query in a context is about. -/
structure Due (visibility : Visibility) (queryWords : List String) (r : MemoryRow) : Prop where
  stored : r ∈ s.memories
  shown : ¬ s.Hidden r.key
  allows : (strToVis r.visibility).allows visibility = true
  matchesWords : s.MatchesWords en pf fusion queryWords r

end Store

/-- A hit has the key of the memory; or the memory is in the pool as a reference to a context, and
a hit refers to it too. -/
def Answered (pool hits : List MemoryHit) (r : MemoryRow) : Prop :=
  (∃ hit ∈ hits, hit.key = r.key) ∨
    ∃ c ∈ pool, c.key = r.key ∧ contextRef c.content ≠ "" ∧
      ∃ hit ∈ hits, contextRef hit.content = contextRef c.content

/-- **What a recall owes.**  Its pool and its hits are admissible in the context, and when there is
room it answers every memory that is due. -/
structure Store.Unstarved (s : Store) (en : Engine) (pf : Platform) (fusion : Bool)
    (visibility : Visibility) (queryWords : List String) (room : Prop)
    (pool hits : List MemoryHit) : Prop where
  pool_allows : ∀ c ∈ pool, (strToVis c.visibility).allows visibility = true
  hits_allows : ∀ hit ∈ hits, (strToVis hit.visibility).allows visibility = true
  answers : room → ∀ r, s.Due en pf fusion visibility queryWords r → Answered pool hits r

/-! ## Full-text search with room left -/

namespace Store

variable {s : Store} {en : Engine} {pf : Platform} {fusion : Bool} {visibility : Visibility}
  {queryWords : List String} {maxResults : ℕ} {r : MemoryRow}

/-- What a context admits, a private one admits. -/
theorem Due.priv (h : s.Due en pf fusion visibility queryWords r) :
    s.Due en pf fusion .priv queryWords r :=
  ⟨h.stored, h.shown, decide_eq_true (Nat.zero_le _), h.matchesWords⟩

theorem Due.words_ne_nil (h : s.Due en pf fusion visibility queryWords r) : queryWords ≠ [] := by
  rintro rfl
  exact h.matchesWords.1 rfl

section Channel

variable {matchesRow : MemoryRow → Bool} {bm25 : MemoryRow → ℚ} {limit : ℕ}

theorem nodup_ftsChannel : (s.ftsChannel matchesRow bm25 visibility limit).Nodup := by
  have hrows : s.memories.rows.Nodup := by
    refine s.memories.unique.imp fun h heq => h (Or.inl ?_)
    rw [heq]
  refine List.Nodup.sublist (List.take_sublist _ _) ?_
  exact (List.perm_insertionSort _ _).nodup_iff.2 (hrows.filter _)

theorem nodup_ids_ftsChannel :
    ((s.ftsChannel matchesRow bm25 visibility limit).map MemoryRow.id).Nodup := by
  refine nodup_ftsChannel.map_on fun a ha b hb h => ?_
  exact eq_of_id (mem_ftsChannel s ha).1 (mem_ftsChannel s hb).1 h

/-- An index that is not cut short has every visible row that matches. -/
theorem mem_ftsChannel_of_room
    (hroom : (s.ftsChannel matchesRow bm25 visibility limit).length < limit) (hr : r ∈ s.memories)
    (hshown : ¬ s.Hidden r.key) (hallows : (strToVis r.visibility).allows visibility = true)
    (hmatch : matchesRow r = true) : r ∈ s.ftsChannel matchesRow bm25 visibility limit := by
  unfold ftsChannel at hroom ⊢
  rw [take_eq_self_of_length_lt hroom, List.mem_insertionSort, List.mem_filter,
    visClause_eq_allows]
  exact ⟨hr, by simp [hshown, hallows, hmatch]⟩

end Channel

theorem mem_fuse_of_room {lists : List (List String)}
    (h : (fuse lists maxResults).length < maxResults) {ids : List String} (hids : ids ∈ lists) {id : String} (hid : id ∈ ids) :
    id ∈ fuse lists maxResults := by
  unfold fuse at h ⊢
  rw [take_eq_self_of_length_lt h, List.mem_insertionSort, List.mem_dedup]
  exact List.mem_flatten.2 ⟨ids, hids, hid⟩

/-- Of lists whose fusion has room left, none is longer than the fusion. -/
theorem length_le_length_fuse {lists : List (List String)}
    (h : (fuse lists maxResults).length < maxResults) {ids : List String} (hids : ids ∈ lists)
    (hnodup : ids.Nodup) : ids.length ≤ (fuse lists maxResults).length :=
  (List.subperm_of_subset hnodup fun _ => mem_fuse_of_room h hids).length_le

theorem nodup_fuse {lists : List (List String)} : (fuse lists maxResults).Nodup := by
  refine List.Nodup.sublist (List.take_sublist _ _) ?_
  exact (List.perm_insertionSort _ _).nodup_iff.2 (List.nodup_dedup _)

/-- Some indexes fused, with room left: none was cut short at the limit, and all their rows are
found. -/
theorem fused_of_room (channels : List (List MemoryRow))
    (hstored : ∀ rows ∈ channels, ∀ r ∈ rows, r ∈ s.memories)
    (hnodup : ∀ rows ∈ channels, (rows.map MemoryRow.id).Nodup)
    (hroom : ((fuse (channels.map fun rows => rows.map MemoryRow.id) maxResults).filterMap fun id =>
      (s.getMemory id).map (memoryHitFromRow 0)).length < maxResults) :
    ∀ rows ∈ channels, rows.length < maxResults ∧ ∀ r ∈ rows, memoryHitFromRow 0 r ∈
      (fuse (channels.map fun rows => rows.map MemoryRow.id) maxResults).filterMap fun id =>
        (s.getMemory id).map (memoryHitFromRow 0) := by
  intro rows hrows
  have hids : rows.map MemoryRow.id ∈ channels.map fun rows => rows.map MemoryRow.id :=
    List.mem_map_of_mem hrows
  -- every id that is fused is the id of a row, so the fusion itself has room left
  have hfound : ∀ id ∈ fuse (channels.map fun rows => rows.map MemoryRow.id) maxResults,
      ((s.getMemory id).map (memoryHitFromRow 0)).isSome = true := by
    intro id hid
    obtain ⟨ids, hmem, hin⟩ := mem_fuse hid
    obtain ⟨rows', hrows', rfl⟩ := List.mem_map.1 hmem
    obtain ⟨r, hr, rfl⟩ := List.mem_map.1 hin
    simp [getMemory_eq_some.2 ⟨hstored rows' hrows' r hr, rfl⟩]
  rw [List.filterMap_length_eq_length.2 hfound] at hroom
  constructor
  · have hle := length_le_length_fuse hroom hids (hnodup rows hrows)
    rw [List.length_map] at hle
    omega
  · intro r hr
    refine List.mem_filterMap.2 ⟨r.id, mem_fuse_of_room hroom hids (List.mem_map_of_mem hr), ?_⟩
    rw [getMemory_eq_some.2 ⟨hstored rows hrows r hr, rfl⟩, Option.map_some]

/-- **Full-text search that has room left** has every memory that is due. -/
theorem mem_ftsSearchScoped_of_room
    (hroom : (s.ftsSearchScoped en pf fusion queryWords maxResults visibility).length < maxResults)
    (h : s.Due en pf fusion visibility queryWords r) :
    memoryHitFromRow 0 r ∈ s.ftsSearchScoped en pf fusion queryWords maxResults visibility := by
  obtain ⟨hr, hshown, hallows, hquery, hmatch⟩ := h
  unfold ftsSearchScoped at hroom ⊢
  dsimp only at hroom ⊢
  rw [if_neg hquery] at hroom ⊢
  cases fusion with
  | false =>
    have hstemmed := hmatch.resolve_right fun h => Bool.false_ne_true h.1
    rw [if_pos rfl, List.length_map] at hroom
    exact List.mem_map_of_mem (mem_ftsChannel_of_room hroom hr hshown hallows hstemmed)
  | true =>
    rw [if_neg nofun] at hroom ⊢
    -- an index with fewer rows than the limit was not cut at its depth
    have hdeep : ∀ {n : ℕ}, n < maxResults → n < max (maxResults * 2) 50 := by
      intro n hn
      omega
    have hfused := fused_of_room (s := s) [_, _] (fun rows hrows r hr => ?_)
      (fun rows hrows => ?_) hroom
    · rcases hmatch with hmatch | ⟨-, hmatch⟩
      · obtain ⟨hlength, hfound⟩ := hfused _ List.mem_cons_self
        exact hfound r (mem_ftsChannel_of_room (hdeep hlength) hr hshown hallows hmatch)
      · obtain ⟨hlength, hfound⟩ := hfused _ (List.mem_cons_of_mem _ List.mem_cons_self)
        exact hfound r (mem_ftsChannel_of_room (hdeep hlength) hr hshown hallows hmatch)
    · rcases List.mem_pair.1 hrows with rfl | rfl
      · exact (mem_ftsChannel s hr).1
      · exact (mem_ftsChannel s hr).1
    · rcases List.mem_pair.1 hrows with rfl | rfl
      · exact nodup_ids_ftsChannel
      · exact nodup_ids_ftsChannel

/-! ## One hit for a memory -/

theorem nodup_ftsSearchScoped :
    (s.ftsSearchScoped en pf fusion queryWords maxResults visibility).Nodup := by
  unfold ftsSearchScoped
  dsimp only
  split
  · exact List.nodup_nil
  · split
    · refine nodup_ftsChannel.map_on fun a ha b hb h => ?_
      exact eq_of_id (mem_ftsChannel s ha).1 (mem_ftsChannel s hb).1 (congrArg MemoryHit.id h)
    · refine nodup_fuse.filterMap fun id id' hit h h' => ?_
      obtain ⟨r, hr, rfl⟩ := Option.map_eq_some_iff.1 h
      obtain ⟨r', hr', heq⟩ := Option.map_eq_some_iff.1 h'
      rw [← (getMemory_eq_some.1 hr).2, ← (getMemory_eq_some.1 hr').2]
      exact (congrArg MemoryHit.id heq).symm

theorem nodup_ids_ftsSearchScoped :
    ((s.ftsSearchScoped en pf fusion queryWords maxResults visibility).map MemoryHit.id).Nodup := by
  refine nodup_ftsSearchScoped.map_on fun a ha b hb h => ?_
  obtain ⟨r, hr, rfl, -⟩ := mem_ftsSearchScoped ha
  obtain ⟨r', hr', rfl, -⟩ := mem_ftsSearchScoped hb
  rw [eq_of_id hr hr' h]

theorem nodup_keys_ftsSearchScoped :
    ((s.ftsSearchScoped en pf fusion queryWords maxResults visibility).map
      MemoryHit.key).Nodup := by
  refine nodup_ftsSearchScoped.map_on fun a ha b hb h => ?_
  obtain ⟨r, hr, rfl, -⟩ := mem_ftsSearchScoped ha
  obtain ⟨r', hr', rfl, -⟩ := mem_ftsSearchScoped hb
  rw [eq_of_key hr hr' h]

/-- To be admissible by one's own label is a property of what the context admits. -/
theorem scoped_allows :
    s.Scoped visibility fun hit => (strToVis hit.visibility).allows visibility = true where
  row _ _ hallows _ := hallows
  rescored _ _ h := h

theorem allows_of_mem_ftsSearchScoped {hit : MemoryHit}
    (h : hit ∈ s.ftsSearchScoped en pf fusion queryWords maxResults visibility) :
    (strToVis hit.visibility).allows visibility = true := scoped_allows.of_mem_ftsSearchScoped h

end Store

/-! ## Full-text recall -/

/-- The setup of a brain whose candidates are re-ranked. -/
def BrainSetup.reranking (S : BrainSetup) (R : List String → Reranking) : BrainSetup :=
  { S with rerank := fun candidates words => (R words).places candidates }

/-- The setup of a cascade whose candidates are re-ranked. -/
def CascadeSetup.reranking (C : CascadeSetup)
    (R : CascadePipelineConfig → RecognitionContext → String → Reranking) : CascadeSetup :=
  { C with rerank := fun config context query candidates =>
      (R config context query).places candidates }

/-- A memory in the pool of a re-ranking that is not cut short is answered. -/
theorem Reranking.answered_of_mem {R : Reranking} {pool : List MemoryHit} {c : MemoryHit}
    {r : MemoryRow} (hc : c ∈ pool) (hkey : c.key = r.key) : Answered pool (R.hits pool) r := by
  rcases kept_or_duplicate (R := R) hc with ⟨score, hhit⟩ | ⟨href, hit, hhit, hsame⟩
  · exact Or.inl ⟨_, hhit, hkey⟩
  · exact Or.inr ⟨c, hc, hkey, href, hit, hhit, hsame⟩

theorem Answered.mono {pool hits hits' : List MemoryHit} {r : MemoryRow} (hsub : hits ⊆ hits')
    (h : Answered pool hits r) : Answered pool hits' r := by
  rcases h with ⟨hit, hhit, hkey⟩ | ⟨c, hc, hkey, href, hit, hhit, hsame⟩
  · exact Or.inl ⟨hit, hsub hhit, hkey⟩
  · exact Or.inr ⟨c, hc, hkey, href, hit, hsub hhit, hsame⟩

namespace BrainState

variable {L : WingCache} {S : BrainSetup} {C : CascadeSetup} {b : BrainState L}
  {visibility : Visibility} {query now : String}

/-- The candidates of `recall_topk_fts`. -/
def topkPool (S : BrainSetup) (b : BrainState L) (query : String) (k fetchMult : ℕ)
    (visibility : Visibility) : List MemoryHit :=
  b.cached.store.ftsSearchScoped S.en S.pf S.ftsFusion (S.ftsQueryWords query)
    (k * max fetchMult 1) visibility

theorem topkResults_prefix {k fetchMult : ℕ} (hwords : S.ftsQueryWords query ≠ []) :
    b.topkResults S (S.ftsQueryWords query) k fetchMult visibility <+:
      (b.recallTopkFts S query k fetchMult visibility).2 := by
  unfold recallTopkFts
  dsimp only
  rw [if_neg hwords]
  split
  · exact List.prefix_append _ _
  · exact List.prefix_refl _

/-- What is returned begins with the re-ranked pool, cut short. -/
theorem prefix_recallTopkFts (R : List String → Reranking) (b : BrainState L) (k fetchMult : ℕ)
    (visibility : Visibility) (hwords : S.ftsQueryWords query ≠ []) :
    ((R (S.ftsQueryWords query)).hits (b.topkPool S query k fetchMult visibility)).take k <+:
      (b.recallTopkFts (S.reranking R) query k fetchMult visibility).2 := by
  have hresults : b.topkResults (S.reranking R) (S.ftsQueryWords query) k fetchMult visibility =
      ((R (S.ftsQueryWords query)).hits (b.topkPool S query k fetchMult visibility)).take k := by
    unfold topkResults
    dsimp only
    rw [List.filter_eq_self.2 fun hit hhit => Store.allows_of_mem_ftsSearchScoped hhit]
    exact congrArg (List.take k) Reranking.filterMap_places
  rw [← hresults]
  exact topkResults_prefix hwords

/-- **Full-text recall** answers every memory that is due, unless it fills its limit or its pool. -/
theorem unstarved_recallTopkFts (R : List String → Reranking) (k fetchMult : ℕ) :
    b.cached.store.Unstarved S.en S.pf S.ftsFusion visibility (S.ftsQueryWords query)
      ((b.recallTopkFts (S.reranking R) query k fetchMult visibility).2.length < k ∧
        (b.topkPool S query k fetchMult visibility).length < k * max fetchMult 1)
      (b.topkPool S query k fetchMult visibility)
      (b.recallTopkFts (S.reranking R) query k fetchMult visibility).2 where
  pool_allows _ := Store.allows_of_mem_ftsSearchScoped
  hits_allows _ := forall_mem_recallTopkFts Store.scoped_allows
  answers := by
    rintro ⟨hlimit, hroom⟩ r hdue
    have hbegins := prefix_recallTopkFts R b k fetchMult visibility hdue.words_ne_nil
    have hanswered := Reranking.answered_of_mem (R := R (S.ftsQueryWords query))
      (Store.mem_ftsSearchScoped_of_room hroom hdue) rfl
    refine hanswered.mono fun hit hhit => hbegins.subset ?_
    rwa [take_eq_self_of_length_lt (hbegins.length_le.trans_lt hlimit)]

/-! ## The cascade -/

/-- Hits that are topped up with others up to a limit, and have room left: none of the others is
missing. -/
theorem toppedUp_of_room {hits others : List MemoryHit} {n : ℕ}
    (hnodup : (others.map MemoryHit.key).Nodup)
    (hroom : (hits ++ (others.filter fun h => decide (h.key ∉ hits.map MemoryHit.key)).take
      (n - hits.length)).length < n) :
    others.length < n ∧ ∀ o ∈ others, ∃ c ∈ hits ++
      (others.filter fun h => decide (h.key ∉ hits.map MemoryHit.key)).take (n - hits.length),
        c.key = o.key := by
  set fresh := others.filter fun h => decide (h.key ∉ hits.map MemoryHit.key) with hfresh
  have hwhole : fresh.take (n - hits.length) = fresh := by
    refine take_eq_self_of_length_lt ?_
    rw [List.length_append] at hroom
    omega
  rw [hwhole] at hroom ⊢
  constructor
  · -- the others that are not fresh have the keys of different hits
    have hstale : (others.filter fun h => !decide (h.key ∉ hits.map MemoryHit.key)).length ≤
        hits.length := by
      have hsub : (others.filter fun h => !decide (h.key ∉ hits.map MemoryHit.key)).map
          MemoryHit.key ⊆ hits.map MemoryHit.key := by
        intro key hkey
        obtain ⟨h, hh, rfl⟩ := List.mem_map.1 hkey
        simpa using (List.mem_filter.1 hh).2
      have hle := List.subperm_of_subset (hnodup.sublist (List.filter_sublist.map _)) hsub
      replace hle := hle.length_le
      rwa [List.length_map, List.length_map] at hle
    have hsplit := List.length_eq_length_filter_add (l := others)
      fun h => decide (h.key ∉ hits.map MemoryHit.key)
    rw [← hfresh] at hsplit
    rw [List.length_append] at hroom
    omega
  · intro o ho
    by_cases hkey : o.key ∈ hits.map MemoryHit.key
    · obtain ⟨c, hc, hsame⟩ := List.mem_map.1 hkey
      exact ⟨c, List.mem_append_left _ hc, hsame⟩
    · refine ⟨o, List.mem_append_right _ (List.mem_filter.2 ⟨ho, ?_⟩), rfl⟩
      exact decide_eq_true hkey

/-- The pool of a cascade is admissible: TACT's hits are filtered before they are counted. -/
theorem allows_of_mem_cascadeRetrieveScoped {n : ℕ} {wingHint : Option String} {hit : MemoryHit}
    (h : hit ∈ (b.cascadeRetrieveScoped S C query n wingHint visibility).2) :
    (strToVis hit.visibility).allows visibility = true := by
  unfold cascadeRetrieveScoped at h
  dsimp only at h
  split at h
  · rcases List.mem_append.1 h with h | h
    · exact (List.mem_filter.1 h).2
    · exact Store.allows_of_mem_ftsSearchScoped (List.mem_filter.1 (List.mem_of_mem_take h)).1
  · exact (List.mem_filter.1 h).2

/-- **A cascade's pool that has room left** has every memory that is due. -/
theorem exists_mem_cascadeRetrieveScoped_of_room {n : ℕ} {wingHint : Option String} {r : MemoryRow}
    (hroom : (b.cascadeRetrieveScoped S C query n wingHint visibility).2.length < n)
    (hdue : b.cached.store.Due S.en S.pf S.ftsFusion visibility (S.ftsQueryWords query) r) :
    ∃ c ∈ (b.cascadeRetrieveScoped S C query n wingHint visibility).2, c.key = r.key := by
  unfold cascadeRetrieveScoped at hroom ⊢
  dsimp only at hroom ⊢
  split at hroom
  · rename_i hshort
    rw [if_pos hshort]
    obtain ⟨hlength, hkeys⟩ := toppedUp_of_room Store.nodup_keys_ftsSearchScoped hroom
    rw [CachedStore.store_retrieve] at hlength hkeys ⊢
    exact hkeys _ (Store.mem_ftsSearchScoped_of_room hlength hdue)
  · rename_i hfull
    exact absurd ⟨hroom, hdue.words_ne_nil⟩ hfull

/-- Spreading adds to the hits, except where it makes room for what it adds. -/
theorem prefix_associativeSpread {hits : List MemoryHit} {cfg : AssocSpreadConfig}
    (hmode : cfg.mode ≠ .rerank) :
    hits <+: (b.associativeSpread S C hits cfg visibility).2 := by
  unfold associativeSpread
  split
  · exact List.prefix_refl _
  · exact List.prefix_append _ _
  · exact List.prefix_append _ _
  · exact (List.prefix_append _ _).trans (List.prefix_append _ _)
  · rename_i hrerank
    exact absurd hrerank hmode

/-- The candidates of a cascade. -/
def cascadePool (S : BrainSetup) (C : CascadeSetup) (b : BrainState L) (query : String)
    (context : RecognitionContext) (config : CascadePipelineConfig) (visibility : Visibility) :
    List MemoryHit :=
  (b.cascadeRetrieveScoped S C query (config.k * max config.fetchMult 1) context.focusWing
    visibility).2

/-- What a cascade returns begins with the re-ranked pool, cut short. -/
theorem prefix_recallCascade (R : CascadePipelineConfig → RecognitionContext → String → Reranking)
    (C : CascadeSetup) (b : BrainState L) (query now : String) (context : RecognitionContext)
    (config : CascadePipelineConfig) (visibility : Visibility)
    (hmode : config.spread.mode ≠ .rerank) :
    ((R config context query).hits (b.cascadePool S C query context config visibility)).take
        config.k <+:
      (b.recallCascadeScoped S (C.reranking R) now query context config
        visibility).2.mergedHits := by
  unfold recallCascadeScoped runCascadePipelineScoped
  dsimp only
  rw [List.filter_eq_self.2 fun hit hhit => allows_of_mem_cascadeRetrieveScoped hhit]
  split
  · rename_i hnone
    -- no candidates, and so no hits
    have hpool : b.cascadePool S C query context config visibility = [] := hnone
    simp [hpool]
  · rw [← Reranking.filterMap_places]
    exact prefix_associativeSpread hmode

/-- **The cascade** answers every memory that is due, unless it fills its limit or its pool, or
spreads in the mode that replaces hits. -/
theorem unstarved_recallCascade
    (R : CascadePipelineConfig → RecognitionContext → String → Reranking)
    (context : RecognitionContext) (config : CascadePipelineConfig) :
    b.cached.store.Unstarved S.en S.pf S.ftsFusion visibility (S.ftsQueryWords query)
      (config.spread.mode ≠ .rerank ∧
        (b.recallCascadeScoped S (C.reranking R) now query context config
          visibility).2.mergedHits.length < config.k ∧
        (b.cascadePool S C query context config visibility).length <
          config.k * max config.fetchMult 1)
      (b.cascadePool S C query context config visibility)
      (b.recallCascadeScoped S (C.reranking R) now query context config
        visibility).2.mergedHits where
  pool_allows _ := allows_of_mem_cascadeRetrieveScoped
  hits_allows _ := forall_mem_recallCascadeScoped (fun _ _ hallows => hallows)
    fun _ _ => Store.scoped_allows
  answers := by
    rintro ⟨hmode, hlimit, hroom⟩ r hdue
    have hbegins := prefix_recallCascade (S := S) R C b query now context config visibility hmode
    obtain ⟨c, hc, hkey⟩ := exists_mem_cascadeRetrieveScoped_of_room hroom hdue
    refine (Reranking.answered_of_mem (R := R config context query) hc hkey).mono fun hit hhit => ?_
    refine hbegins.subset ?_
    rwa [take_eq_self_of_length_lt (hbegins.length_le.trans_lt hlimit)]

end BrainState

/-! ## The hybrid recall -/

/-- Two lists of hits that are merged with room left: a hit of each of their ids is there. -/
theorem exists_id_mem_mergeDedup {primary secondary : List MemoryHit} {max : ℕ}
    (hroom : (mergeDedup primary secondary max).length < max) {hit : MemoryHit}
    (h : hit ∈ primary ++ secondary) :
    ∃ m ∈ mergeDedup primary secondary max, m.id = hit.id := by
  have hgo : ∀ (hits merged : List MemoryHit), (mergeDedup.go max merged hits).length < max →
      merged ⊆ mergeDedup.go max merged hits ∧
        ∀ hit ∈ hits, ∃ m ∈ mergeDedup.go max merged hits, m.id = hit.id := by
    intro hits
    induction hits with
    | nil => exact fun merged _ => ⟨fun m hm => hm, by simp⟩
    | cons first hits ih =>
      intro merged hroom
      unfold mergeDedup.go at hroom ⊢
      split at hroom
      · rename_i hseen
        rw [if_pos hseen]
        obtain ⟨hkept, hrest⟩ := ih merged hroom
        obtain ⟨m, hm, hid⟩ := List.mem_map.1 hseen
        exact ⟨hkept, List.forall_mem_cons.2 ⟨⟨m, hkept hm, hid⟩, hrest⟩⟩
      · rename_i hnew
        split at hroom
        · rename_i hfull
          rw [List.length_append, List.length_singleton] at hroom
          omega
        · rename_i hspace
          rw [if_neg hnew, if_neg hspace]
          obtain ⟨hkept, hrest⟩ := ih _ hroom
          refine ⟨fun m hm => hkept (List.mem_append_left _ hm), List.forall_mem_cons.2 ⟨?_, hrest⟩⟩
          exact ⟨first, hkept (List.mem_append_right _ (List.mem_singleton.2 rfl)), rfl⟩
  exact (hgo _ [] hroom).2 hit h

namespace CachedStore

variable {L : WingCache} {c : CachedStore L} {en : Engine} {pf : Platform} {fusion : Bool}
  {visibility : Visibility} {config : TactConfig} {query now : String} {r : MemoryRow}

/-- Fingerprints and full text, merged with room left: a memory that is due is there, as it is
stored. -/
theorem mem_merged_of_room {hits : List MemoryHit} (hserves : ∀ hit ∈ hits, c.store.Serves hit)
    {words : List String} {n : ℕ}
    (hroom : (mergeDedup hits (c.store.ftsSearchScoped en pf fusion words n .priv) n).length < n)
    (hdue : c.store.Due en pf fusion .priv words r) :
    ∃ k, memoryHitFromRow k r ∈
      mergeDedup hits (c.store.ftsSearchScoped en pf fusion words n .priv) n := by
  -- a full list of text hits would have filled the merged one
  have hlength : (c.store.ftsSearchScoped en pf fusion words n .priv).length < n := by
    have hsub : (c.store.ftsSearchScoped en pf fusion words n .priv).map MemoryHit.id ⊆
        (mergeDedup hits (c.store.ftsSearchScoped en pf fusion words n .priv) n).map
          MemoryHit.id := by
      intro id hid
      obtain ⟨hit, hhit, rfl⟩ := List.mem_map.1 hid
      exact List.mem_map.2 (exists_id_mem_mergeDedup hroom (List.mem_append_right _ hhit))
    have hle := (List.subperm_of_subset Store.nodup_ids_ftsSearchScoped hsub).length_le
    rw [List.length_map, List.length_map] at hle
    omega
  have hfound := Store.mem_ftsSearchScoped_of_room hlength hdue
  obtain ⟨m, hm, hid⟩ := exists_id_mem_mergeDedup hroom (List.mem_append_right _ hfound)
  -- a hit with the id of the row is read off the row
  have hrow : c.store.Serves m := by
    rcases mem_mergeDedup hm with hin | hin
    · exact hserves m hin
    · exact Store.serves_of_mem_ftsSearchScoped hin
  obtain ⟨r', hr', k, rfl⟩ := hrow
  rw [Store.eq_of_id hr' hdue.stored hid] at hm
  exact ⟨k, hm⟩

/-- Full text alone, with room left. -/
theorem mem_tier3_of_room (hroom : (c.tier3 en pf fusion query config).1.length < config.maxResults)
    (hdue : c.store.Due en pf fusion .priv (extractFtsWords en pf query) r) :
    memoryHitFromRow 0 r ∈ (c.tier3 en pf fusion query config).1 := by
  have hsearch : (c.tier3 en pf fusion query config).1 =
      c.store.ftsSearch en pf fusion (extractFtsWords en pf query) config.maxResults := by
    unfold tier3
    dsimp only
    rw [if_neg hdue.words_ne_nil]
    split
    · rename_i hnone
      exact hnone.symm
    · rfl
  rw [hsearch] at hroom ⊢
  exact Store.mem_ftsSearchScoped_of_room hroom hdue

/-- A wing answers alone only with a hit. -/
theorem method_ne_wingOnly {wing hall : Option String}
    (h : (c.search en pf fusion query wing hall config).2.1 = []) :
    (c.search en pf fusion query wing hall config).2.2 ≠ .wingOnly := by
  have htier3 : ∀ c' : CachedStore L, (c'.tier3 en pf fusion query config).2 ≠ .wingOnly := by
    intro c'
    unfold tier3
    dsimp only
    generalize (if extractFtsWords en pf query = [] then [] else _) = results
    split <;> simp
  unfold search at h ⊢
  dsimp only at h ⊢
  split at h
  · rename_i hsome
    rw [if_pos hsome]
    simp
  · rename_i hnone
    rw [if_neg hnone]
    cases wing with
    | none => exact htier3 c
    | some w =>
      dsimp only at h ⊢
      split at h
      · rename_i hwing
        exact absurd h hwing
      · rename_i hempty
        rw [if_neg hempty]
        exact htier3 _

/-- **TACT, with room left**: unless a wing has answered alone, a memory that is due is there. -/
theorem mem_search_of_room {wing hall : Option String}
    (hmethod : (c.search en pf fusion query wing hall config).2.2 ≠ .wingOnly)
    (hroom : (c.search en pf fusion query wing hall config).2.1.length < config.maxResults)
    (hdue : c.store.Due en pf fusion .priv (extractFtsWords en pf query) r) :
    ∃ k, memoryHitFromRow k r ∈ (c.search en pf fusion query wing hall config).2.1 := by
  have htier1 : ∀ hit ∈ c.tier1Hits pf wing hall config, c.store.Serves hit := by
    intro hit hhit
    unfold tier1Hits at hhit
    cases hwing : tier1Wing wing hall config with
    | none => rw [hwing] at hhit; exact absurd hhit List.not_mem_nil
    | some w => rw [hwing] at hhit; exact Store.serves_of_mem_fingerprintSearch hhit
  unfold search at hmethod hroom ⊢
  dsimp only at hmethod hroom ⊢
  split at hroom
  · rename_i hsome
    rw [if_pos hsome]
    exact mem_merged_of_room htier1 hroom hdue
  · rename_i hnone
    rw [if_neg hnone] at hmethod ⊢
    cases wing with
    | none => exact ⟨0, mem_tier3_of_room hroom hdue⟩
    | some w =>
      dsimp only at hmethod hroom ⊢
      split at hroom
      · rename_i hwing
        rw [if_pos hwing] at hmethod
        exact absurd rfl hmethod
      · rename_i hempty
        rw [if_neg hempty]
        refine ⟨0, mem_tier3_of_room hroom ?_⟩
        rwa [store_wingSearch]

/-- **The hybrid recall** answers every memory that is due when TACT has looked for it in full text
and has found fewer than its limit. -/
theorem unstarved_recallAt :
    c.store.Unstarved en pf fusion visibility (extractFtsWords en pf query)
      ((c.retrieve en pf fusion query none config).2.method ≠ .wingOnly ∧
        (c.retrieve en pf fusion query none config).2.method ≠ .skipped ∧
        (c.retrieve en pf fusion query none config).2.memories.length < config.maxResults)
      [] (c.recallAt en pf fusion config query visibility now).2.1 where
  pool_allows := by simp
  hits_allows := by
    intro hit hhit
    obtain ⟨m, hm, rfl⟩ := List.mem_map.1 hhit
    exact (List.mem_filter.1 hm).2
  answers := by
    rintro ⟨hwing, hskipped, hroom⟩ r hdue
    have hfound : ∃ k, memoryHitFromRow k r ∈
        (c.retrieve en pf fusion query none config).2.memories := by
      unfold retrieve at hwing hskipped hroom ⊢
      split at hskipped
      · exact absurd rfl hskipped
      · rename_i hlong
        rw [if_neg hlong] at hwing hroom ⊢
        dsimp only at hwing hroom ⊢
        split at hroom
        · rename_i hnone
          rw [← hnone] at hroom
          obtain ⟨k, hk⟩ := mem_search_of_room (method_ne_wingOnly hnone) hroom hdue.priv
          rw [hnone] at hk
          exact absurd hk List.not_mem_nil
        · rename_i hsome
          rw [if_neg hsome] at hwing ⊢
          exact mem_search_of_room hwing hroom hdue.priv
    obtain ⟨k, hk⟩ := hfound
    refine Or.inl ⟨decayed en now (memoryHitFromRow k r), ?_, rfl⟩
    exact List.mem_map_of_mem (List.mem_filter.2 ⟨hk, hdue.allows⟩)

end CachedStore

/-! ## All of them -/

namespace BrainState

variable {L : WingCache}

/-- **The recalls with a limit.**  What they return, and the pools they choose it from, are
admissible in the context.  A memory that is due is left out only

* by the hybrid recall, when a wing has answered alone, the query is too short for TACT, or TACT
  has filled its limit;
* by full-text recall, when it fills its limit, or its pool;
* by the cascade, when it fills its limit, or its pool, or spreads by replacing hits. -/
theorem recalls_unstarved (S : BrainSetup) (C : CascadeSetup) (R : List String → Reranking)
    (R' : CascadePipelineConfig → RecognitionContext → String → Reranking) (b : BrainState L)
    (query now : String) (visibility : Visibility) (config : TactConfig) (k fetchMult : ℕ)
    (context : RecognitionContext) (pipeline : CascadePipelineConfig) :
    let tact := (b.cached.retrieve S.en S.pf S.ftsFusion query none config).2
    let recalled := (b.cached.recallAt S.en S.pf S.ftsFusion config query visibility now).2.1
    let pool := b.topkPool S query k fetchMult visibility
    let topk := (b.recallTopkFts (S.reranking R) query k fetchMult visibility).2
    let wide := b.cascadePool S C query context pipeline visibility
    let cascade := (b.recallCascadeScoped S (C.reranking R') now query context pipeline
      visibility).2.mergedHits
    b.cached.store.Unstarved S.en S.pf S.ftsFusion visibility (extractFtsWords S.en S.pf query)
        (tact.method ≠ .wingOnly ∧ tact.method ≠ .skipped ∧
          tact.memories.length < config.maxResults) [] recalled ∧
      b.cached.store.Unstarved S.en S.pf S.ftsFusion visibility (S.ftsQueryWords query)
        (topk.length < k ∧ pool.length < k * max fetchMult 1) pool topk ∧
      b.cached.store.Unstarved S.en S.pf S.ftsFusion visibility (S.ftsQueryWords query)
        (pipeline.spread.mode ≠ .rerank ∧ cascade.length < pipeline.k ∧
          wide.length < pipeline.k * max pipeline.fetchMult 1) wide cascade :=
  ⟨CachedStore.unstarved_recallAt, unstarved_recallTopkFts R k fetchMult,
    unstarved_recallCascade R' context pipeline⟩

end BrainState

/-! ## A wing that answers alone -/

/-- A note of another wing, that mentions the project. -/
def Store.homeNote : Memory :=
  { id := "0cc3", key := "sunday", content := "no work on sunday", wing := some "home",
    source := some "chat", createdAt := some "2026-01-03 09:00:00" }

/-- A note of a project, and one of another wing that mentions it. -/
def homeAndWork : CachedStore wingCache :=
  run (fun c : CachedStore wingCache => c.apply (Env.ofRecords [] []) .plain)
    { store := {}, cache := wingCache.empty }
    [⟨.write Store.mondayNote [], "2026-01-03 09:00:00"⟩,
      ⟨.write Store.homeNote [], "2026-01-03 09:01:00"⟩]

/-- **Room that is not used.**  The query names the project, and the wing of the project answers it
with one memory of five; the other wing has a memory that matches. -/
theorem wing_answers_alone :
    let config : TactConfig := { wingRules := [("work", "work")] }
    let hits := (homeAndWork.recallAt RecallPath.wordEngine .plain false config "work" .priv
      "2026-01-03 09:02:00").2.1
    hits.length < config.maxResults ∧
      ∃ r, homeAndWork.store.Due RecallPath.wordEngine .plain false .priv
          (extractFtsWords RecallPath.wordEngine .plain "work") r ∧
        ∀ hit ∈ hits, hit.key ≠ r.key := by
  have hrow : ∃ r ∈ homeAndWork.store.memories.rows, r.key = "sunday" ∧
      ¬ homeAndWork.store.Hidden r.key ∧ (strToVis r.visibility).allows .priv = true ∧
      RecallPath.wordEngine.matchesFts homeAndWork.store (ftsQuery ((extractFtsWords
        RecallPath.wordEngine .plain "work").take maxFtsTerms)) r = true := by decide +kernel
  obtain ⟨r, hr, hkey, hshown, hallows, hmatch⟩ := hrow
  refine ⟨by decide +kernel, r, ⟨hr, hshown, hallows, by decide +kernel, Or.inl hmatch⟩, ?_⟩
  rw [hkey]
  decide +kernel

end Spectral
