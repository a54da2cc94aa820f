import Spectral.Lib.Thin
import Spectral.Brain.Cascade

/-!
# Displacing the weakest hits

What `rerank_displace` makes of a list of hits: it takes out hits from the end and adds memories of
the episodes of the first ones.

* `candidates_perm` — what may be added: the memories of those episodes that the context admits and
  whose keys are new, each once.
* `SessionSafe` — what displacing promises: the list keeps its length, and no session its hits.
* `sessionSafe_iff` — a hit that is the last of its session makes no room, but what was to take its
  place is added all the same: the list keeps its length exactly if there is room enough.
-/

namespace Spectral

open Spectral.Lib

/-- `session_of`: hits without an episode share one session. -/
def MemoryHit.session (hit : MemoryHit) : String := hit.episodeId.getD ""

theorem displaced_eq_thinned (hits : List MemoryHit) (room : ℕ) :
    displaced hits room = thinned MemoryHit.session hits room := rfl

section

variable (visibility : Visibility) (s : Store) (hits : List MemoryHit)

/-- A memory that the context admits, and whose key no hit has. -/
def Newcomer (r : MemoryRow) : Bool :=
  decide (r.key ∉ hits.map MemoryHit.key) && (strToVis r.visibility).allows visibility

/-- The memories that may be added: the newcomers of the episodes of the first hits. -/
def newcomers (seeds : ℕ) : List MemoryRow :=
  s.memories.rows.filter fun r =>
    Newcomer visibility hits r && (hits.take seeds).any fun h => decide (h.episodeId = r.episodeId) &&
      r.episodeId.isSome

end

variable {C : CascadeSetup} {visibility : Visibility} {s : Store} {hits : List MemoryHit}

theorem mem_newcomers {seeds : ℕ} {r : MemoryRow} :
    r ∈ newcomers visibility s hits seeds ↔ r ∈ s.memories ∧ Newcomer visibility hits r = true ∧
      ∃ h ∈ hits.take seeds, h.episodeId = r.episodeId ∧ ∃ e, r.episodeId = some e := by
  simp [newcomers, Option.isSome_iff_exists]

/-! ## What may be added -/

/-- What holds in the loops over the episodes, once some memories were met: the keys are keys of
theirs, and the candidates are the newcomers among them. -/
structure Collected (visibility : Visibility) (hits : List MemoryHit) (met : List MemoryRow)
    (acc : List String × List (ℤ × MemoryHit)) : Prop where
  keys : ∀ k ∈ acc.1, ∃ r ∈ met, r.key = k
  candidates : acc.2.map Prod.snd = (met.filter (Newcomer visibility hits)).map (memoryHitFromRow 0)

theorem Collected.member {met : List MemoryRow} {acc : List String × List (ℤ × MemoryHit)}
    {ts : Option ℤ} {r : MemoryRow} (h : Collected visibility hits met acc)
    (hnew : ∀ r' ∈ met, r'.key ≠ r.key) :
    Collected visibility hits (met ++ [r])
      (C.collectMember visibility (hits.map MemoryHit.key) ts acc r) := by
  have hfree : r.key ∉ acc.1 := fun hin => by
    obtain ⟨r', hr', hkey⟩ := h.keys r.key hin
    exact hnew r' hr' hkey
  have hkeys : ∀ k ∈ r.key :: acc.1, ∃ r' ∈ met ++ [r], r'.key = k := by
    intro k hk
    rcases List.mem_cons.1 hk with rfl | hk
    · exact ⟨r, by simp, rfl⟩
    · obtain ⟨r', hr', hkey⟩ := h.keys k hk
      exact ⟨r', List.mem_append_left _ hr', hkey⟩
  unfold CascadeSetup.collectMember
  by_cases hold : r.key ∈ hits.map MemoryHit.key
  · have hnot : Newcomer visibility hits r = false := by simp [Newcomer, hold]
    rw [if_pos (Or.inl hold)]
    refine ⟨fun k hk => hkeys k (List.mem_cons_of_mem _ hk), ?_⟩
    rw [h.candidates, List.filter_append]
    simp [hnot]
  · rw [if_neg (not_or.2 ⟨hold, hfree⟩)]
    by_cases hallows : (strToVis r.visibility).allows visibility = true
    · have hnewcomer : Newcomer visibility hits r = true := by
        simp only [Newcomer, hallows, hold, not_false_eq_true, decide_true, Bool.and_self]
      rw [if_pos hallows]
      refine ⟨hkeys, ?_⟩
      rw [List.map_append, h.candidates, List.filter_append]
      simp [hnewcomer]
    · have hnot : Newcomer visibility hits r = false := by
        simp only [Newcomer, hallows, Bool.and_false]
      rw [if_neg hallows]
      refine ⟨hkeys, ?_⟩
      rw [h.candidates, List.filter_append]
      simp [hnot]

theorem mem_listMemoriesByEpisode {episode : String} {r : MemoryRow} :
    r ∈ s.listMemoriesByEpisode episode ↔ r ∈ s.memories ∧ r.episodeId = some episode := by
  unfold Store.listMemoriesByEpisode
  rw [List.mem_insertionSort, List.mem_filter, decide_eq_true_iff, Table.mem_rows]

theorem nodup_listMemoriesByEpisode {episode : String} :
    (s.listMemoriesByEpisode episode).Nodup :=
  (List.perm_insertionSort _ _).nodup_iff.2 (s.memories.nodup_rows.filter _)

/-- The memories of some episodes, none of which was met. -/
theorem Collected.members {ts : Option ℤ} {rows met : List MemoryRow}
    {acc : List String × List (ℤ × MemoryHit)} (h : Collected visibility hits met acc)
    (hrows : ∀ r ∈ met ++ rows, r ∈ s.memories) (hnodup : (met ++ rows).Nodup) :
    Collected visibility hits (met ++ rows)
      (rows.foldl (C.collectMember visibility (hits.map MemoryHit.key) ts) acc) := by
  induction rows generalizing met acc with
  | nil => rwa [List.append_nil]
  | cons r rows ih =>
    rw [List.append_cons] at hrows hnodup ⊢
    refine ih (h.member fun r' hr' hkey => ?_) hrows hnodup
    have heq : r' = r := Store.eq_of_key (hrows r' (by simp [hr'])) (hrows r (by simp)) hkey
    rw [heq] at hr'
    exact List.disjoint_of_nodup_append hnodup.of_append_left hr' (List.mem_singleton_self r)

/-- What holds in the loop over the references, once some were met: the episodes are theirs, and
the members of the episodes were collected. -/
structure CollectedRefs (visibility : Visibility) (s : Store) (hits : List MemoryHit)
    (refs : List SeedRef) (acc : List String × List String × List (ℤ × MemoryHit)) : Prop where
  nodup : acc.1.Nodup
  episodes : ∀ e, e ∈ acc.1 ↔ ∃ ref ∈ refs, ref.1 = some e
  collected : Collected visibility hits (acc.1.reverse.flatMap s.listMemoriesByEpisode) acc.2

/-- The members of distinct episodes are distinct. -/
theorem nodup_flatMap_listMemoriesByEpisode {episodes : List String} (h : episodes.Nodup) :
    (episodes.flatMap s.listMemoriesByEpisode).Nodup := by
  refine List.nodup_flatMap.2 ⟨fun e _ => nodup_listMemoriesByEpisode, h.imp fun {e e'} hne => ?_⟩
  intro r hr hr'
  have he := (mem_listMemoriesByEpisode.1 hr).2
  have he' := (mem_listMemoriesByEpisode.1 hr').2
  exact hne (Option.some.inj (he.symm.trans he'))

theorem CollectedRefs.step {refs : List SeedRef} {ref : SeedRef}
    {acc : List String × List String × List (ℤ × MemoryHit)}
    (h : CollectedRefs visibility s hits refs acc) :
    CollectedRefs visibility s hits (refs ++ [ref])
      (C.collectEpisode visibility s (hits.map MemoryHit.key) acc ref) := by
  unfold CascadeSetup.collectEpisode
  split
  · rename_i hnone
    exact ⟨h.nodup, fun e => by simp [h.episodes, hnone], h.collected⟩
  · rename_i episode hepisode
    split
    · rename_i hmet
      refine ⟨h.nodup, fun e => ?_, h.collected⟩
      have hin := (h.episodes episode).1 hmet
      rw [h.episodes]
      simp only [List.mem_append, List.mem_singleton, or_and_right, exists_or, exists_eq_left, hepisode,
        Option.some.injEq]
      exact ⟨Or.inl, fun h => h.elim id fun heq => heq ▸ hin⟩
    · rename_i hmet
      have hnodup : (episode :: acc.1).Nodup := List.nodup_cons.2 ⟨hmet, h.nodup⟩
      have hall : (episode :: acc.1).reverse.flatMap s.listMemoriesByEpisode =
          acc.1.reverse.flatMap s.listMemoriesByEpisode ++ s.listMemoriesByEpisode episode := by
        simp
      refine ⟨hnodup, fun e => ?_, ?_⟩
      · simp only [List.mem_cons, h.episodes, List.mem_append, or_and_right, exists_or, hepisode,
          List.not_mem_nil, or_false, exists_eq_left, Option.some.injEq]
        rw [or_comm, eq_comm]
      · have hdistinct := nodup_flatMap_listMemoriesByEpisode (s := s) (List.nodup_reverse.2 hnodup)
        rw [hall] at hdistinct ⊢
        refine Collected.members (s := s) h.collected (fun r hr => ?_) hdistinct
        rw [← hall] at hr
        obtain ⟨e, -, hr⟩ := List.mem_flatMap.1 hr
        exact (mem_listMemoriesByEpisode.1 hr).1

/-- **What may be added**: the newcomers of the episodes of the first hits, each once. -/
theorem candidates_perm (C : CascadeSetup) (visibility : Visibility) (s : Store)
    (hits : List MemoryHit) (seeds : ℕ) :
    (C.episodeCandidates visibility s hits (C.topSeedRefs hits seeds)).Perm
      ((newcomers visibility s hits seeds).map (memoryHitFromRow 0)) := by
  have hrun : ∀ refs : List SeedRef, CollectedRefs visibility s hits refs
      (refs.foldl (C.collectEpisode visibility s (hits.map MemoryHit.key)) ([], [], [])) := by
    intro refs
    induction refs using List.reverseRecOn with
    | nil => exact ⟨List.nodup_nil, by simp, by simp, by simp⟩
    | append_singleton refs ref ih =>
      rw [List.foldl_concat]
      exact ih.step
  have h := hrun (C.topSeedRefs hits seeds)
  unfold CascadeSetup.episodeCandidates
  refine ((List.perm_insertionSort _ _).map Prod.snd).trans ?_
  rw [h.collected.candidates]
  refine List.Perm.map _ ?_
  have hdistinct := nodup_flatMap_listMemoriesByEpisode (s := s) (List.nodup_reverse.2 h.nodup)
  have hnewcomers : (newcomers visibility s hits seeds).Nodup := s.memories.nodup_rows.filter _
  refine (List.perm_ext_iff_of_nodup (hdistinct.filter _) hnewcomers).2 fun r => ?_
  rw [mem_newcomers, List.mem_filter, List.mem_flatMap]
  simp only [List.mem_reverse, h.episodes, mem_listMemoriesByEpisode]
  constructor
  · rintro ⟨⟨e, ⟨ref, href, hseed⟩, hr, he⟩, hnew⟩
    obtain ⟨hit, hhit, rfl⟩ := List.mem_map.1 href
    exact ⟨hr, hnew, hit, hhit, hseed.trans he.symm, e, he⟩
  · rintro ⟨hr, hnew, hit, hhit, hsame, e, he⟩
    exact ⟨⟨e, ⟨_, List.mem_map_of_mem hhit, hsame.trans he⟩, hr, he⟩, hnew⟩

/-! ## Displacing -/

/-- What displacing promises: the list keeps its length, each hit that is new is of a memory that
the context admits, with a new key of its own, and each session keeps a hit. -/
structure SessionSafe (C : CascadeSetup) (visibility : Visibility) (s : Store)
    (hits : List MemoryHit) (seeds replaceB : ℕ) : Prop where
  length : (C.rerankDisplace visibility s hits seeds replaceB).length = hits.length
  added : ∃ kept added, C.rerankDisplace visibility s hits seeds replaceB = kept ++ added ∧
    kept.Sublist hits ∧ (added.map MemoryHit.key).Nodup ∧
    ∀ hit ∈ added, hit.key ∉ hits.map MemoryHit.key ∧
      ∃ r ∈ s.memories, hit = memoryHitFromRow 0 r ∧ (strToVis r.visibility).allows visibility = true
  sessions : ∀ h ∈ hits, ∃ h' ∈ C.rerankDisplace visibility s hits seeds replaceB,
    h'.session = h.session

/-- The hits that are added. -/
def CascadeSetup.displacers (C : CascadeSetup) (visibility : Visibility) (s : Store)
    (hits : List MemoryHit) (seeds replaceB : ℕ) : List MemoryHit :=
  (C.episodeCandidates visibility s hits (C.topSeedRefs hits seeds)).take replaceB

section

variable (C : CascadeSetup) (visibility : Visibility) (s : Store) (hits : List MemoryHit)
  (seeds replaceB : ℕ)

theorem rerankDisplace_eq : C.rerankDisplace visibility s hits seeds replaceB =
    cleared hits (thinned MemoryHit.session hits
      (C.displacers visibility s hits seeds replaceB).length) ++
      C.displacers visibility s hits seeds replaceB := rfl

theorem length_displacers : (C.displacers visibility s hits seeds replaceB).length =
    min replaceB (newcomers visibility s hits seeds).length := by
  unfold CascadeSetup.displacers
  rw [List.length_take, (candidates_perm C visibility s hits seeds).length_eq, List.length_map]

variable {C visibility s hits seeds replaceB} in
/-- What is added is a newcomer. -/
theorem exists_newcomer {hit : MemoryHit}
    (h : hit ∈ C.displacers visibility s hits seeds replaceB) :
    ∃ r ∈ newcomers visibility s hits seeds, memoryHitFromRow 0 r = hit :=
  List.mem_map.1 ((candidates_perm C visibility s hits seeds).mem_iff.1 (List.mem_of_mem_take h))

/-- The keys of what is added are distinct, as the keys of the store are. -/
theorem nodup_key_displacers :
    ((C.displacers visibility s hits seeds replaceB).map MemoryHit.key).Nodup := by
  have hrows : ((newcomers visibility s hits seeds).map MemoryRow.key).Nodup := by
    refine List.Nodup.map_on (fun r hr r' hr' hkey => ?_) (s.memories.nodup_rows.filter _)
    exact Store.eq_of_key (mem_newcomers.1 hr).1 (mem_newcomers.1 hr').1 hkey
  have hcandidates := ((candidates_perm C visibility s hits seeds).map MemoryHit.key).nodup_iff.2
    (by rwa [List.map_map])
  exact hcandidates.sublist ((List.take_sublist _ _).map _)

/-- **Displacing is safe for sessions**, and keeps the length of the list exactly if what is added
and one hit of each session fit into it. -/
theorem sessionSafe_iff : SessionSafe C visibility s hits seeds replaceB ↔
    min replaceB (newcomers visibility s hits seeds).length +
      (hits.map MemoryHit.session).dedup.length ≤ hits.length := by
  have hsessions : (hits.map MemoryHit.session).dedup.length ≤ hits.length := by
    have := (List.dedup_sublist (hits.map MemoryHit.session)).length_le
    rwa [List.length_map] at this
  have hadded := length_displacers C visibility s hits seeds replaceB
  set added := C.displacers visibility s hits seeds replaceB with hdef
  have hcleared := length_thinned MemoryHit.session hits added.length
  have htotal := length_cleared_thinned MemoryHit.session hits added.length
  have hlength : (C.rerankDisplace visibility s hits seeds replaceB).length = hits.length ↔
      min replaceB (newcomers visibility s hits seeds).length +
        (hits.map MemoryHit.session).dedup.length ≤ hits.length := by
    rw [rerankDisplace_eq, List.length_append, ← hdef]
    omega
  rw [← hlength]
  refine ⟨SessionSafe.length, fun h => ⟨h, ⟨_, added, rerankDisplace_eq _ _ _ _ _ _,
    cleared_sublist _ _, nodup_key_displacers C visibility s hits seeds replaceB, fun hit hhit => ?_⟩,
    fun hit hhit => ?_⟩⟩
  · obtain ⟨r, hr, rfl⟩ := exists_newcomer hhit
    obtain ⟨hmem, hnew, -⟩ := mem_newcomers.1 hr
    obtain ⟨hkey, hallows⟩ := Bool.and_eq_true_iff.1 hnew
    exact ⟨of_decide_eq_true hkey, r, hmem, rfl, hallows⟩
  · obtain ⟨h', hin, htag⟩ := exists_mem_cleared_thinned MemoryHit.session hhit added.length
    exact ⟨h', List.mem_append_left _ hin, htag⟩

end

/-! A hit that is alone in its session, and two more memories of its episode. -/

/-- A memory of one garden. -/
def gardenNote (id key content : String) : MemoryRow where
  id := id
  key := key
  content := content
  createdAt := "2026-03-01 18:00:00"
  updatedAt := "2026-03-01 18:00:00"
  episodeId := some "ep-garden"

/-- The store of the garden. -/
def gardenStore : Store where
  memories := .ofList [gardenNote "a1" "basil" "I planted basil", gardenNote "b2" "tomato" "and tomatoes",
    gardenNote "c3" "mint" "and mint"]

/-- Time stamps of the garden. -/
def gardenSetup : CascadeSetup where
  rerank _ _ _ _ := []
  parseTs stamp := if stamp = "2026-03-01 18:00:00" then some 1772388000 else none

/-- **One hit becomes three**: it makes no room, and both its mates are added. -/
theorem rerankDisplace_grows : ¬ SessionSafe gardenSetup .priv gardenStore
    [memoryHitFromRow 1 (gardenNote "a1" "basil" "I planted basil")] 3 15 := by
  intro h
  have hlength : (gardenSetup.rerankDisplace .priv gardenStore
      [memoryHitFromRow 1 (gardenNote "a1" "basil" "I planted basil")] 3 15).length = 3 := by
    decide +kernel
  exact absurd (hlength.symm.trans h.length) (by decide)

end Spectral
