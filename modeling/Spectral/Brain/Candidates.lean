import Spectral.Lib.Orderless
import Spectral.Lib.Ranking
import Spectral.Lib.UnionFind
import Spectral.Derived.Rows

/-!
# Consolidation candidates

The memories that were not consolidated yet, clustered by co-retrieval: a scan asks for what is
retrieved along with each of them, unites the two where that happened often enough, and groups them
by their roots.  The clusters come out of a hash map and are sorted by cohesion, which leaves
clusters of one cohesion in the order of the map.

* `listUnconsolidated`, `consolidationCandidates` — the memories that are scanned, and the candidates.
* `IsCluster` — a connected component of at least two memories, under the pairs the scan admits.
* `ClusterMap` — what the scan leaves; `mem_memberKeys_iff`, `disjoint_candidates` — the candidates
  are the clusters, and have no memory in common.
* `clusters_exactly_iff` — their order is that of no map exactly if no two clusters have the same mean
  strength.
-/

namespace Spectral

open Spectral.Lib UnionFind

/-- `ConsolidationCandidate`. -/
structure ConsolidationCandidate where
  memberKeys : List String
  cohesion : ℚ
  signal : String := "co_retrieval"
  deriving DecidableEq

/-- The orders in which the two maps are iterated over. -/
structure ScanOrders where
  clusters : Shuffle (String × List String)
  strengths : Shuffle ((String × String) × ℕ)

/-- `ORDER BY created_at DESC, id DESC`. -/
def RecentFirst (a b : MemoryRow) : Prop :=
  b.createdAt < a.createdAt ∨ a.createdAt = b.createdAt ∧ b.id ≤ a.id

instance : DecidableRel RecentFirst := fun a b =>
  inferInstanceAs (Decidable (b.createdAt < a.createdAt ∨ a.createdAt = b.createdAt ∧ b.id ≤ a.id))

/-- What the scan saw last of each pair that it admits. -/
def edgeStrength (admitted : List ((String × String) × ℕ)) : HashMap (String × String) ℕ :=
  admitted.foldl (fun m e => m.insert (orderedPair e.1.1 e.1.2) e.2) HashMap.empty

/-- One turn of the loop: the strength is noted and the two are united. -/
def scanOne (fuel : ℕ) (acc : HashMap (String × String) ℕ × (String → String))
    (e : (String × String) × ℕ) : Option (HashMap (String × String) ℕ × (String → String)) :=
  (unite fuel acc.2 e.1.1 e.1.2).map fun parent =>
    (acc.1.insert (orderedPair e.1.1 e.1.2) e.2, parent)

section

variable (ratio : ℕ → ℕ → ℕ → ℚ)

/-- The cohesion of some memories: the mean of the strengths between them, over the greatest
strength of all.  `ratio` is that, as floating point has it, of the sum of the strengths, their number
and the greatest. -/
def cohesionOf (o : Shuffle ((String × String) × ℕ)) (strength : HashMap (String × String) ℕ)
    (members : List String) : ℚ :=
  let strengths := ((o.run strength.entries).filter fun e =>
    decide (e.1.1 ∈ members) && decide (e.1.2 ∈ members)).map Prod.snd
  if strengths = [] then 0
  else ratio strengths.sum strengths.length ((strength.entries.map Prod.snd).max?.getD 1)

/-- The candidate for a group. -/
def clusterCandidate (o : Shuffle ((String × String) × ℕ)) (strength : HashMap (String × String) ℕ)
    (group : List String) : ConsolidationCandidate :=
  { memberKeys := group.insertionSort (· ≤ ·)
    cohesion := cohesionOf ratio o strength (group.insertionSort (· ≤ ·)) }

/-- The groups of at least two keys. -/
def clusterGroups (o : Shuffle (String × List String)) (clusters : HashMap String (List String)) :
    List (List String) :=
  ((o.run clusters.entries).map Prod.snd).filter fun group => 2 ≤ group.length

namespace Store

variable (env : Env) (s : Store)

/-- `list_unconsolidated`. -/
def listUnconsolidated (limit : ℕ) : List String :=
  (sqlLimit limit ((s.memories.rows.filter fun m =>
    ¬ ∃ e ∈ s.consolidationEdges.rows, e.sourceKey = m.key).insertionSort RecentFirst)).map
      MemoryRow.key

/-- What the scan makes of a memory that is retrieved along with `key`. -/
def admitRelated (keys : List String) (minCoCount : ℕ) (key : String) (rel : RelatedMemory) :
    Option ((String × String) × ℕ) :=
  if rel.coCount < minCoCount then none
  else match s.getMemory rel.memoryId with
    | some m => if m.key ∉ keys ∨ m.key = key then none else some ((key, m.key), rel.coCount)
    | none => none

/-- The pairs the scan admits, in its order. -/
def admitted (keys : List String) (minCoCount : ℕ) : List ((String × String) × ℕ) :=
  keys.flatMap fun key =>
    (s.relatedMemories (env.keyToId key) 20).filterMap (s.admitRelated keys minCoCount key)

/-- `consolidation_candidates`; `none` if a way to a root were longer than there are memories. -/
def consolidationCandidates (o : ScanOrders) (minCoCount scanLimit : ℕ) :
    Option (List ConsolidationCandidate) :=
  let keys := s.listUnconsolidated scanLimit
  if keys.length < 2 then some []
  else do
    let (strength, parent) ←
      (s.admitted env keys minCoCount).foldlM (scanOne keys.length) (HashMap.empty, id)
    let clusters ← classes keys.length parent keys
    return ((clusterGroups o.clusters clusters).map
      (clusterCandidate ratio o.strengths strength)).insertionSort fun a b => b.cohesion ≤ a.cohesion

end Store

end

/-! ## What the clusters are to be -/

namespace Store

variable (ratio : ℕ → ℕ → ℕ → ℚ) (env : Env) (s : Store) (minCoCount scanLimit : ℕ)

/-- The scan admits the pair. -/
def Linked (a b : String) : Prop :=
  (a, b) ∈ (s.admitted env (s.listUnconsolidated scanLimit) minCoCount).map Prod.fst

/-- The keys, in order, of a connected component of at least two memories. -/
structure IsCluster (members : List String) : Prop where
  two : 2 ≤ members.length
  sorted : members.Pairwise (· < ·)
  component : ∃ key ∈ s.listUnconsolidated scanLimit, ∀ k, k ∈ members ↔
    k ∈ s.listUnconsolidated scanLimit ∧ Relation.EqvGen (s.Linked env minCoCount scanLimit) key k

/-- What the candidates are to be: the clusters, no memory in two of them, in an order of their own. -/
structure ClustersExactly : Prop where
  clusters : ∀ o, ∃ candidates,
    s.consolidationCandidates ratio env o minCoCount scanLimit = some candidates ∧
      ∀ members, members ∈ candidates.map ConsolidationCandidate.memberKeys ↔
        s.IsCluster env minCoCount scanLimit members
  once : ∀ o candidates,
    s.consolidationCandidates ratio env o minCoCount scanLimit = some candidates →
      candidates.Pairwise fun c c' => c.memberKeys.Disjoint c'.memberKeys
  deterministic : ∀ o o', s.consolidationCandidates ratio env o minCoCount scanLimit =
    s.consolidationCandidates ratio env o' minCoCount scanLimit

/-- The strengths of the admitted pairs between some memories. -/
def strengthsWithin (members : List String) : List ℕ :=
  ((edgeStrength (s.admitted env (s.listUnconsolidated scanLimit) minCoCount)).entries.filter fun e =>
    decide (e.1.1 ∈ members) && decide (e.1.2 ∈ members)).map Prod.snd

/-- The greatest strength of an admitted pair. -/
def greatestStrength : ℕ :=
  ((edgeStrength (s.admitted env (s.listUnconsolidated scanLimit) minCoCount)).entries.map
    Prod.snd).max?.getD 1

/-- The mean strength of the admitted pairs between some memories, over the greatest. -/
def meanStrength (members : List String) : ℚ :=
  ratio (s.strengthsWithin env minCoCount scanLimit members).sum
    (s.strengthsWithin env minCoCount scanLimit members).length
    (s.greatestStrength env minCoCount scanLimit)

/-- No two clusters have the same mean strength. -/
def DistinctMeans : Prop :=
  ∀ members members', s.IsCluster env minCoCount scanLimit members →
    s.IsCluster env minCoCount scanLimit members' →
      s.meanStrength ratio env minCoCount scanLimit members =
        s.meanStrength ratio env minCoCount scanLimit members' → members = members'

end Store

/-! ## The scan -/

namespace Store

variable {env : Env} {s : Store} {minCoCount scanLimit : ℕ}

theorem nodup_listUnconsolidated : (s.listUnconsolidated scanLimit).Nodup := by
  have hrows : (s.memories.rows.map MemoryRow.key).Nodup :=
    List.pairwise_map.2 (s.memories.unique.imp fun hclash heq => hclash (Or.inr heq))
  have hsorted := (((List.perm_insertionSort RecentFirst _).map MemoryRow.key).nodup_iff).2
    (hrows.sublist ((List.filter_sublist (p := fun m =>
      decide (¬ ∃ e ∈ s.consolidationEdges.rows, e.sourceKey = m.key))).map MemoryRow.key))
  unfold listUnconsolidated sqlLimit
  split
  · exact hsorted.sublist ((List.take_sublist _ _).map _)
  · exact hsorted

theorem mem_of_mem_admitted {keys : List String} {e : (String × String) × ℕ}
    (h : e ∈ s.admitted env keys minCoCount) : e.1.1 ∈ keys ∧ e.1.2 ∈ keys := by
  obtain ⟨key, hkey, he⟩ := List.mem_flatMap.1 h
  obtain ⟨rel, -, hrel⟩ := List.mem_filterMap.1 he
  unfold admitRelated at hrel
  split at hrel
  · cases hrel
  · split at hrel
    · split at hrel
      · cases hrel
      · rename_i hin
        cases hrel
        exact ⟨hkey, not_not.1 (not_or.1 hin).1⟩
    · cases hrel

end Store

/-- The loop notes the strengths and unites the pairs. -/
theorem foldlM_scanOne (fuel : ℕ) (l : List ((String × String) × ℕ))
    (m : HashMap (String × String) ℕ) (parent : String → String) :
    l.foldlM (scanOne fuel) (m, parent) =
      (connect fuel parent (l.map Prod.fst)).map fun parent =>
        (l.foldl (fun m e => m.insert (orderedPair e.1.1 e.1.2) e.2) m, parent) := by
  induction l generalizing m parent with
  | nil => rfl
  | cons e l ih =>
    rw [List.foldlM_cons, List.map_cons, connect, List.foldlM_cons]
    unfold scanOne
    cases unite fuel parent e.1.1 e.1.2 with
    | none => rfl
    | some parent => exact ih _ parent

namespace Store

variable {ratio : ℕ → ℕ → ℕ → ℚ} {env : Env} {s : Store} {minCoCount scanLimit : ℕ}

variable (ratio env s minCoCount scanLimit) in
/-- What a run of the scan leaves: the keys grouped by their roots, where keys have one root exactly if
pairs connect them. -/
theorem exists_consolidationCandidates_eq : ∃ rootOf : String → String,
    (∀ k k', rootOf k = rootOf k' ↔
      Relation.EqvGen (s.Linked env minCoCount scanLimit) k k') ∧
    ∀ o, s.consolidationCandidates ratio env o minCoCount scanLimit =
      some (((clusterGroups o.clusters (groups rootOf (s.listUnconsolidated scanLimit))).map
        (clusterCandidate ratio o.strengths
          (edgeStrength (s.admitted env (s.listUnconsolidated scanLimit) minCoCount)))).insertionSort
            fun a b => b.cohesion ≤ a.cohesion) := by
  generalize hkeys : s.listUnconsolidated scanLimit = keys
  have hnodup : keys.Nodup := hkeys ▸ nodup_listUnconsolidated
  have hcard : keys.toFinset.card = keys.length := List.toFinset_card_of_nodup hnodup
  have hin : ∀ e ∈ (s.admitted env keys minCoCount).map Prod.fst,
      e.1 ∈ keys.toFinset ∧ e.2 ∈ keys.toFinset := by
    intro e he
    obtain ⟨p, hp, rfl⟩ := List.mem_map.1 he
    obtain ⟨h, h'⟩ := mem_of_mem_admitted hp
    exact ⟨List.mem_toFinset.2 h, List.mem_toFinset.2 h'⟩
  obtain ⟨parent, hconnect, hf, hrep⟩ := connect_spec (forest_id keys.toFinset) represents_id hin
  choose rootOf hroot using hf.rooted
  have hclasses := classes_eq hf (fun x hx => List.mem_toFinset.2 hx) fun x (_ : x ∈ keys) => hroot x
  rw [hcard] at hconnect hclasses
  refine ⟨rootOf, fun k k' => ?_, fun o => ?_⟩
  · have hsame := hrep k k'
    simp only [false_or] at hsame
    unfold Linked
    rw [hkeys, ← hsame]
    exact ⟨fun h => ⟨rootOf k, hroot k, h ▸ hroot k'⟩,
      fun ⟨r, h, h'⟩ => ((hroot k).unique h).trans (h'.unique (hroot k'))⟩
  · unfold consolidationCandidates
    rw [hkeys]
    dsimp only
    split
    · rename_i hfew
      -- no group can have two members
      have hnone : ∀ group ∈ (o.clusters.run (groups rootOf keys).entries).map Prod.snd,
          ¬ 2 ≤ group.length := by
        intro group hgroup
        obtain ⟨⟨r, group⟩, he, rfl⟩ := List.mem_map.1 hgroup
        obtain ⟨-, rfl⟩ := mem_entries_groups.1 ((o.clusters.perm _).mem_iff.1 he)
        have := List.length_filter_le (fun x => decide (rootOf x = r)) keys
        dsimp only
        omega
      rw [clusterGroups, List.filter_eq_nil_iff.2 fun group hgroup => by simpa using hnone group hgroup]
      rfl
    · rw [foldlM_scanOne, hconnect]
      show (classes keys.length parent keys).bind _ = _
      rw [hclasses]
      rfl

/-! ## The clusters -/

/-- The groups of at least two keys, in order, are the clusters. -/
theorem isCluster_iff_group {rootOf : String → String}
    (hroot : ∀ k k', rootOf k = rootOf k' ↔
      Relation.EqvGen (s.Linked env minCoCount scanLimit) k k') {members : List String} :
    s.IsCluster env minCoCount scanLimit members ↔
      ∃ group ∈ (groups rootOf (s.listUnconsolidated scanLimit)).entries.map Prod.snd,
        2 ≤ group.length ∧ group.insertionSort (· ≤ ·) = members := by
  have hnodup : ∀ r, ((s.listUnconsolidated scanLimit).filter fun k => rootOf k = r).Nodup :=
    fun r => nodup_listUnconsolidated.filter _
  constructor
  · rintro ⟨htwo, hsorted, key, hkey, hmem⟩
    -- the group of the key is the component
    have hperm : ((s.listUnconsolidated scanLimit).filter fun k => rootOf k = rootOf key).Perm
        members := by
      refine (List.perm_ext_iff_of_nodup (hnodup _) (hsorted.imp fun h => ne_of_lt h)).2 fun k => ?_
      rw [List.mem_filter, decide_eq_true_iff, hmem, hroot]
      exact and_congr_right fun _ => ⟨.symm _ _, .symm _ _⟩
    refine ⟨_, List.mem_map.2 ⟨(rootOf key, _), mem_entries_groups.2 ⟨List.mem_map_of_mem hkey, rfl⟩,
      rfl⟩, by rwa [hperm.length_eq], ?_⟩
    exact ((List.perm_insertionSort _ _).trans hperm).eq_of_pairwise
      (fun a b _ _ => le_antisymm) (List.pairwise_insertionSort _ _) (hsorted.imp le_of_lt)
  · rintro ⟨group, hgroup, htwo, rfl⟩
    obtain ⟨⟨r, group⟩, he, rfl⟩ := List.mem_map.1 hgroup
    obtain ⟨hr, rfl⟩ := mem_entries_groups.1 he
    obtain ⟨key, hkey, rfl⟩ := List.mem_map.1 hr
    refine ⟨by rwa [List.length_insertionSort], ?_, key, hkey, fun k => ?_⟩
    · have hdistinct := ((List.perm_insertionSort (· ≤ ·) _).nodup_iff).2 (hnodup (rootOf key))
      exact ((List.pairwise_insertionSort (· ≤ ·) _).and hdistinct).imp fun ⟨hle, hne⟩ =>
        lt_of_le_of_ne hle hne
    · rw [List.mem_insertionSort, List.mem_filter, decide_eq_true_iff, hroot]
      exact and_congr_right fun _ => ⟨.symm _ _, .symm _ _⟩

/-- Groups have no keys in common. -/
theorem pairwise_disjoint_groups (rootOf : String → String) (keys : List String) :
    ((groups rootOf keys).entries.map Prod.snd).Pairwise List.Disjoint := by
  refine List.pairwise_map.2 ((List.pairwise_map.1 (groups rootOf keys).nodup).imp_of_mem ?_)
  rintro ⟨r, group⟩ ⟨r', group'⟩ he he' hne k hk hk'
  obtain ⟨-, rfl⟩ := mem_entries_groups.1 he
  obtain ⟨-, rfl⟩ := mem_entries_groups.1 he'
  exact hne ((of_decide_eq_true (List.mem_filter.1 hk).2).symm.trans
    (of_decide_eq_true (List.mem_filter.1 hk').2))

/-- What connects different elements passes over an edge. -/
theorem exists_edge_of_eqvGen {α : Type*} {r : α → α → Prop} {a b : α} (h : Relation.EqvGen r a b)
    (hne : a ≠ b) : ∃ c d, r c d ∧ Relation.EqvGen r a c ∧ Relation.EqvGen r a d := by
  induction h with
  | rel a b h => exact ⟨a, b, h, .refl a, .rel a b h⟩
  | refl a => exact absurd rfl hne
  | symm a b h ih =>
    obtain ⟨c, d, hcd, hc, hd⟩ := ih hne.symm
    exact ⟨c, d, hcd, (h.symm _ _).trans _ _ _ hc, (h.symm _ _).trans _ _ _ hd⟩
  | trans a b c h _ ih ih' =>
    by_cases hab : a = b
    · subst hab
      exact ih' hne
    · exact ih hab

/-- Every pair the scan admits has a strength. -/
theorem mem_edgeStrength {admitted : List ((String × String) × ℕ)} {e : (String × String) × ℕ}
    (he : e ∈ admitted) : ∃ n, (orderedPair e.1.1 e.1.2, n) ∈ (edgeStrength admitted).entries := by
  have hloop : ∀ (l : List ((String × String) × ℕ)) (m : HashMap (String × String) ℕ) p,
      (p ∈ m.keys ∨ ∃ e ∈ l, orderedPair e.1.1 e.1.2 = p) →
        p ∈ (l.foldl (fun m e => m.insert (orderedPair e.1.1 e.1.2) e.2) m).keys := by
    intro l
    induction l with
    | nil => simp
    | cons e l ih =>
      intro m p hp
      refine ih _ p ?_
      rw [HashMap.mem_keys]
      simp only [HashMap.get?_insert]
      by_cases hpe : p = orderedPair e.1.1 e.1.2
      · exact Or.inl ⟨e.2, if_pos hpe⟩
      · simp only [if_neg hpe]
        rcases hp with hp | ⟨e', he', rfl⟩
        · exact Or.inl (HashMap.mem_keys.1 hp)
        · rcases List.mem_cons.1 he' with rfl | he'
          · exact absurd rfl hpe
          · exact Or.inr ⟨e', he', rfl⟩
  obtain ⟨n, hn⟩ := HashMap.mem_keys.1 (hloop admitted HashMap.empty _ (Or.inr ⟨e, he, rfl⟩))
  exact ⟨n, HashMap.mem_entries.2 hn⟩

/-- A cluster has a strength. -/
theorem IsCluster.strengths_ne_nil {members : List String}
    (h : s.IsCluster env minCoCount scanLimit members) :
    s.strengthsWithin env minCoCount scanLimit members ≠ [] := by
  obtain ⟨key, -, hmem⟩ := h.component
  obtain ⟨a, b, ha, hb, hne⟩ : ∃ a b, a ∈ members ∧ b ∈ members ∧ a ≠ b := by
    have htwo := h.two
    have hsorted := h.sorted
    match members with
    | a :: b :: _ =>
      exact ⟨a, b, by simp, by simp, ne_of_lt ((List.pairwise_cons.1 hsorted).1 b (by simp))⟩
  obtain ⟨c, d, hlinked, hc, hd⟩ :=
    exists_edge_of_eqvGen ((((hmem a).1 ha).2.symm _ _).trans _ _ _ ((hmem b).1 hb).2) hne
  obtain ⟨e, he, hcd⟩ := List.mem_map.1 hlinked
  obtain ⟨hkc, hkd⟩ := mem_of_mem_admitted he
  obtain ⟨rfl, rfl⟩ := Prod.mk.inj hcd
  have hin : ∀ {k}, k ∈ s.listUnconsolidated scanLimit →
      Relation.EqvGen (s.Linked env minCoCount scanLimit) a k → k ∈ members :=
    fun hk hak => (hmem _).2 ⟨hk, ((hmem a).1 ha).2.trans _ _ _ hak⟩
  have hmc := hin hkc hc
  have hmd := hin hkd hd
  obtain ⟨n, hn⟩ := mem_edgeStrength he
  refine List.ne_nil_of_mem (List.mem_map_of_mem (List.mem_filter.2 ⟨hn, ?_⟩))
  unfold orderedPair
  split
  · simp [hmc, hmd]
  · simp [hmc, hmd]

/-- The cohesion of a cluster is its mean strength, in whatever order the strengths come. -/
theorem IsCluster.cohesionOf_eq {members : List String}
    (h : s.IsCluster env minCoCount scanLimit members) (o : Shuffle ((String × String) × ℕ)) :
    cohesionOf ratio o (edgeStrength (s.admitted env (s.listUnconsolidated scanLimit) minCoCount))
        members = s.meanStrength ratio env minCoCount scanLimit members := by
  have hperm : (((o.run (edgeStrength (s.admitted env (s.listUnconsolidated scanLimit)
      minCoCount)).entries).filter fun e =>
        decide (e.1.1 ∈ members) && decide (e.1.2 ∈ members)).map Prod.snd).Perm
          (s.strengthsWithin env minCoCount scanLimit members) :=
    ((o.perm _).filter _).map _
  unfold cohesionOf
  dsimp only
  rw [if_neg, hperm.sum_eq, hperm.length_eq]
  · rfl
  · intro hnil
    rw [hnil] at hperm
    exact h.strengths_ne_nil (List.nil_perm.1 hperm)

/-! ## The order of the candidates -/

variable (ratio env s minCoCount scanLimit) in
/-- The map of clusters that the scan leaves: in every order of the maps, the candidates are a sort of
those for its groups. -/
structure ClusterMap (m : HashMap String (List String)) : Prop where
  runs : ∀ o, s.consolidationCandidates ratio env o minCoCount scanLimit =
    some (((clusterGroups o.clusters m).map (clusterCandidate ratio o.strengths
      (edgeStrength (s.admitted env (s.listUnconsolidated scanLimit) minCoCount)))).insertionSort
        fun a b => b.cohesion ≤ a.cohesion)
  disjoint : (m.entries.map Prod.snd).Pairwise List.Disjoint
  clusters : ∀ members, s.IsCluster env minCoCount scanLimit members ↔
    ∃ group ∈ m.entries.map Prod.snd, 2 ≤ group.length ∧ group.insertionSort (· ≤ ·) = members

variable (ratio env s minCoCount scanLimit) in
theorem exists_clusterMap : ∃ m, s.ClusterMap ratio env minCoCount scanLimit m := by
  obtain ⟨rootOf, hroot, heq⟩ :=
    exists_consolidationCandidates_eq ratio env s minCoCount scanLimit
  exact ⟨_, heq, pairwise_disjoint_groups rootOf _, fun members => isCluster_iff_group hroot⟩

theorem perm_clusterGroups (o o' : Shuffle (String × List String))
    (m : HashMap String (List String)) : (clusterGroups o m).Perm (clusterGroups o' m) :=
  (((o.perm _).trans (o'.perm _).symm).map _).filter _

theorem reverse_clusterGroups (m : HashMap String (List String)) :
    clusterGroups .backwards m = (clusterGroups .inOrder m).reverse := by
  unfold clusterGroups Shuffle.backwards Shuffle.inOrder
  dsimp only
  rw [List.map_reverse, List.filter_reverse]

namespace ClusterMap

variable {m : HashMap String (List String)} (h : s.ClusterMap ratio env minCoCount scanLimit m)

include h

theorem isCluster_iff {o : Shuffle (String × List String)} {members : List String} :
    s.IsCluster env minCoCount scanLimit members ↔
      ∃ group ∈ clusterGroups o m, group.insertionSort (· ≤ ·) = members := by
  have hmem : ∀ group, group ∈ clusterGroups o m ↔
      group ∈ m.entries.map Prod.snd ∧ 2 ≤ group.length := fun group => by
    rw [clusterGroups, List.mem_filter, decide_eq_true_iff, ((o.perm _).map _).mem_iff]
  rw [h.clusters]
  exact exists_congr fun group => by rw [hmem, and_assoc]

/-- The candidate for a group tells its members and their mean strength, in whatever order the
strengths come. -/
theorem candidate_eq {o : Shuffle (String × List String)} {group : List String}
    (hgroup : group ∈ clusterGroups o m) (o' : Shuffle ((String × String) × ℕ)) :
    clusterCandidate ratio o' (edgeStrength (s.admitted env (s.listUnconsolidated scanLimit) minCoCount))
        group = { memberKeys := group.insertionSort (· ≤ ·)
                  cohesion := s.meanStrength ratio env minCoCount scanLimit
                    (group.insertionSort (· ≤ ·)) } := by
  unfold clusterCandidate
  rw [(h.isCluster_iff.2 ⟨group, hgroup, rfl⟩).cohesionOf_eq]

/-- No memory is in two groups. -/
theorem disjoint_groups (o : Shuffle (String × List String)) :
    (clusterGroups o m).Pairwise List.Disjoint := by
  have hall : (clusterGroups .inOrder m).Pairwise List.Disjoint := h.disjoint.filter _
  exact (perm_clusterGroups _ _ m).pairwise hall fun h => h.symm

/-- The candidates for different groups differ. -/
theorem nodup_candidates (o : Shuffle (String × List String))
    (o' : Shuffle ((String × String) × ℕ)) :
    ((clusterGroups o m).map (clusterCandidate ratio o'
      (edgeStrength (s.admitted env (s.listUnconsolidated scanLimit) minCoCount)))).Nodup := by
  refine List.pairwise_map.2 ((h.disjoint_groups o).imp_of_mem fun {g g'} hg hg' hd heq => ?_)
  have hkeys : g.insertionSort (· ≤ ·) = g'.insertionSort (· ≤ ·) :=
    congrArg ConsolidationCandidate.memberKeys heq
  obtain ⟨k, hk⟩ := List.exists_mem_of_length_pos (l := g)
    (Nat.zero_lt_of_lt (of_decide_eq_true (List.mem_filter.1 hg).2))
  exact hd hk ((List.mem_insertionSort (· ≤ ·)).1 (hkeys ▸ (List.mem_insertionSort _).2 hk))

/-- **The members of the candidates**: those of the clusters. -/
theorem mem_memberKeys_iff (o : ScanOrders) : ∃ candidates,
    s.consolidationCandidates ratio env o minCoCount scanLimit = some candidates ∧
      ∀ members, members ∈ candidates.map ConsolidationCandidate.memberKeys ↔
        s.IsCluster env minCoCount scanLimit members := by
  refine ⟨_, h.runs o, fun members => ?_⟩
  rw [h.isCluster_iff (o := o.clusters), List.mem_map]
  simp only [List.mem_insertionSort, List.mem_map, exists_exists_and_eq_and]
  rfl

/-- No memory is in two candidates. -/
theorem disjoint_candidates (o : ScanOrders) {candidates : List ConsolidationCandidate}
    (hrun : s.consolidationCandidates ratio env o minCoCount scanLimit = some candidates) :
    candidates.Pairwise fun c c' => c.memberKeys.Disjoint c'.memberKeys := by
  rw [h.runs, Option.some_inj] at hrun
  rw [← hrun]
  refine (List.perm_insertionSort _ _).symm.pairwise (List.pairwise_map.2 ?_) fun hd => hd.symm
  refine (h.disjoint_groups o.clusters).imp fun hd k hk hk' => ?_
  exact hd ((List.mem_insertionSort _).1 hk) ((List.mem_insertionSort _).1 hk')

/-- Where the order of the map is of no consequence, no two clusters tie: run through forwards and
backwards, it would give them in two orders. -/
theorem distinctMeans
    (hsame : s.consolidationCandidates ratio env ⟨.backwards, .inOrder⟩ minCoCount scanLimit =
      s.consolidationCandidates ratio env ⟨.inOrder, .inOrder⟩ minCoCount scanLimit) :
    s.DistinctMeans ratio env minCoCount scanLimit := by
  intro members members' hmembers hmembers' hmean
  obtain ⟨g, hg, rfl⟩ := h.isCluster_iff.1 hmembers
  obtain ⟨g', hg', rfl⟩ := h.isCluster_iff.1 hmembers'
  rw [h.runs, h.runs, reverse_clusterGroups, List.map_reverse, Option.some_inj] at hsame
  have hcandidates := eq_of_tied_of_insertionSort_reverse (h.nodup_candidates .inOrder .inOrder)
    hsame (List.mem_map_of_mem hg) (List.mem_map_of_mem hg')
    (by rw [h.candidate_eq hg, h.candidate_eq hg']; exact hmean.ge)
    (by rw [h.candidate_eq hg, h.candidate_eq hg']; exact hmean.le)
  exact congrArg ConsolidationCandidate.memberKeys hcandidates

/-- Where no two clusters tie, the order of the maps is of no consequence. -/
theorem deterministic (hdistinct : s.DistinctMeans ratio env minCoCount scanLimit)
    (o o' : ScanOrders) : s.consolidationCandidates ratio env o minCoCount scanLimit =
      s.consolidationCandidates ratio env o' minCoCount scanLimit := by
  have htotal := total_key fun c : ConsolidationCandidate => OrderDual.toDual c.cohesion
  have htrans := isTrans_key fun c : ConsolidationCandidate => OrderDual.toDual c.cohesion
  have hcandidates : (clusterGroups o'.clusters m).map (clusterCandidate ratio o'.strengths
      (edgeStrength (s.admitted env (s.listUnconsolidated scanLimit) minCoCount))) =
        (clusterGroups o'.clusters m).map (clusterCandidate ratio o.strengths
          (edgeStrength (s.admitted env (s.listUnconsolidated scanLimit) minCoCount))) :=
    List.map_congr_left fun group hgroup => by
      rw [h.candidate_eq hgroup, h.candidate_eq hgroup]
  rw [h.runs, h.runs, hcandidates]
  refine congrArg some (insertionSort_eq_of_perm
    ((perm_clusterGroups o.clusters o'.clusters m).map _) fun a ha b hb hab hba => ?_)
  obtain ⟨g, hg, rfl⟩ := List.mem_map.1 ha
  obtain ⟨g', hg', rfl⟩ := List.mem_map.1 hb
  rw [h.candidate_eq hg, h.candidate_eq hg'] at hab hba ⊢
  rw [hdistinct _ _ (h.isCluster_iff.2 ⟨g, hg, rfl⟩) (h.isCluster_iff.2 ⟨g', hg', rfl⟩)
    (le_antisymm hba hab)]

end ClusterMap

/-- **The clustering** always finds the connected components, and its order is its own exactly if no two
of them have the same mean strength. -/
theorem clusters_exactly_iff (ratio : ℕ → ℕ → ℕ → ℚ) (env : Env) (s : Store)
    (minCoCount scanLimit : ℕ) : s.ClustersExactly ratio env minCoCount scanLimit ↔
      s.DistinctMeans ratio env minCoCount scanLimit := by
  obtain ⟨m, h⟩ := exists_clusterMap ratio env s minCoCount scanLimit
  constructor
  · exact fun hexact => h.distinctMeans (hexact.deterministic _ _)
  · exact fun hdistinct => ⟨h.mem_memberKeys_iff, fun o _ => h.disjoint_candidates o,
      h.deterministic hdistinct⟩

end Store

/-! ## Two pairs -/

/-- The digests of four keys. -/
def fourKeysEnv : Env := .ofRecords
  [(utf8 "milk", 0xfd075e75a6581c0df017ee493e7a4640aabd0806d49b9334ff32a8d2343fd68c),
    (utf8 "bread", 0xa509ddbc5370e882ceb6bfa7acdc9e95358fd3b3ec7862dd9206007b5bcabb3e),
    (utf8 "rent", 0x19f70f1b4e96fcddb6bae76a68ac3f34e4c618e6e4beb1304232033b39c5771f),
    (utf8 "lease", 0xfc55f449ecb2ba9302df69e72d20802b6ba25e4f58b3b083de3b48955ac599da)] []

/-- A memory under its key. -/
def keyedNote (key : String) : MemoryRow :=
  { id := fourKeysEnv.keyToId key, key, content := key, createdAt := "2026-01-01 09:00:00"
    updatedAt := "2026-01-01 09:00:00" }

/-- Two memories that were retrieved together, twice. -/
def retrievedTogether (a b : String) : CoRetrievalPair :=
  ⟨fourKeysEnv.keyToId a, fourKeysEnv.keyToId b, 2⟩

/-- Milk goes with bread as often as the rent with the lease. -/
def twoPairs : Store :=
  { memories := ⟨[keyedNote "milk", keyedNote "bread", keyedNote "rent", keyedNote "lease"],
      by decide +kernel⟩
    coRetrievalPairs := ⟨[retrievedTogether "milk" "bread", retrievedTogether "rent" "lease"],
      by decide +kernel⟩ }

/-- Which of two clusters that tie comes first is up to the map. -/
theorem clusters_in_any_order :
    ¬ twoPairs.ClustersExactly (fun sum number greatest => sum / number / greatest) fourKeysEnv 1 100 := by
  intro h
  exact absurd (h.deterministic ⟨.inOrder, .inOrder⟩ ⟨.backwards, .inOrder⟩) (by decide +kernel)

end Spectral
