import Spectral.Lib.HashMap
import Spectral.Brain.Remember

/-!
# The co-retrieval index

`co_retrieval_pairs` counts how often two memories were observed together: in the result of a
retrieval, or in a session.  A rebuild counts everything anew; an association with a session adds
what it brings.

* `rebuildCoRetrievalIndex` — the rebuild, from the logged events and the sessions.
* `observations` — every pair that was observed, once for each time.  `Counts` says that a table
  has the number of each pair's observations, and no other rows.
* `incremental_eq_rebuild` — after a rebuild and any associations the table is the one that
  another rebuild leaves.

The time stamps of the rows, which nothing reads, are left out.  The JSON parser is a parameter.
-/

namespace Spectral

open Spectral.Lib

/-! ## The rebuild -/

/-- A pair of ids, the smaller one first. -/
def orderedPair (x y : String) : String × String := if x < y then (x, y) else (y, x)

/-- The pairs of an event's ids: each with every later one. -/
def idPairs : List String → List (String × String)
  | [] => []
  | x :: xs => xs.map (orderedPair x) ++ idPairs xs

namespace Store

/-- `a.session_id = b.session_id AND a.memory_id < b.memory_id`. -/
def SessionJoin (a b : MemorySession) : Prop := a.sessionId = b.sessionId ∧ a.memoryId < b.memoryId

instance : DecidableRel SessionJoin := fun a b =>
  inferInstanceAs (Decidable (a.sessionId = b.sessionId ∧ a.memoryId < b.memoryId))

/-- `peers`: the other members of a session. -/
def sessionPeers (rows : List MemorySession) (memoryId sessionId : String) : List String :=
  (rows.filter fun m => m.sessionId = sessionId && decide (m.memoryId ≠ memoryId)).map
    MemorySession.memoryId

/-- The self-join of `memory_sessions`. -/
def sessionPairs (rows : List MemorySession) : List (String × String) :=
  rows.flatMap fun a => (rows.filter fun b => SessionJoin a b).map fun b => (a.memoryId, b.memoryId)

section

variable (parseIds : String → Option (List String))

/-- The pairs of all events; an event whose JSON does not parse is skipped. -/
def eventPairs (s : Store) : List (String × String) :=
  s.retrievalEvents.rows.flatMap fun event => idPairs ((parseIds event.memoryIdsJson).getD [])

/-- Every pair that is counted, once for each time. -/
def observations (s : Store) : List (String × String) :=
  s.eventPairs parseIds ++ sessionPairs s.memorySessions.rows

/-- `pair_counts`. -/
def pairCounts (s : Store) : HashMap (String × String) ℕ :=
  HashMap.groupFold (fun p => p) 0 (fun _ n => n + 1) (s.observations parseIds)

/-- `rebuild_co_retrieval_index`: the table is emptied, and each pair of the map inserted.  The
keys of a map differ, so every insert succeeds.  Returns the number of pairs. -/
def rebuildCoRetrievalIndex (o : Shuffle ((String × String) × ℕ)) (s : Store) : Store × ℕ :=
  ({ s with
    coRetrievalPairs := (o.run (s.pairCounts parseIds).entries).foldl
      (fun t e => t.insertOrIgnore ⟨e.1.1, e.1.2, e.2⟩)
      (s.coRetrievalPairs.deleteWhere fun _ => true) }, (s.pairCounts parseIds).entries.length)

end

/-- A call of `associate_memory_session`; one that fails leaves the store as it is. -/
def associated (s : Store) (call : String × String) : Store :=
  match s.associateMemorySession call.1 call.2 with
  | .ok (s', _) => s'
  | .error _ => s

/-! ## Counts -/

/-- The table has the number of each pair's observations. -/
def Counts (obs : List (String × String))
    (t : Table CoRetrievalPair (SameKey fun p => (p.memoryIdA, p.memoryIdB))) : Prop :=
  ∀ p, p ∈ t ↔ p.coCount = obs.count (p.memoryIdA, p.memoryIdB) ∧ 0 < p.coCount

section Counts

variable {obs obs' : List (String × String)} {s : Store}
  {t t' : Table CoRetrievalPair (SameKey fun p => (p.memoryIdA, p.memoryIdB))}

theorem Counts.congr (h : Counts obs t) (hperm : obs.Perm obs') : Counts obs' t := by
  intro p
  rw [h p, hperm.count_eq]

/-- The counts determine the rows. -/
theorem Counts.perm (h : Counts obs t) (h' : Counts obs t') : t.rows.Perm t'.rows :=
  Table.perm_rows fun p => by rw [h p, h' p]

/-- The upsert counts one more observation. -/
theorem counts_bumpPair (h : Counts obs s.coRetrievalPairs) (a b : String) :
    Counts (obs ++ [(a, b)]) (s.bumpPair a b).coRetrievalPairs := by
  intro p
  have hcount : ∀ k : String × String,
      (obs ++ [(a, b)]).count k = obs.count k + if k = (a, b) then 1 else 0 := by
    intro k
    rw [List.count_append, List.count_singleton]
    by_cases hk : k = (a, b)
    · simp [hk]
    · simp [hk, Ne.symm hk]
  rw [hcount]
  unfold bumpPair
  split
  · rename_i hclash
    obtain ⟨q, hq, hkey⟩ := hclash
    obtain ⟨qa, qb, n⟩ := q
    obtain ⟨rfl, rfl⟩ : qa = a ∧ qb = b := Prod.mk.inj hkey
    obtain ⟨hn, hpos⟩ := (h _).1 hq
    rw [Table.mem_update]
    constructor
    · rintro ⟨⟨ra, rb, m⟩, hr, rfl⟩
      obtain ⟨hm, hmpos⟩ := (h _).1 hr
      by_cases hk : ra = qa ∧ rb = qb
      · obtain ⟨rfl, rfl⟩ := hk
        simp only [and_self, ↓reduceIte] at hm ⊢
        omega
      · simp only [hk, ↓reduceIte, Prod.mk.injEq] at hm ⊢
        exact ⟨hm, hmpos⟩
    · rintro ⟨hp, hppos⟩
      obtain ⟨pa, pb, m⟩ := p
      by_cases hk : pa = qa ∧ pb = qb
      · obtain ⟨rfl, rfl⟩ := hk
        refine ⟨⟨pa, pb, n⟩, hq, ?_⟩
        simp_all
      · refine ⟨⟨pa, pb, m⟩, (h _).2 ⟨?_, hppos⟩, by simp [hk]⟩
        simpa [hk] using hp
  · rename_i hfree
    have hzero : obs.count (a, b) = 0 := by
      by_contra hne
      exact hfree ⟨⟨a, b, obs.count (a, b)⟩, (h _).2 ⟨rfl, Nat.pos_of_ne_zero hne⟩, rfl⟩
    refine Table.mem_insertOrIgnore.trans ?_
    rw [h p]
    obtain ⟨pa, pb, m⟩ := p
    by_cases hk : (pa, pb) = (a, b)
    · obtain ⟨rfl, rfl⟩ := Prod.mk.inj hk
      simp [hzero, hfree]
      omega
    · have hne : (⟨pa, pb, m⟩ : CoRetrievalPair) ≠ ⟨a, b, 1⟩ := by
        rintro heq
        cases heq
        exact hk rfl
      simp [hk, hne]

theorem foldl_count (xs : List (String × String)) (n : ℕ) :
    xs.foldl (fun n _ => n + 1) n = n + xs.length := by
  induction xs generalizing n with
  | nil => rfl
  | cons x xs ih => rw [List.foldl_cons, ih, List.length_cons]; omega

/-- The map has each pair that was observed, with the number of its observations. -/
theorem get?_pairCounts (parseIds : String → Option (List String)) (s : Store)
    (k : String × String) (n : ℕ) : (s.pairCounts parseIds).get? k = some n ↔
      n = (s.observations parseIds).count k ∧ 0 < n := by
  rw [pairCounts, HashMap.get?_groupFold, List.map_id', foldl_count, Nat.zero_add,
    ← List.countP_eq_length_filter]
  have hcount : (s.observations parseIds).countP (fun x => x = k) =
      (s.observations parseIds).count k := by
    rw [List.count_eq_countP]
    exact List.countP_congr fun x _ => by simp
  rw [hcount, Option.ite_none_right_eq_some, ← List.count_pos_iff]
  constructor
  · rintro ⟨hpos, hn⟩
    obtain rfl := Option.some.inj hn
    exact ⟨rfl, hpos⟩
  · rintro ⟨rfl, hpos⟩
    exact ⟨hpos, rfl⟩

/-- A rebuild leaves the counts. -/
theorem counts_rebuild (parseIds : String → Option (List String))
    (o : Shuffle ((String × String) × ℕ)) (s : Store) :
    Counts (s.observations parseIds) (s.rebuildCoRetrievalIndex parseIds o).1.coRetrievalPairs := by
  intro p
  have hperm := o.perm (s.pairCounts parseIds).entries
  have hkeys : (o.run (s.pairCounts parseIds).entries).Pairwise fun e e' =>
      ¬ SameKey (fun p : CoRetrievalPair => (p.memoryIdA, p.memoryIdB))
        ⟨e.1.1, e.1.2, e.2⟩ ⟨e'.1.1, e'.1.2, e'.2⟩ :=
    List.pairwise_map.1 ((hperm.map Prod.fst).nodup_iff.2 (s.pairCounts parseIds).nodup)
  have hempty : ∀ e ∈ o.run (s.pairCounts parseIds).entries,
      ¬ (s.coRetrievalPairs.deleteWhere fun _ => true).Clashes ⟨e.1.1, e.1.2, e.2⟩ := by
    rintro e - ⟨r, hr, -⟩
    exact absurd (Table.mem_deleteWhere.1 hr).2 (by simp)
  refine (Table.mem_foldl_insertOrIgnore (fun e : (String × String) × ℕ =>
    (⟨e.1.1, e.1.2, e.2⟩ : CoRetrievalPair)) _ hkeys hempty).trans ?_
  have hnone : p ∉ s.coRetrievalPairs.deleteWhere fun _ => true := by simp
  rw [or_iff_right hnone, ← get?_pairCounts, ← HashMap.mem_entries]
  constructor
  · rintro ⟨e, he, rfl⟩
    exact hperm.mem_iff.1 he
  · intro he
    exact ⟨_, hperm.mem_iff.2 he, rfl⟩

end Counts

/-! ## An association -/

/-- The pairs of a new row of `memory_sessions` with the rows before it: the other members of its
session, each on the side the ids say. -/
theorem orderedPairs_perm (rows : List MemorySession) (m : MemorySession) :
    ((sessionPeers rows m.memoryId m.sessionId).map (orderedPair m.memoryId)).Perm
      ((rows.flatMap fun a => if SessionJoin a m then [(a.memoryId, m.memoryId)] else []) ++
        (rows.filter fun b => SessionJoin m b).map fun b => (m.memoryId, b.memoryId)) := by
  induction rows with
  | nil => rfl
  | cons a rows ih =>
    unfold sessionPeers at ih ⊢
    by_cases hsession : a.sessionId = m.sessionId
    · rcases lt_trichotomy a.memoryId m.memoryId with hlt | heq | hgt
      · have hjoin : SessionJoin a m := ⟨hsession, hlt⟩
        have hnot : ¬ SessionJoin m a := fun h => lt_asymm hlt h.2
        simpa [hsession, hjoin, hnot, hlt.ne, orderedPair, lt_asymm hlt] using ih.cons (a.memoryId, m.memoryId)
      · have hnot : ¬ SessionJoin a m := fun h => h.2.ne heq
        have hnot' : ¬ SessionJoin m a := fun h => h.2.ne heq.symm
        simpa [hsession, heq, hnot, hnot'] using ih
      · have hnot : ¬ SessionJoin a m := fun h => lt_asymm hgt h.2
        have hjoin : SessionJoin m a := ⟨hsession.symm, hgt⟩
        have hmiddle := (ih.cons (m.memoryId, a.memoryId)).trans List.perm_middle.symm
        simpa [hsession, hjoin, hnot, hgt.ne', orderedPair, hgt] using hmiddle
    · have hnot : ¬ SessionJoin a m := fun h => hsession h.1
      have hnot' : ¬ SessionJoin m a := fun h => hsession h.1.symm
      simpa [hsession, hnot, hnot'] using ih

theorem sessionPairs_concat (rows : List MemorySession) (m : MemorySession) :
    (sessionPairs (rows ++ [m])).Perm (sessionPairs rows ++
      (sessionPeers rows m.memoryId m.sessionId).map (orderedPair m.memoryId)) := by
  have hself : ¬ SessionJoin m m := fun h => lt_irrefl _ h.2
  have hrow : ∀ a : MemorySession, (((rows ++ [m]).filter fun b => SessionJoin a b).map fun b =>
      (a.memoryId, b.memoryId)) =
        ((rows.filter fun b => SessionJoin a b).map fun b => (a.memoryId, b.memoryId)) ++
          if SessionJoin a m then [(a.memoryId, m.memoryId)] else [] := by
    intro a
    by_cases h : SessionJoin a m <;> simp [List.filter_append, h]
  have hpairs : sessionPairs (rows ++ [m]) = (rows.flatMap fun a =>
      ((rows.filter fun b => SessionJoin a b).map fun b => (a.memoryId, b.memoryId)) ++
        if SessionJoin a m then [(a.memoryId, m.memoryId)] else []) ++
          (rows.filter fun b => SessionJoin m b).map fun b => (m.memoryId, b.memoryId) := by
    unfold sessionPairs
    simp only [hrow, List.flatMap_append, List.flatMap_singleton, hself, ↓reduceIte, List.append_nil]
  rw [hpairs]
  refine ((List.flatMap_append_perm rows _ _).symm.append_right _).trans ?_
  rw [List.append_assoc]
  exact (orderedPairs_perm rows m).symm.append_left _

/-- The upserts of an association count the pairs it adds. -/
theorem counts_foldl_bumpPair {obs : List (String × String)} {s : Store}
    (h : Counts obs s.coRetrievalPairs) (memoryId : String) (peers : List String) :
    Counts (obs ++ peers.map (orderedPair memoryId)) (peers.foldl (fun s peer =>
      if memoryId < peer then s.bumpPair memoryId peer else s.bumpPair peer memoryId) s).coRetrievalPairs := by
  induction peers using List.reverseRecOn with
  | nil => simpa using h
  | append_singleton peers peer ih =>
    rw [List.foldl_append, List.foldl_cons, List.foldl_nil, List.map_append, ← List.append_assoc,
      List.map_singleton, orderedPair]
    split
    · exact counts_bumpPair ih memoryId peer
    · exact counts_bumpPair ih peer memoryId

/-- The upserts change neither events nor sessions. -/
theorem observations_foldl_bumpPair (parseIds : String → Option (List String)) (memoryId : String)
    (peers : List String) (s : Store) :
    (peers.foldl (fun s peer =>
      if memoryId < peer then s.bumpPair memoryId peer else s.bumpPair peer memoryId) s).observations
        parseIds = s.observations parseIds := by
  have hbump : ∀ (s : Store) (a b : String),
      (s.bumpPair a b).observations parseIds = s.observations parseIds := by
    intro s a b
    unfold bumpPair
    split <;> rfl
  induction peers generalizing s with
  | nil => rfl
  | cons peer peers ih =>
    rw [List.foldl_cons, ih]
    split <;> exact hbump _ _ _

/-- An association counts what it adds to the observations. -/
theorem counts_associated {parseIds : String → Option (List String)} {s : Store}
    (h : Counts (s.observations parseIds) s.coRetrievalPairs) (call : String × String) :
    Counts ((s.associated call).observations parseIds) (s.associated call).coRetrievalPairs := by
  unfold associated associateMemorySession
  by_cases hthere : s.memorySessions.Clashes ⟨call.1, call.2⟩
  · rw [if_pos hthere]
    exact h
  by_cases hmemory : s.HasMemory call.1
  · rw [if_neg hthere, if_pos hmemory]
    let joined := { s with memorySessions := s.memorySessions.insertOrIgnore ⟨call.1, call.2⟩ }
    have hobs : (s.observations parseIds ++
        (sessionPeers s.memorySessions.rows call.1 call.2).map (orderedPair call.1)).Perm
          (joined.observations parseIds) := by
      show List.Perm _ (s.eventPairs parseIds ++
        sessionPairs (s.memorySessions.insertOrIgnore ⟨call.1, call.2⟩).rows)
      rw [Table.rows_insertOrIgnore_of_not_clashes hthere, observations, List.append_assoc]
      exact (sessionPairs_concat s.memorySessions.rows ⟨call.1, call.2⟩).symm.append_left _
    have hcounts := (counts_foldl_bumpPair (s := joined) h call.1
      (sessionPeers s.memorySessions.rows call.1 call.2)).congr hobs
    rw [← observations_foldl_bumpPair parseIds call.1
      (sessionPeers s.memorySessions.rows call.1 call.2) joined] at hcounts
    exact hcounts
  · rw [if_neg hthere, if_neg hmemory]
    exact h

theorem counts_foldl_associated {parseIds : String → Option (List String)} {s : Store}
    (h : Counts (s.observations parseIds) s.coRetrievalPairs) (calls : List (String × String)) :
    Counts ((calls.foldl associated s).observations parseIds)
      (calls.foldl associated s).coRetrievalPairs := by
  induction calls using List.reverseRecOn with
  | nil => exact h
  | append_singleton calls call ih =>
    rw [List.foldl_append]
    exact counts_associated ih call

/-- **Incremental is rebuild.**  After a rebuild and any associations, `co_retrieval_pairs` has
the rows that a fresh rebuild over the same events and sessions leaves. -/
theorem incremental_eq_rebuild (parseIds : String → Option (List String))
    (o o' : Shuffle ((String × String) × ℕ)) (s : Store) (calls : List (String × String)) :
    (calls.foldl associated (s.rebuildCoRetrievalIndex parseIds o).1).coRetrievalPairs.rows.Perm
      ((calls.foldl associated (s.rebuildCoRetrievalIndex parseIds o).1).rebuildCoRetrievalIndex
        parseIds o').1.coRetrievalPairs.rows :=
  (counts_foldl_associated (counts_rebuild parseIds o s) calls).perm (counts_rebuild parseIds o' _)

end Store

end Spectral
