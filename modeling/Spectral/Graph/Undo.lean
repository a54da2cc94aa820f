import Spectral.Graph.Supersession

/-!
# Undoing a supersession

What `undo_supersession` makes of a retirement.  A row that was retired knows the row that survived,
and nothing else of the event.

* `Lands` — a superseding insert that finds both of its entities; `Tidy` — what such calls keep: a
  row that is live was retired by nobody, and the row that retired another is there.
* `triples_undo_insert` — after an insert and its undo the rows are what they were, and the new one
  is retired.
* `triples_undo_retire` — after a verdict among rows that are there the undo is a swap: it takes
  back what the survivor retired, in this event and before, and retires the survivor.
* `undo_reverses` — both, in every run of such calls.
-/

namespace Spectral

open Spectral.Lib

variable {ι : Type}

namespace GraphStore

/-- A superseding insert finds both of its entities. -/
def Lands (g : GraphStore ι) : GraphCall ι → Prop
  | .insertTripleSuperseding t _ _ => g.HasEndpoints t
  | .upsertEntity _ | .insertTriple _ | .retireConflictingObjects .. | .undoSupersession .. => True

instance (g : GraphStore ι) : (c : GraphCall ι) → Decidable (g.Lands c)
  | .insertTripleSuperseding t _ _ => inferInstanceAs (Decidable (g.HasEndpoints t))
  | .upsertEntity _ | .insertTriple _ | .retireConflictingObjects .. | .undoSupersession .. =>
    isTrue trivial

/-- A row among `count` rows: nobody retired it when it is live, and who retired it is among them. -/
structure TidyRow (count : ℕ) (r : TripleRow ι) : Prop where
  live : r.Live → r.supersededBy = none ∧ r.supersededByAgent = none
  by_le : ∀ n, r.supersededBy = some n → n ≤ count

/-- All rows are like that. -/
def Tidy (g : GraphStore ι) : Prop := ∀ r ∈ g.triples, TidyRow g.triples.length r

variable {g : GraphStore ι} {r : TripleRow ι} {count : ℕ}

/-! ## Rows -/

theorem TidyRow.mono {count' : ℕ} (h : TidyRow count r) (hle : count ≤ count') : TidyRow count' r :=
  ⟨h.live, fun n hn => (h.by_le n hn).trans hle⟩

theorem tidyRow_new (t : Triple ι) : TidyRow count { triple := t } :=
  ⟨fun _ => ⟨rfl, rfl⟩, fun _ h => by cases h⟩

/-- What is retired and reinstated is as it was. -/
theorem reinstate_retire {stamp : String} {n : ℕ} {agent : Option String} (h : TidyRow count r)
    (hlive : r.Live) : (r.retire stamp n agent).reinstate = r := by
  obtain ⟨hby, hagent⟩ := h.live hlive
  cases r with
  | mk triple validTo supersededBy supersededByAgent =>
    obtain rfl : validTo = none := hlive
    obtain rfl : supersededBy = none := hby
    obtain rfl : supersededByAgent = none := hagent
    rfl

section

variable {fromId toId : EntityId} {predicate stamp : String} {n : ℕ} {agent : Option String}

theorem TidyRow.retired (h : TidyRow count r) (hn : n ≤ count) :
    TidyRow count (retired fromId predicate toId stamp n agent r) := by
  unfold GraphStore.retired
  split
  · refine ⟨fun hlive => (by cases hlive), fun m hm => ?_⟩
    have hm : some n = some m := hm
    rwa [← Option.some.inj hm]
  · exact h

/-- What a row retired is reinstated, whichever event it was. -/
theorem reinstateRow_retired (h : TidyRow count r) :
    reinstateRow n (GraphStore.retired fromId predicate toId stamp n agent r) =
      reinstateRow n r := by
  by_cases hc : Contradicts fromId predicate toId r
  · have hby : ¬ r.supersededBy = some n := by simp [(h.live hc.2.2).1]
    rw [GraphStore.retired, if_pos hc]
    show (if some n = some n then _ else _) = _
    rw [if_pos rfl, reinstate_retire h hc.2.2, reinstateRow, if_neg hby]
  · rw [GraphStore.retired, if_neg hc]

theorem TidyRow.undoRow {now : String} {rowid : ℕ} (h : TidyRow count r) :
    TidyRow count (undoRow n now rowid r) := by
  have hfirst : TidyRow count (reinstateRow n r) := by
    unfold reinstateRow
    split
    · exact ⟨fun _ => ⟨rfl, rfl⟩, fun _ h => by cases h⟩
    · exact h
  unfold GraphStore.undoRow retireRow
  split
  · exact ⟨fun hlive => (by cases hlive), hfirst.by_le⟩
  · exact hfirst

end

/-! ## Calls -/

variable [LinearOrder ι] {clock : Clock ι}

/-- The calls that land keep the rows tidy. -/
theorem Tidy.call (h : g.Tidy) {c : GraphCall ι} (hlands : g.Lands c) : (g.call clock c).Tidy := by
  cases c with
  | upsertEntity entity => exact h
  | insertTriple t =>
    show ∀ r ∈ (g.insertTriple t).triples, TidyRow (g.insertTriple t).triples.length r
    rw [triples_insertTriple]
    split
    · intro r hr
      rcases List.mem_append.1 hr with hr | hr
      · exact (h r hr).mono (by simp)
      · rw [List.mem_singleton.1 hr]
        exact tidyRow_new t
    · exact h
  | insertTripleSuperseding t agent last =>
    show ∀ r ∈ (g.insertTripleSupersedingBy clock t agent last).1.triples, TidyRow _ r
    by_cases hnew : ∃ r ∈ g.triples, r.triple.edge = t.edge ∧ r.Live
    · have hsame : g.insertTripleSupersedingBy clock t agent last = (g, 0) := if_pos hnew
      rw [GraphStore.call, hsame]
      exact h
    · simp only [GraphStore.call, triples_supersede agent last hlands hnew, List.length_append,
        List.length_map, List.length_cons, List.length_nil]
      intro r hr
      rcases List.mem_append.1 hr with hr | hr
      · obtain ⟨old, hold, rfl⟩ := List.mem_map.1 hr
        exact ((h old hold).mono (Nat.le_succ _)).retired le_rfl
      · rw [List.mem_singleton.1 hr]
        exact tidyRow_new t
  | retireConflictingObjects fromId predicate keep agent now =>
    show (g.retireConflictingObjects clock fromId predicate keep agent now).1.Tidy
    unfold retireConflictingObjects
    split
    · exact h
    · rename_i i hi
      have hlt : i < g.triples.length := (List.findIdx?_eq_some_iff_getElem.1 hi).1
      unfold Tidy
      simp only [triples_retireOthers, List.length_map]
      intro r hr
      obtain ⟨old, hold, rfl⟩ := List.mem_map.1 hr
      exact (h old hold).retired hlt
  | undoSupersession n now =>
    show (g.undoSupersession clock n now).1.Tidy
    unfold undoSupersession
    simp only
    split
    · intro r hr
      obtain ⟨i, hi, rfl⟩ := List.mem_mapIdx.1 hr
      have hlen : (g.triples.mapIdx fun i r => undoRow n (clock.toRfc3339 now) (i + 1) r).length =
          g.triples.length := List.length_mapIdx
      exact hlen ▸ (h _ (List.getElem_mem hi)).undoRow
    · exact h

theorem tidy_run {calls : List (GraphCall ι)}
    (h : AllSteps (call clock) Lands GraphStore.empty calls) :
    (run (call clock) GraphStore.empty calls).Tidy :=
  run_invariant_of_allSteps (fun _ _ htidy => htidy.call) (fun _ hr => absurd hr List.not_mem_nil) h

/-! ## An event and its undo -/

variable (clock) in
/-- A superseding insert, and the undo of the row it adds. -/
def insertAndUndo (t : Triple ι) (agent : Option String) (last : ℕ) (now : ι) (g : GraphStore ι) :
    GraphStore ι :=
  ((g.insertTripleSupersedingBy clock t agent last).1.undoSupersession clock (g.triples.length + 1)
    now).1

/-- The row a verdict makes the survivor, by its place. -/
def survivor (fromId : EntityId) (predicate : String) (keep : EntityId) (g : GraphStore ι) :
    Option ℕ :=
  g.triples.findIdx? fun r => r.triple.edge = (fromId, keep, predicate) ∧ r.Live

variable (clock) in
/-- A verdict, and the undo of the row at `i`. -/
def retireAndUndo (fromId : EntityId) (predicate : String) (keep : EntityId) (agent : String)
    (decided : ι) (i : ℕ) (now : ι) (g : GraphStore ι) : GraphStore ι :=
  ((g.retireConflictingObjects clock fromId predicate keep agent decided).1.undoSupersession clock
    (i + 1) now).1

/-- The rows after an undo that finds something to reinstate. -/
theorem triples_undo {n : ℕ} (now : ι) (hsome : ∃ r ∈ g.triples, r.supersededBy = some n) :
    (g.undoSupersession clock n now).1.triples =
      g.triples.mapIdx fun i r => undoRow n (clock.toRfc3339 now) (i + 1) r := by
  have hcount : 0 < g.triples.countP fun r => r.supersededBy = some n := by
    rw [List.countP_pos_iff]
    simpa using hsome
  unfold undoSupersession
  rw [if_pos hcount]
  rfl

omit [LinearOrder ι] in
/-- An `UPDATE` that retires something leaves a row that says who retired it. -/
theorem exists_supersededBy_of_retired {fromId toId : EntityId} {predicate stamp : String} {n : ℕ}
    {agent : Option String}
    (hsome : 0 < g.triples.countP fun r => Contradicts fromId predicate toId r) :
    ∃ r ∈ g.triples.map (retired fromId predicate toId stamp n agent), r.supersededBy = some n := by
  obtain ⟨r, hr, hc⟩ := List.countP_pos_iff.1 hsome
  refine ⟨_, List.mem_map_of_mem hr, ?_⟩
  rw [retired, if_pos (of_decide_eq_true hc)]
  rfl

omit [LinearOrder ι] in
theorem findTriples_eq_map (fromId toId : Option EntityId) (predicate : Option String) :
    g.findTriples fromId toId predicate = (g.triples.filter fun r =>
      matchesPattern fromId toId predicate r.triple && r.validTo.isNone).map TripleRow.triple := by
  simp [findTriples, findTriplesIncludingSuperseded, List.filter_map, List.filter_filter,
    Function.comp_def, Bool.and_comm]

/-- After an insert and its undo the rows are what they were, and the new row is retired. -/
theorem triples_undo_insert (h : g.Tidy) {t : Triple ι} {agent : Option String} {last : ℕ}
    (hends : g.HasEndpoints t) (hsome : 0 < (g.insertTripleSupersedingBy clock t agent last).2)
    (now : ι) :
    (g.insertAndUndo clock t agent last now).triples =
      g.triples ++ [{ triple := t, validTo := some (clock.toRfc3339 now) }] := by
  have hnew : ¬ ∃ r ∈ g.triples, r.triple.edge = t.edge ∧ r.Live := by
    intro hold
    rw [insertTripleSupersedingBy, if_pos hold] at hsome
    exact absurd hsome (lt_irrefl 0)
  have hby : ∃ r ∈ (g.insertTripleSupersedingBy clock t agent last).1.triples,
      r.supersededBy = some (g.triples.length + 1) := by
    rw [insertTripleSupersedingBy, if_neg hnew] at hsome ⊢
    simp only [triples_retireOthers, if_pos hends]
    exact exists_supersededBy_of_retired hsome
  rw [insertAndUndo, triples_undo now hby, triples_supersede agent last hends hnew,
    List.mapIdx_append]
  congr 1
  · refine List.ext_getElem (by simp) fun i hi hi' => ?_
    have htidy := h _ (List.getElem_mem hi')
    -- no row that was there was retired by a row that was not
    have hother : ¬ g.triples[i].supersededBy = some (g.triples.length + 1) := fun hn => by
      have hle := htidy.by_le _ hn
      omega
    simp only [List.getElem_mapIdx, List.getElem_map]
    rw [undoRow, reinstateRow_retired htidy, reinstateRow, if_neg hother, retireRow, if_neg]
    omega
  · simp [undoRow, reinstateRow, retireRow, TripleRow.Live]

/-- A row after a verdict for the row `n` and its undo. -/
def swapRow (n : ℕ) (stamp : String) (rowid : ℕ) (r : TripleRow ι) : TripleRow ι :=
  if rowid = n then { r with validTo := some stamp } else reinstateRow n r

omit [LinearOrder ι] in
@[simp] theorem swapRow_triple (n : ℕ) (stamp : String) (rowid : ℕ) (r : TripleRow ι) :
    (swapRow n stamp rowid r).triple = r.triple := by
  unfold swapRow
  split
  · rfl
  · exact reinstateRow_triple n r

/-- After a verdict for a row and its undo that row is retired, and what it retired is live, in this
event or before. -/
theorem triples_undo_retire (h : g.Tidy) {fromId keep : EntityId} {predicate agent : String}
    {decided : ι} {i : ℕ}
    (hi : g.survivor fromId predicate keep = some i)
    (hsome : 0 < (g.retireConflictingObjects clock fromId predicate keep agent decided).2)
    (now : ι) :
    (g.retireAndUndo clock fromId predicate keep agent decided i now).triples =
      g.triples.mapIdx fun j r => swapRow (i + 1) (clock.toRfc3339 now) (j + 1) r := by
  have hrows : g.retireConflictingObjects clock fromId predicate keep agent decided =
      g.retireOthers fromId predicate keep (clock.toRfc3339 decided) (i + 1) (some agent) := by
    unfold survivor at hi
    unfold retireConflictingObjects
    rw [hi]
  rw [retireAndUndo]
  rw [hrows] at hsome ⊢
  rw [triples_undo now (by rw [triples_retireOthers]; exact exists_supersededBy_of_retired hsome),
    triples_retireOthers]
  refine List.ext_getElem (by simp) fun j hj hj' => ?_
  rw [List.length_mapIdx] at hj'
  have htidy := h _ (List.getElem_mem hj')
  simp only [List.getElem_mapIdx, List.getElem_map]
  rw [undoRow, reinstateRow_retired htidy, swapRow]
  by_cases hij : j + 1 = i + 1
  · -- the survivor was live, and stays so until the undo
    obtain rfl : j = i := Nat.succ.inj hij
    have hlive : g.triples[j].Live := by
      have hfound := (List.findIdx?_eq_some_iff_getElem.1 hi).2.1
      exact (of_decide_eq_true hfound).2
    have hother : ¬ g.triples[j].supersededBy = some (j + 1) := by simp [(htidy.live hlive).1]
    rw [if_pos hij, reinstateRow, if_neg hother, retireRow, if_pos ⟨hij, hlive⟩]
  · rw [if_neg hij, retireRow, if_neg fun hc => hij hc.1]

omit [LinearOrder ι] in
/-- What is live then. -/
theorem live_swapRow_iff {n rowid : ℕ} {stamp : String} :
    (swapRow n stamp rowid r).Live ↔ rowid ≠ n ∧ (r.Live ∨ r.supersededBy = some n) := by
  by_cases hrow : rowid = n <;> by_cases hby : r.supersededBy = some n <;>
    simp [swapRow, reinstateRow, TripleRow.reinstate, TripleRow.Live, hrow, hby]

/-- An undo reinstates what its row retired, and nothing else. -/
theorem live_of_live_undo {n : ℕ} {now : ι} {i : ℕ} {r' : TripleRow ι}
    (h : (g.undoSupersession clock n now).1.triples[i]? = some r') (hlive : r'.Live) :
    ∃ r, g.triples[i]? = some r ∧ r.triple = r'.triple ∧ (r.Live ∨ r.supersededBy = some n) := by
  unfold undoSupersession at h
  simp only at h
  split at h
  · have hrow : (g.triples.mapIdx fun i r => undoRow n (clock.toRfc3339 now) (i + 1) r)[i]? =
        some r' := h
    rw [List.getElem?_mapIdx, Option.map_eq_some_iff] at hrow
    obtain ⟨r, hr, rfl⟩ := hrow
    refine ⟨r, hr, (undoRow_triple n _ _ r).symm, ?_⟩
    by_cases hby : r.supersededBy = some n
    · exact Or.inr hby
    · refine Or.inl ?_
      rw [undoRow, reinstateRow, if_neg hby, retireRow] at hlive
      split at hlive
      case isTrue hc => exact hc.2
      case isFalse => exact hlive
  · exact ⟨r', h, rfl, Or.inl hlive⟩

/-- A graph that calls which land lead to. -/
def Reached (clock : Clock ι) (g : GraphStore ι) : Prop :=
  ∃ calls, AllSteps (call clock) Lands GraphStore.empty calls ∧
    run (call clock) GraphStore.empty calls = g

/-- In every reached graph: an insert is undone, but for the row it added; a verdict and its undo
are a swap; and an undo reinstates what its row retired, and nothing else. -/
theorem undo_reverses (hg : Reached clock g) :
    (∀ (t : Triple ι) (agent : Option String) (last : ℕ) (now : ι), g.HasEndpoints t →
      0 < (g.insertTripleSupersedingBy clock t agent last).2 →
      (g.insertAndUndo clock t agent last now).triples =
          g.triples ++ [{ triple := t, validTo := some (clock.toRfc3339 now) }] ∧
        ∀ fromId toId predicate,
          (g.insertAndUndo clock t agent last now).findTriples fromId toId predicate =
            g.findTriples fromId toId predicate) ∧
    (∀ (fromId : EntityId) (predicate : String) (keep : EntityId) (agent : String)
        (decided now : ι) (i : ℕ), g.survivor fromId predicate keep = some i →
      0 < (g.retireConflictingObjects clock fromId predicate keep agent decided).2 →
      (g.retireAndUndo clock fromId predicate keep agent decided i now).triples =
          g.triples.mapIdx (fun j r => swapRow (i + 1) (clock.toRfc3339 now) (j + 1) r) ∧
        ∀ t, t ∈ (g.retireAndUndo clock fromId predicate keep agent decided i now).findTriples
            (some fromId) none (some predicate) ↔
          ∃ (j : ℕ) (r : TripleRow ι), g.triples[j]? = some r ∧ r.triple.InSlot fromId predicate ∧
            r.triple = t ∧ j ≠ i ∧ (r.Live ∨ r.supersededBy = some (i + 1))) ∧
    ∀ (n : ℕ) (now : ι) (i : ℕ) (r' : TripleRow ι),
      (g.undoSupersession clock n now).1.triples[i]? = some r' → r'.Live →
      ∃ r : TripleRow ι, g.triples[i]? = some r ∧ r.triple = r'.triple ∧
        (r.Live ∨ r.supersededBy = some n) := by
  obtain ⟨calls, hlands, hrun⟩ := hg
  have htidy : g.Tidy := hrun ▸ tidy_run hlands
  refine ⟨?_, ?_, fun n now i r' => live_of_live_undo⟩
  · intro t agent last now hends hsome
    have hrows := triples_undo_insert htidy hends hsome now
    refine ⟨hrows, fun fromId toId predicate => ?_⟩
    rw [findTriples_eq_map, findTriples_eq_map, hrows]
    simp
  · intro fromId predicate keep agent decided now i hi hsome
    have hrows := triples_undo_retire htidy hi hsome now
    refine ⟨hrows, fun t => ?_⟩
    rw [mem_findTriples, hrows]
    constructor
    · rintro ⟨r', hr', hslot, hlive, rfl⟩
      obtain ⟨j, hj, rfl⟩ := List.mem_mapIdx.1 hr'
      obtain ⟨hne, hbefore⟩ := live_swapRow_iff.1 hlive
      rw [swapRow_triple] at hslot ⊢
      exact ⟨j, _, List.getElem?_eq_getElem hj, hslot, rfl, fun h => hne (h ▸ rfl), hbefore⟩
    · rintro ⟨j, r, hr, hslot, rfl, hne, hbefore⟩
      obtain ⟨hj, rfl⟩ := List.getElem?_eq_some_iff.1 hr
      refine ⟨_, List.mem_mapIdx.2 ⟨j, hj, rfl⟩, by rwa [swapRow_triple], ?_, swapRow_triple ..⟩
      exact live_swapRow_iff.2 ⟨fun h => hne (Nat.succ.inj h), hbefore⟩

end GraphStore

/-! ## Where she lives -/

/-- What a run makes of the first days of the year. -/
def afterCalls (calls : List (GraphCall (Fin 5))) : GraphStore (Fin 5) :=
  run (GraphStore.call newYear) GraphStore.empty
    ([.upsertEntity (place 0), .upsertEntity (place 1), .upsertEntity (place 2),
      .upsertEntity (place 3)] ++ calls)

/-- She is said to live in two places. -/
def disputed : GraphStore (Fin 5) :=
  afterCalls [.insertTriple (livesIn 1 (day 0)), .insertTriple (livesIn 2 (day 1))]

/-- A third place, and a verdict for the second one; both are undone. -/
theorem undo_reverses_disputed :
    (disputed.insertAndUndo newYear (livesIn 3 2) none 0 4).triples =
      disputed.triples ++
        [{ triple := livesIn 3 2, validTo := some (newYear.toRfc3339 4) }] ∧
    (disputed.retireAndUndo newYear (Env.bytesOf 32 0) "lives_in" (Env.bytesOf 32 2) "agent" 3 1
        4).triples =
      disputed.triples.mapIdx fun j r => GraphStore.swapRow 2 (newYear.toRfc3339 4) (j + 1) r :=
  have hreached : GraphStore.Reached newYear disputed := ⟨_, by decide +kernel, rfl⟩
  ⟨((GraphStore.undo_reverses hreached).1 _ _ _ _ (by decide +kernel) (by decide +kernel)).1,
    ((GraphStore.undo_reverses hreached).2.1 _ _ _ _ _ _ _ (by decide +kernel)
      (by decide +kernel)).1⟩

/-- The places where she lives. -/
def homes (g : GraphStore (Fin 5)) : List (Triple (Fin 5)) :=
  g.findTriples (some (Env.bytesOf 32 0)) none (some "lives_in")

/-- The second place has superseded the first, and there is a third. -/
def movedOnce : GraphStore (Fin 5) :=
  afterCalls [.insertTripleSuperseding (livesIn 1 (day 0)) none (day 0),
    .insertTripleSuperseding (livesIn 2 (day 1)) none (day 0), .insertTriple (livesIn 3 (day 2))]

/-- A move to an unknown place: the row id is that of the last entity. -/
def movedAway : GraphStore (Fin 5) :=
  afterCalls [.insertTriple (livesIn 1 (day 0)), .insertTripleSuperseding (livesIn 9 (day 1)) none (day 4),
    .insertTriple (livesIn 2 (day 1)), .insertTriple (livesIn 3 (day 2))]

/-- The verdict for the second place is undone: it is not live any more.  What it superseded before
is live again; and so is what an insert that found no entity retired by a row to come. -/
theorem undo_swaps :
    (homes disputed = [livesIn 1 0, livesIn 2 1] ∧
      homes (disputed.retireAndUndo newYear (Env.bytesOf 32 0) "lives_in" (Env.bytesOf 32 2) "agent"
        3 1 4) = [livesIn 1 0]) ∧
    (homes movedOnce = [livesIn 2 1, livesIn 3 2] ∧
      homes (movedOnce.retireAndUndo newYear (Env.bytesOf 32 0) "lives_in" (Env.bytesOf 32 2)
        "agent" 3 1 4) = [livesIn 1 0, livesIn 3 2]) ∧
    (homes movedAway = [livesIn 2 1, livesIn 3 2] ∧
      homes (movedAway.insertAndUndo newYear (livesIn 1 3) none 0 4) =
        [livesIn 1 0, livesIn 2 1, livesIn 3 2]) := by
  decide +kernel

end Spectral
