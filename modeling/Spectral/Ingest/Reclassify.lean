import Spectral.Ingest.Strongest
import Mathlib.Data.Prod.Lex

/-!
# Filing memories anew

`reclassify_wings_in` runs the current rules over the memories of some wings, or over all, and moves
those that the rules would file elsewhere; without `apply` it only says which.

* `reclassifyWingsIn` — the loop over the memories, and its report.
* `MemoryRow.Moves` — which memories move; `Store.refile` files some of a store's memories anew.
* `reclassifyWingsIn_exact` — the run is one update of the memories that move, the dry run reports
  what the run does, and a second run does nothing.
-/

namespace Spectral

open Spectral.Lib

/-- `WingReclassifyReport`: how many were examined, and the key, the old and the new wing of each
that differs. -/
structure WingReclassifyReport where
  scanned : ℕ
  changes : List (String × String × String)
  applied : Bool
  deriving DecidableEq

/-- What changes are sorted by. -/
def changePlace (c : String × String × String) : String ×ₗ String ×ₗ String :=
  toLex (c.1, toLex (c.2.1, c.2.2))

theorem changePlace_injective : Function.Injective changePlace := fun _ _ h => h

/-- The wing a memory is in, for the report. -/
def MemoryRow.wingOrGeneral (r : MemoryRow) : String := r.wing.getD "general"

section

variable (env : Env) (onlyWings : List String) (apply : Bool)

/-- The wing the rules file a memory under. -/
def MemoryRow.wantedWing (r : MemoryRow) : String := env.classifyWing r.key r.content ""

/-- The wing differs from what the rules say, and is among those to be gone through. -/
def MemoryRow.Misfiled (r : MemoryRow) : Prop :=
  (onlyWings = [] ∨ r.wingOrGeneral ∈ onlyWings) ∧ r.wingOrGeneral ≠ r.wantedWing env

instance (r : MemoryRow) : Decidable (r.Misfiled env onlyWings) :=
  inferInstanceAs (Decidable (_ ∧ _))

/-- The entry of a memory in the report. -/
def MemoryRow.change (r : MemoryRow) : String × String × String :=
  (r.key, r.wingOrGeneral, r.wantedWing env)

/-- One turn of the loop. -/
def reclassifyOne (acc : Store × List (String × String × String)) (m : MemoryRow) :
    Store × List (String × String × String) :=
  if onlyWings ≠ [] ∧ m.wingOrGeneral ∉ onlyWings then acc
  else
    let want := m.wantedWing env
    if m.wingOrGeneral = want then acc
    else (if apply then acc.1.setWing m.key want else acc.1, acc.2 ++ [m.change env])

/-- `reclassify_wings_in`. -/
def reclassifyWingsIn (s : Store) : Store × WingReclassifyReport :=
  let memories := s.listMemoriesBySignal 0 (2 ^ 64 - 1)
  let (s', changes) := memories.foldl (reclassifyOne env onlyWings apply) (s, [])
  (s',
    { scanned := memories.length
      changes := changes.insertionSort fun a b => changePlace a ≤ changePlace b
      applied := apply })

end

/-- `reclassify_wings`. -/
def reclassifyWings (env : Env) (apply : Bool) (s : Store) : Store × WingReclassifyReport :=
  reclassifyWingsIn env [] apply s

variable {env : Env} {onlyWings : List String} {apply : Bool} {s : Store}

/-! ## The loop -/

theorem reclassifyOne_eq (acc : Store × List (String × String × String)) (m : MemoryRow) :
    reclassifyOne env onlyWings apply acc m =
      if m.Misfiled env onlyWings then
        (if apply then acc.1.setWing m.key (m.wantedWing env) else acc.1, acc.2 ++ [m.change env])
      else acc := by
  unfold reclassifyOne
  by_cases hskip : onlyWings ≠ [] ∧ m.wingOrGeneral ∉ onlyWings
  · have hnot : ¬ m.Misfiled env onlyWings := by
      rintro ⟨hall | hmem, -⟩
      · exact hskip.1 hall
      · exact hskip.2 hmem
    rw [if_pos hskip, if_neg hnot]
  · rw [if_neg hskip]
    by_cases hsame : m.wingOrGeneral = m.wantedWing env
    · have hnot : ¬ m.Misfiled env onlyWings := fun h => h.2 hsame
      rw [if_neg hnot]
      exact if_pos hsame
    · have hmis : m.Misfiled env onlyWings := by
        refine ⟨?_, hsame⟩
        by_contra hout
        exact hskip (not_or.1 hout)
      rw [if_pos hmis]
      exact if_neg hsame

/-- The report does not depend on whether the changes are made. -/
theorem changes_foldl_reclassifyOne (ms : List MemoryRow)
    (acc : Store × List (String × String × String)) :
    (ms.foldl (reclassifyOne env onlyWings apply) acc).2 =
      acc.2 ++ (ms.filter fun m => m.Misfiled env onlyWings).map (MemoryRow.change env) := by
  induction ms generalizing acc with
  | nil => simp
  | cons m ms ih =>
    rw [List.foldl_cons, ih, reclassifyOne_eq]
    by_cases hm : m.Misfiled env onlyWings <;> simp [hm]

theorem store_foldl_dry (ms : List MemoryRow) (acc : Store × List (String × String × String)) :
    (ms.foldl (reclassifyOne env onlyWings false) acc).1 = acc.1 := by
  induction ms generalizing acc with
  | nil => rfl
  | cons m ms ih =>
    rw [List.foldl_cons, ih, reclassifyOne_eq]
    split <;> rfl

/-- A memory under the wing the rules file it under. -/
def MemoryRow.refiled (env : Env) (r : MemoryRow) : MemoryRow :=
  { r with wing := some (r.wantedWing env) }

/-- Some of the memories of a store, filed anew. -/
def Store.refile (env : Env) (s : Store) (p : MemoryRow → Bool) : Store :=
  s.updateMemories p (MemoryRow.refiled env) fun _ => ⟨rfl, rfl⟩

theorem Store.refile_congr {p q : MemoryRow → Bool} (h : ∀ r ∈ s.memories, p r = q r) :
    s.refile env p = s.refile env q := by
  have hrows : s.memories.rows.map (fun r => if p r then r.refiled env else r) =
      s.memories.rows.map (fun r => if q r then r.refiled env else r) :=
    List.map_congr_left fun r hr => by rw [h r hr]
  unfold refile updateMemories Table.update
  simp only [hrows]

/-- **One more memory.**  Memories differ in their keys, so the statement moves this one. -/
theorem Store.setWing_refile {p : MemoryRow → Bool} {m : MemoryRow} (hm : m ∈ s.memories) :
    (s.refile env p).setWing m.key (m.wantedWing env) =
      s.refile env fun r => p r || decide (r = m) := by
  have hrows : (s.memories.rows.map fun r => if p r then r.refiled env else r).map
        (fun r => if decide (r.key = m.key) then { r with wing := some (m.wantedWing env) } else r) =
      s.memories.rows.map fun r => if p r || decide (r = m) then r.refiled env else r := by
    rw [List.map_map]
    refine List.map_congr_left fun r hr => ?_
    have hkey : (if p r then r.refiled env else r).key = r.key := by split <;> rfl
    by_cases hrm : r = m
    · subst hrm
      simp only [Function.comp_apply, hkey, decide_true, Bool.or_true, if_true]
      split <;> rfl
    · have hne : r.key ≠ m.key := fun heq => hrm (Store.eq_of_key hr hm heq)
      simp only [Function.comp_apply, hkey, hne, hrm, decide_false, Bool.or_false,
        Bool.false_eq_true, if_false]
  unfold refile setWing updateMemories Table.update
  simp only [hrows]

/-- The run makes the changes, to the memories of the list that are misfiled. -/
theorem store_foldl_refile {ms : List MemoryRow} (hms : ∀ m ∈ ms, m ∈ s.memories)
    (p : MemoryRow → Bool) (changes : List (String × String × String)) :
    (ms.foldl (reclassifyOne env onlyWings true) (s.refile env p, changes)).1 =
      s.refile env fun r => p r || decide (r ∈ ms ∧ r.Misfiled env onlyWings) := by
  induction ms generalizing p changes with
  | nil => simp
  | cons m ms ih =>
    obtain ⟨hm, hrest⟩ := List.forall_mem_cons.1 hms
    rw [List.foldl_cons, reclassifyOne_eq]
    by_cases hmis : m.Misfiled env onlyWings
    · rw [if_pos hmis, if_pos rfl, Store.setWing_refile hm, ih hrest]
      refine Store.refile_congr fun r _ => ?_
      by_cases hrm : r = m
      · simp [hrm, hmis]
      · simp [hrm]
    · rw [if_neg hmis, ih hrest]
      refine Store.refile_congr fun r _ => ?_
      by_cases hrm : r = m
      · simp [hrm, hmis]
      · simp [hrm]

/-! ## The run -/

/-- The memory is examined, and misfiled. -/
def MemoryRow.Moves (env : Env) (onlyWings : List String) (r : MemoryRow) : Prop :=
  0 ≤ r.signalScore ∧ r.Misfiled env onlyWings

instance (r : MemoryRow) : Decidable (r.Moves env onlyWings) :=
  inferInstanceAs (Decidable (_ ∧ _))

theorem Store.refile_false : (s.refile env fun _ => false) = s := by
  unfold refile updateMemories Table.update
  simp

/-- The listing holds every memory with a score that is not negative. -/
theorem mem_listAll {r : MemoryRow} :
    r ∈ s.listMemoriesBySignal 0 (2 ^ 64 - 1) ↔ r ∈ s.memories ∧ 0 ≤ r.signalScore := by
  constructor
  · exact fun h => ⟨Store.mem_of_mem_listMemoriesBySignal h,
      Store.signalScore_of_mem_listMemoriesBySignal h⟩
  · rintro ⟨hr, hsignal⟩
    exact Store.forall_mem_listMemoriesBySignal_iff.2 (Or.inl (by decide)) r hr hsignal

theorem store_reclassifyWingsIn :
    (reclassifyWingsIn env onlyWings true s).1 = s.refile env fun r => r.Moves env onlyWings := by
  have hlisted : ∀ m ∈ s.listMemoriesBySignal 0 (2 ^ 64 - 1), m ∈ s.memories :=
    fun m hm => (mem_listAll.1 hm).1
  have hrun : ((s.listMemoriesBySignal 0 (2 ^ 64 - 1)).foldl (reclassifyOne env onlyWings true)
      (s.refile env fun _ => false, [])).1 = _ := store_foldl_refile hlisted _ []
  rw [Store.refile_false] at hrun
  refine hrun.trans (Store.refile_congr fun r hr => ?_)
  rw [Bool.false_or, decide_eq_decide, mem_listAll, and_assoc]
  exact and_iff_right hr

theorem changes_reclassifyWingsIn :
    (reclassifyWingsIn env onlyWings apply s).2.changes =
      (((s.listMemoriesBySignal 0 (2 ^ 64 - 1)).filter fun m => m.Misfiled env onlyWings).map
        (MemoryRow.change env)).insertionSort fun a b => changePlace a ≤ changePlace b := by
  refine congrArg (List.insertionSort _) ((changes_foldl_reclassifyOne _ _).trans ?_)
  exact List.nil_append _

theorem mem_changes_iff {c : String × String × String} :
    c ∈ (reclassifyWingsIn env onlyWings apply s).2.changes ↔
      ∃ r ∈ s.memories, r.Moves env onlyWings ∧ r.change env = c := by
  rw [changes_reclassifyWingsIn, List.mem_insertionSort, List.mem_map]
  simp only [List.mem_filter, mem_listAll, decide_eq_true_iff, MemoryRow.Moves, and_assoc]

theorem pairwise_changes :
    (reclassifyWingsIn env onlyWings apply s).2.changes.Pairwise
      fun a b => changePlace a < changePlace b := by
  rw [changes_reclassifyWingsIn]
  set listed := (s.listMemoriesBySignal 0 (2 ^ 64 - 1)).filter fun m => m.Misfiled env onlyWings
  have hmem : ∀ m ∈ listed, m ∈ s.memories := fun m hm =>
    (mem_listAll.1 (List.mem_of_mem_filter hm)).1
  have hnodup : (listed.map (MemoryRow.change env)).Nodup := by
    refine List.Nodup.map_on (fun a ha b hb hab => ?_) ((Store.nodup_listMemoriesBySignal _ _).filter _)
    exact Store.eq_of_key (hmem a ha) (hmem b hb) (congrArg Prod.fst hab)
  have hsorted := List.pairwise_insertionSort (fun a b => changePlace a ≤ changePlace b)
    (listed.map (MemoryRow.change env))
  refine (hsorted.and ((List.perm_insertionSort _ _).nodup_iff.2 hnodup)).imp fun h => ?_
  exact lt_of_le_of_ne h.1 fun heq => h.2 (changePlace_injective heq)

theorem scanned_reclassifyWingsIn :
    (reclassifyWingsIn env onlyWings apply s).2.scanned =
      s.memories.countWhere fun r => decide (0 ≤ r.signalScore) := by
  show (s.listMemoriesBySignal 0 (2 ^ 64 - 1)).length = _
  rw [Store.listMemoriesBySignal, sqlLimit, if_neg (by decide), List.length_insertionSort,
    ← List.countP_eq_length_filter]
  rfl

theorem countWhere_refile (p : MemoryRow → Bool) {q : MemoryRow → Bool} (hq : ∀ r, q (r.refiled env) = q r) :
    (s.refile env p).memories.countWhere q = s.memories.countWhere q := by
  show (s.memories.rows.map fun r => if p r then r.refiled env else r).countP q = _
  rw [List.countP_map]
  refine List.countP_congr fun r _ => ?_
  show q (if p r then r.refiled env else r) = true ↔ _
  split
  · rw [hq]
  · exact Iff.rfl

/-- A memory under the wing of the rules is not misfiled, and keeps its score. -/
theorem MemoryRow.not_moves_refiled (r : MemoryRow) : ¬ (r.refiled env).Moves env onlyWings :=
  fun h => h.2.2 rfl

/-- Nothing moves in a store that has been gone through. -/
theorem not_moves_of_mem_refile {r : MemoryRow}
    (hr : r ∈ (s.refile env fun r => r.Moves env onlyWings).memories) :
    ¬ r.Moves env onlyWings := by
  obtain ⟨r', -, rfl⟩ := Store.mem_memories_updateMemories.1 hr
  split
  · exact MemoryRow.not_moves_refiled r'
  · rename_i hstay
    exact fun h => hstay (decide_eq_true h)

/-- **The run.**  It files anew, in one update, the memories that the rules file elsewhere; the dry
run changes nothing and reports the same.  The report has each of these memories once, in order,
and a second run finds nothing. -/
theorem reclassifyWingsIn_exact (env : Env) (onlyWings : List String) (s : Store) :
    (reclassifyWingsIn env onlyWings true s).1 =
        (s.refile env fun r => r.Moves env onlyWings) ∧
      reclassifyWingsIn env onlyWings false s =
        (s, { (reclassifyWingsIn env onlyWings true s).2 with applied := false }) ∧
      (∀ c, c ∈ (reclassifyWingsIn env onlyWings true s).2.changes ↔
        ∃ r ∈ s.memories, r.Moves env onlyWings ∧ r.change env = c) ∧
      (reclassifyWingsIn env onlyWings true s).2.changes.Pairwise
        (fun a b => changePlace a < changePlace b) ∧
      reclassifyWingsIn env onlyWings true (reclassifyWingsIn env onlyWings true s).1 =
        ((reclassifyWingsIn env onlyWings true s).1,
          { (reclassifyWingsIn env onlyWings true s).2 with changes := [] }) := by
  have hstore : (reclassifyWingsIn env onlyWings true s).1 =
      s.refile env fun r => r.Moves env onlyWings := store_reclassifyWingsIn
  refine ⟨hstore, ?_, fun c => mem_changes_iff, pairwise_changes, ?_⟩
  · have hdry : (reclassifyWingsIn env onlyWings false s).1 = s := store_foldl_dry _ _
    refine Prod.ext hdry ?_
    have hsame : (reclassifyWingsIn env onlyWings false s).2.changes =
        (reclassifyWingsIn env onlyWings true s).2.changes := by
      rw [changes_reclassifyWingsIn, changes_reclassifyWingsIn]
    exact congrArg (WingReclassifyReport.mk _ · false) hsame
  · have hnone : ∀ r ∈ (reclassifyWingsIn env onlyWings true s).1.memories,
        ¬ r.Moves env onlyWings := by
      rw [hstore]
      exact fun r => not_moves_of_mem_refile
    refine Prod.ext ?_ ?_
    · rw [store_reclassifyWingsIn]
      refine (Store.refile_congr fun r hr => ?_).trans Store.refile_false
      exact decide_eq_false (hnone r hr)
    · have hchanges : (reclassifyWingsIn env onlyWings true
          (reclassifyWingsIn env onlyWings true s).1).2.changes = [] := by
        refine List.eq_nil_iff_forall_not_mem.2 fun c hc => ?_
        obtain ⟨r, hr, hmoves, -⟩ := mem_changes_iff.1 hc
        exact hnone r hr hmoves
      have hscanned : (reclassifyWingsIn env onlyWings true
          (reclassifyWingsIn env onlyWings true s).1).2.scanned =
            (reclassifyWingsIn env onlyWings true s).2.scanned := by
        rw [scanned_reclassifyWingsIn, scanned_reclassifyWingsIn, hstore]
        exact countWhere_refile _ fun r => rfl
      exact (congrArg₂ (WingReclassifyReport.mk · · true) hscanned hchanges)

end Spectral
