import Spectral.Ingest.Curate
import Spectral.Recall.Signals

/-!
# The backfill of densities

The backfill asks for the 200 strongest memories, computes the density of those of them that have none,
and goes on as long as that was all of them.  The second time the 200 strongest are the same, and have
one.

* `backfillLoop` — the loop, with fuel.
* `densify` — memories with some ids get the density of their content; that is what a batch does
  (`foldl_fillDensity`).
* `backfillLoop_eq` — the loop ends, with the densities of the 200 strongest computed.
* `backfill_complete_iff` — no memory is left without density exactly if those without are among the
  200 strongest.
-/

namespace Spectral

open Spectral.Lib

section

variable (u : CharTables)

/-- The memory with the density of its content. -/
def MemoryRow.densified (r : MemoryRow) : MemoryRow :=
  { r with declarativeDensity := some (Spectral.declarativeDensity u r.content.toList) }

namespace Store

/-- The density of the memory is computed and stored. -/
def fillDensity (s : Store) (m : MemoryRow) : Store :=
  s.setDeclarativeDensity m.id (declarativeDensity u m.content.toList)

/-- The loop of `backfill_declarative_density`; `none` if the fuel does not suffice. -/
def backfillLoop : ℕ → Store → ℕ → Option (Store × ℕ)
  | 0, _, _ => none
  | fuel + 1, s, total =>
    let batch := (s.listMemoriesBySignal 0 200).filter fun m => m.declarativeDensity = none
    if batch = [] then some (s, total)
    else
      let s := batch.foldl (fillDensity u) s
      if batch.length < 200 then some (s, total + batch.length)
      else backfillLoop fuel s (total + batch.length)

/-- The store with the densities of some memories computed. -/
def densify (ids : List String) (s : Store) : Store :=
  s.updateMemories (fun r => r.id ∈ ids) (MemoryRow.densified u) fun _ => ⟨rfl, rfl⟩

variable {u} {s : Store}

theorem densify_nil : s.densify u [] = s := by
  obtain ⟨⟨rows, hunique⟩⟩ := s
  simp [densify, updateMemories, Table.update]

/-- A memory of the store is one more. -/
theorem fillDensity_densify {ids : List String} {m : MemoryRow} (hm : m ∈ s.memories) :
    (s.densify u ids).fillDensity u m = s.densify u (ids ++ [m.id]) := by
  simp only [fillDensity, setDeclarativeDensity, densify, updateMemories, Table.update, mk.injEq,
    Table.mk.injEq, and_true, List.map_map]
  refine List.map_congr_left fun r hr => ?_
  have hid : (if decide (r.id ∈ ids) = true then r.densified u else r).id = r.id := by
    split <;> rfl
  rw [Function.comp_apply, hid]
  by_cases hrm : r.id = m.id
  · -- it is that row, so the content is that of the memory
    obtain rfl : r = m := Table.eq_of_clash hr hm (Or.inl hrm)
    simp only [decide_true, if_true, List.mem_append, List.mem_singleton, or_true]
    split <;> rfl
  · simp [hrm]

/-- **A batch**: its memories have their densities computed. -/
theorem foldl_fillDensity {batch : List MemoryRow} (hbatch : ∀ m ∈ batch, m ∈ s.memories) :
    batch.foldl (fillDensity u) s = s.densify u (batch.map MemoryRow.id) := by
  induction batch using List.reverseRecOn with
  | nil => exact densify_nil.symm
  | append_singleton batch m ih =>
    rw [List.foldl_append, ih fun m' hm' => hbatch m' (List.mem_append_left _ hm'), List.map_append]
    exact fillDensity_densify (hbatch m (by simp))

/-- The densities change nothing in the order of the memories. -/
theorem listMemoriesBySignal_densify (ids : List String) (minSignal : ℚ) (limit : ℕ) :
    (s.densify u ids).listMemoriesBySignal minSignal limit =
      (s.listMemoriesBySignal minSignal limit).map fun r =>
        if decide (r.id ∈ ids) = true then r.densified u else r :=
  listMemoriesBySignal_updateMemories (g := MemoryRow.densified u) (fun _ => rfl) minSignal limit

/-- The strongest memories that have no density. -/
def undensified (s : Store) : List MemoryRow :=
  (s.listMemoriesBySignal 0 200).filter fun m => m.declarativeDensity = none

/-- Once the densities of the strongest memories are computed, they all have one. -/
theorem undensified_densify : (s.densify u (s.undensified.map MemoryRow.id)).undensified = [] := by
  rw [undensified, listMemoriesBySignal_densify, List.filter_eq_nil_iff]
  intro r' hr'
  obtain ⟨r, hr, rfl⟩ := List.mem_map.1 hr'
  by_cases hnone : r.declarativeDensity = none
  · have hin : r.id ∈ s.undensified.map MemoryRow.id :=
      List.mem_map_of_mem (List.mem_filter.2 ⟨hr, decide_eq_true hnone⟩)
    simp [hin, MemoryRow.densified]
  · split
    · simp [MemoryRow.densified]
    · simpa using hnone

/-- **The loop** ends, after a second round at most. -/
theorem backfillLoop_eq (u : CharTables) (s : Store) (fuel : ℕ) :
    backfillLoop u (fuel + 2) s 0 =
      some (s.densify u (s.undensified.map MemoryRow.id), s.undensified.length) := by
  have hbatch : s.undensified.foldl (fillDensity u) s =
      s.densify u (s.undensified.map MemoryRow.id) :=
    foldl_fillDensity fun m hm => mem_of_mem_listMemoriesBySignal (List.mem_filter.1 hm).1
  rw [backfillLoop]
  change (if s.undensified = [] then some (s, 0)
    else if s.undensified.length < 200 then
      some (s.undensified.foldl (fillDensity u) s, 0 + s.undensified.length)
    else backfillLoop u (fuel + 1) (s.undensified.foldl (fillDensity u) s)
      (0 + s.undensified.length)) = _
  rw [hbatch, Nat.zero_add]
  split
  · rename_i hnone
    rw [hnone, List.map_nil, densify_nil, List.length_nil]
  · split
    · rfl
    · rw [backfillLoop]
      exact if_pos undensified_densify

/-- The memories that are left without density. -/
theorem mem_densify_none {r' : MemoryRow} :
    r' ∈ (s.densify u (s.undensified.map MemoryRow.id)).memories ∧ r'.declarativeDensity = none ↔
      r' ∈ s.memories ∧ r'.declarativeDensity = none ∧ r' ∉ s.listMemoriesBySignal 0 200 := by
  rw [densify, mem_memories_updateMemories]
  constructor
  · rintro ⟨⟨r, hr, rfl⟩, hnone⟩
    by_cases hin : r.id ∈ s.undensified.map MemoryRow.id
    · rw [if_pos (decide_eq_true hin)] at hnone
      cases hnone
    · rw [if_neg (by simpa using hin)] at hnone ⊢
      exact ⟨hr, hnone, fun hlisted =>
        hin (List.mem_map_of_mem (List.mem_filter.2 ⟨hlisted, decide_eq_true hnone⟩))⟩
  · rintro ⟨hr, hnone, hbehind⟩
    refine ⟨⟨r', hr, if_neg fun hin => hbehind ?_⟩, hnone⟩
    obtain ⟨m, hm, hid⟩ := List.mem_map.1 (of_decide_eq_true hin)
    have hlisted := (List.mem_filter.1 hm).1
    obtain rfl : m = r' := Table.eq_of_clash (mem_of_mem_listMemoriesBySignal hlisted) hr (Or.inl hid)
    exact hlisted

end Store

end

namespace Store

/-- **The backfill** returns, and leaves no memory without density exactly if those without are among
the 200 strongest. -/
theorem backfill_complete_iff (u : CharTables) (s : Store) :
    ∃ s' total, (∀ fuel, backfillLoop u (fuel + 2) s 0 = some (s', total)) ∧
      ((∀ r ∈ s'.memories, r.declarativeDensity ≠ none) ↔
        ∀ r ∈ s.memories, r.declarativeDensity = none → r ∈ s.listMemoriesBySignal 0 200) := by
  refine ⟨_, _, backfillLoop_eq u s, ?_⟩
  constructor
  · intro h r hr hnone
    by_contra hbehind
    obtain ⟨hr', hnone'⟩ := mem_densify_none.2 ⟨hr, hnone, hbehind⟩
    exact h r hr' hnone'
  · intro h r hr hnone
    obtain ⟨hr', -, hbehind⟩ := mem_densify_none.1 ⟨hr, hnone⟩
    exact hbehind (h r hr' hnone)

end Store

/-! ## One memory too many -/

/-- A memory without density, by a number for its key. -/
def bareNote (n : ℕ) : MemoryRow :=
  { id := String.ofList (List.replicate (n + 1) '0'), key := String.ofList (List.replicate (n + 1) '0')
    content := "the runbook lives in notion", createdAt := "2026-01-01 09:00:00"
    updatedAt := "2026-01-01 09:00:00" }

theorem bareNote_inj {n n' : ℕ} (h : (bareNote n).Clash (bareNote n')) : n = n' := by
  have hid : String.ofList (List.replicate (n + 1) '0') = String.ofList (List.replicate (n' + 1) '0') :=
    h.elim id id
  simpa using congrArg List.length (String.ofList_inj.1 hid)

/-- As many memories without density as the backfill asks for, and one more. -/
def bareNotes : Store :=
  { memories := ⟨(List.range 201).map bareNote,
      List.pairwise_map.2 (List.nodup_range.imp fun hne h => hne (bareNote_inj h))⟩ }

/-- One of them is left without. -/
theorem bareNotes_incomplete : ∃ s' total, (∀ fuel,
    Store.backfillLoop .ascii (fuel + 2) bareNotes 0 = some (s', total)) ∧
      ∃ r ∈ s'.memories, r.declarativeDensity = none := by
  refine ⟨_, _, Store.backfillLoop_eq .ascii bareNotes, ?_⟩
  by_contra hcomplete
  push Not at hcomplete
  -- otherwise all 201 are among the 200 strongest
  have hlisted : bareNotes.memories.rows ⊆ bareNotes.listMemoriesBySignal 0 200 := by
    intro r hr
    by_contra hbehind
    obtain ⟨n, -, rfl⟩ := List.mem_map.1 hr
    obtain ⟨hr', hnone⟩ := Store.mem_densify_none.2 ⟨hr, rfl, hbehind⟩
    exact hcomplete _ hr' hnone
  have hlength := (List.subperm_of_subset bareNotes.memories.nodup_rows hlisted).length_le
  have hall : bareNotes.memories.rows.length = 201 := by
    rw [bareNotes, List.length_map, List.length_range]
  have hlimit : (bareNotes.listMemoriesBySignal 0 200).length ≤ 200 := by
    rw [Store.listMemoriesBySignal, sqlLimit, if_pos (by decide)]
    exact List.length_take_le _ _
  omega

end Spectral
