import Mathlib.Data.List.Perm.Subperm
import Spectral.Lib.Ranking
import Spectral.Ingest.Curate

/-!
# The strongest memories

`list_memories_by_signal` lists the memories with the highest scores, as many as its limit.

* `MemoryRow.Stronger` — the order of the listing, with the id to tell equal scores apart.
* `mem_listMemoriesBySignal_iff` — a memory is listed exactly when fewer memories than the limit are
  stronger; `forall_mem_listMemoriesBySignal_iff` — all are when there is room.
-/

namespace Spectral

open Spectral.Lib

/-- The memory has the higher score, or the same one and the smaller id. -/
def MemoryRow.Stronger (a b : MemoryRow) : Prop :=
  b.signalScore < a.signalScore ∨ a.signalScore = b.signalScore ∧ a.id < b.id

instance : DecidableRel MemoryRow.Stronger := fun a b =>
  inferInstanceAs (Decidable
    (b.signalScore < a.signalScore ∨ a.signalScore = b.signalScore ∧ a.id < b.id))

namespace MemoryRow

variable {a b : MemoryRow}

theorem not_stronger_self (a : MemoryRow) : ¬ a.Stronger a := by
  rintro (h | ⟨-, h⟩)
  · exact lt_irrefl _ h
  · exact lt_irrefl _ h

theorem Stronger.not_stronger (h : a.Stronger b) : ¬ b.Stronger a := by
  rcases h with h | ⟨heq, hid⟩
  · rintro (h' | ⟨heq, -⟩)
    · exact lt_asymm h h'
    · exact h.ne heq
  · rintro (h' | ⟨-, hid'⟩)
    · exact h'.ne heq
    · exact lt_asymm hid hid'

theorem Stronger.signalScore_le (h : a.Stronger b) : b.signalScore ≤ a.signalScore := by
  rcases h with h | ⟨heq, -⟩
  · exact h.le
  · exact heq.ge

theorem StrongerFirst.stronger (h : a.StrongerFirst b) (hid : a.id ≠ b.id) : a.Stronger b :=
  h.imp_right fun ⟨heq, hle⟩ => ⟨heq, lt_of_le_of_ne hle hid⟩

theorem StrongerFirst.signalScore_le (h : a.StrongerFirst b) : b.signalScore ≤ a.signalScore := by
  rcases h with h | ⟨heq, -⟩
  · exact h.le
  · exact heq.ge

theorem total_strongerFirst : Std.Total StrongerFirst :=
  total_then signalScore (total_key id)

theorem isTrans_strongerFirst : IsTrans MemoryRow StrongerFirst :=
  isTrans_then signalScore (isTrans_key id)

end MemoryRow

namespace Store

variable {s : Store} {minSignal : ℚ} {limit : ℕ} {r : MemoryRow}

/-- The rows of a table of memories differ in their ids. -/
theorem pairwise_ids (s : Store) : s.memories.rows.Pairwise fun a b => a.id ≠ b.id :=
  s.memories.unique.imp fun h hid => h (Or.inl hid)

theorem pairwise_strongerFirst (rows : List MemoryRow) :
    (rows.insertionSort MemoryRow.StrongerFirst).Pairwise MemoryRow.StrongerFirst := by
  have htotal := MemoryRow.total_strongerFirst
  have htrans := MemoryRow.isTrans_strongerFirst
  exact List.pairwise_insertionSort _ rows

theorem signalScore_of_mem_listMemoriesBySignal (h : r ∈ s.listMemoriesBySignal minSignal limit) :
    minSignal ≤ r.signalScore :=
  of_decide_eq_true (List.mem_filter.1 ((List.mem_insertionSort _).1 (mem_of_mem_sqlLimit h))).2

theorem pairwise_listMemoriesBySignal (minSignal : ℚ) (limit : ℕ) :
    (s.listMemoriesBySignal minSignal limit).Pairwise MemoryRow.StrongerFirst := by
  unfold listMemoriesBySignal sqlLimit
  split
  · exact (pairwise_strongerFirst _).sublist (List.take_sublist _ _)
  · exact pairwise_strongerFirst _

theorem nodup_listMemoriesBySignal (minSignal : ℚ) (limit : ℕ) :
    (s.listMemoriesBySignal minSignal limit).Nodup := by
  have hsort : ((s.memories.rows.filter fun r => decide (minSignal ≤ r.signalScore)).insertionSort
      MemoryRow.StrongerFirst).Nodup :=
    (List.perm_insertionSort _ _).nodup_iff.2 (s.memories.nodup_rows.filter _)
  unfold listMemoriesBySignal sqlLimit
  split
  · exact hsort.sublist (List.take_sublist _ _)
  · exact hsort

/-- How many memories are stronger. -/
def stronger (s : Store) (r : MemoryRow) : ℕ := s.memories.countWhere fun r' => r'.Stronger r

/-- **A memory is listed** exactly when fewer memories than the limit are stronger. -/
theorem mem_listMemoriesBySignal_iff (hlimit : limit < 2 ^ 63) (hr : r ∈ s.memories)
    (hsignal : minSignal ≤ r.signalScore) :
    r ∈ s.listMemoriesBySignal minSignal limit ↔ s.stronger r < limit := by
  set rows := s.memories.rows.filter fun r => decide (minSignal ≤ r.signalScore) with hrows
  have hids : (rows.insertionSort MemoryRow.StrongerFirst).Pairwise fun a b => a.id ≠ b.id :=
    ((List.perm_insertionSort _ rows).pairwise_iff fun h => Ne.symm h).2
      (s.pairwise_ids.sublist List.filter_sublist)
  have hstrict : (rows.insertionSort MemoryRow.StrongerFirst).Pairwise MemoryRow.Stronger :=
    ((pairwise_strongerFirst rows).and hids).imp fun h => h.1.stronger h.2
  have hmem : r ∈ rows.insertionSort MemoryRow.StrongerFirst :=
    (List.mem_insertionSort _).2 (List.mem_filter.2 ⟨hr, decide_eq_true hsignal⟩)
  -- what is stronger than a listed memory passes the bound on the score
  have hcount : (rows.insertionSort MemoryRow.StrongerFirst).countP
      (fun r' => decide (r'.Stronger r)) = s.stronger r := by
    rw [(List.perm_insertionSort _ rows).countP_eq, hrows, List.countP_filter]
    refine List.countP_congr fun r' _ => ?_
    simp only [Bool.and_eq_true, decide_eq_true_iff]
    exact and_iff_left_of_imp fun h => hsignal.trans h.signalScore_le
  rw [listMemoriesBySignal, sqlLimit, if_pos hlimit, ← hcount]
  exact mem_take_iff_of_pairwise MemoryRow.not_stronger_self (fun _ _ h => h.not_stronger) hstrict hmem

/-- **All are listed** exactly when there is room for them. -/
theorem forall_mem_listMemoriesBySignal_iff :
    (∀ r ∈ s.memories, minSignal ≤ r.signalScore → r ∈ s.listMemoriesBySignal minSignal limit) ↔
      2 ^ 63 ≤ limit ∨ (s.memories.countWhere fun r => decide (minSignal ≤ r.signalScore)) ≤ limit := by
  set rows := s.memories.rows.filter fun r => decide (minSignal ≤ r.signalScore) with hrows
  have hmem : ∀ r, r ∈ rows.insertionSort MemoryRow.StrongerFirst ↔
      r ∈ s.memories ∧ minSignal ≤ r.signalScore := by
    intro r
    rw [List.mem_insertionSort, hrows, List.mem_filter, decide_eq_true_iff]
    exact Iff.rfl
  have hlength : (rows.insertionSort MemoryRow.StrongerFirst).length =
      s.memories.countWhere fun r => decide (minSignal ≤ r.signalScore) := by
    rw [List.length_insertionSort, hrows, ← List.countP_eq_length_filter]
    rfl
  have hnodup : (rows.insertionSort MemoryRow.StrongerFirst).Nodup :=
    (List.perm_insertionSort _ _).nodup_iff.2 (s.memories.nodup_rows.filter _)
  unfold listMemoriesBySignal sqlLimit
  rw [← hrows, ← hlength]
  split
  · rename_i hlimit
    rw [or_iff_right hlimit.not_ge]
    constructor
    · intro hall
      have hsub : (rows.insertionSort MemoryRow.StrongerFirst).Subperm
          ((rows.insertionSort MemoryRow.StrongerFirst).take limit) :=
        List.subperm_of_subset hnodup fun r hr => hall r ((hmem r).1 hr).1 ((hmem r).1 hr).2
      exact hsub.length_le.trans (List.length_take_le _ _)
    · intro hroom r hr hsignal
      rw [List.take_of_length_le hroom]
      exact (hmem r).2 ⟨hr, hsignal⟩
  · rename_i hlimit
    exact iff_of_true (fun r hr hsignal => (hmem r).2 ⟨hr, hsignal⟩) (Or.inl (not_lt.1 hlimit))

end Store

end Spectral
