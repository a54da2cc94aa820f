import Spectral.Lib.Chunks
import Spectral.Ingest.Curate
import Mathlib.Tactic.Linarith
import Mathlib.Tactic.Ring

/-!
# Reinforcement, batched and one by one

`MemoryStore::reinforce_batch` is a loop over `reinforce_memory`; `SqliteStore` has one statement for
each chunk of keys instead.

* `reinforceLoop` — the loop.
* `reinforceBy` — every memory reinforced a number of times: as often as its key is in the list, or
  in as many chunks as it is in.
* `iterate_reinforced_eq_iff` — when a score is the same after more reinforcements.
* `reinforceBatch_eq_loop_iff` — when both do the same and count the same.
-/

namespace Spectral

open Spectral.Lib

/-! ## A score that is reinforced again and again -/

section

variable {strength score : ℚ}

theorem iterate_reinforced_of_nonneg (h : 0 ≤ strength) (n : ℕ) :
    (reinforced strength)^[n + 1] score = min 1 (score + (n + 1) * strength) := by
  induction n with
  | zero => simp [reinforced]
  | succ n ih =>
    rw [Function.iterate_succ_apply', ih, reinforced, ← min_add_add_right, ← min_assoc,
      min_eq_left (by linarith : (1 : ℚ) ≤ 1 + strength)]
    congr 1
    push_cast
    ring

theorem iterate_reinforced_of_neg (h : strength < 0) (n : ℕ) :
    (reinforced strength)^[n + 1] score = min 1 (score + strength) + n * strength := by
  induction n with
  | zero => simp [reinforced]
  | succ n ih =>
    have hn : (0 : ℚ) ≤ n := Nat.cast_nonneg n
    have hle : min 1 (score + strength) + n * strength + strength ≤ 1 := by
      have := min_le_left 1 (score + strength)
      have := mul_nonneg hn (neg_nonneg.2 h.le)
      linarith
    rw [Function.iterate_succ_apply', ih, reinforced, min_eq_right hle]
    push_cast
    ring

/-- More reinforcements do not change a score if and only if they add nothing, or it has come to one. -/
theorem iterate_reinforced_eq_iff {n m : ℕ} (hpos : 0 < n) (hlt : n < m) :
    (reinforced strength)^[n] score = (reinforced strength)^[m] score ↔
      strength = 0 ∨ 0 < strength ∧ 1 ≤ score + n * strength := by
  obtain ⟨n, rfl⟩ := Nat.exists_eq_succ_of_ne_zero hpos.ne'
  obtain ⟨m, rfl⟩ := Nat.exists_eq_succ_of_ne_zero (show m ≠ 0 by omega)
  have hcast : ((n + 1 : ℕ) : ℚ) + 1 ≤ (m + 1 : ℕ) := by exact_mod_cast hlt
  rcases lt_trichotomy strength 0 with hneg | rfl | hstrength
  · rw [Nat.succ_eq_add_one, iterate_reinforced_of_neg hneg, iterate_reinforced_of_neg hneg]
    refine iff_of_false (fun heq => ?_) fun hor => ?_
    · have hmore : (m : ℚ) * strength < n * strength :=
        mul_lt_mul_of_neg_right (by push_cast at hcast; linarith) hneg
      linarith
    · rcases hor with hzero | ⟨hstrength, -⟩
      · exact hneg.ne hzero
      · exact lt_asymm hneg hstrength
  · rw [Nat.succ_eq_add_one, iterate_reinforced_of_nonneg le_rfl, iterate_reinforced_of_nonneg le_rfl]
    simp
  · have hmore : score + (n + 1 : ℕ) * strength < score + (m + 1 : ℕ) * strength := by
      have := mul_lt_mul_of_pos_right (show ((n + 1 : ℕ) : ℚ) < (m + 1 : ℕ) by linarith) hstrength
      linarith
    rw [Nat.succ_eq_add_one, iterate_reinforced_of_nonneg hstrength.le,
      iterate_reinforced_of_nonneg hstrength.le, or_iff_right hstrength.ne', and_iff_right hstrength]
    push_cast at hmore ⊢
    constructor
    · intro heq
      by_contra hone
      rw [min_eq_right (not_le.1 hone).le] at heq
      rcases min_choice 1 (score + (m + 1) * strength) with hmin | hmin <;> rw [hmin] at heq <;> linarith
    · intro hone
      rw [min_eq_left hone, min_eq_left (by linarith)]

end

/-! ## A memory that is reinforced a number of times -/

namespace MemoryRow

variable {strength : ℚ} {now : String}

theorem iterate_reinforce_succ (n : ℕ) (r : MemoryRow) :
    (reinforce strength now)^[n + 1] r =
      { r with
        signalScore := (reinforced strength)^[n + 1] r.signalScore
        lastReinforcedAt := some now
        updatedAt := now } := by
  induction n with
  | zero => rfl
  | succ n ih =>
    rw [Function.iterate_succ_apply', ih, Function.iterate_succ_apply' (reinforced strength) (n + 1)]
    rfl

/-- Reinforcement leaves what identifies a memory, and its wing. -/
theorem iterate_reinforce_same (strength : ℚ) (now : String) (n : ℕ) (r : MemoryRow) :
    ((reinforce strength now)^[n] r).id = r.id ∧ ((reinforce strength now)^[n] r).key = r.key ∧
      ((reinforce strength now)^[n] r).wing = r.wing := by
  cases n with
  | zero => exact ⟨rfl, rfl, rfl⟩
  | succ n =>
    rw [iterate_reinforce_succ]
    exact ⟨rfl, rfl, rfl⟩

/-- Fewer reinforcements do the same as more. -/
theorem iterate_reinforce_eq_iff {n m : ℕ} {r : MemoryRow} (hle : n ≤ m) (hzero : n = 0 → m = 0) :
    (reinforce strength now)^[n] r = (reinforce strength now)^[m] r ↔
      n = m ∨ strength = 0 ∨ 0 < strength ∧ 1 ≤ r.signalScore + n * strength := by
  rcases Nat.eq_or_lt_of_le hle with rfl | hlt
  · simp
  obtain ⟨k, rfl⟩ := Nat.exists_eq_succ_of_ne_zero (show n ≠ 0 from fun hn => by
    have := hzero hn
    omega)
  obtain ⟨l, rfl⟩ := Nat.exists_eq_succ_of_ne_zero (show m ≠ 0 by omega)
  rw [or_iff_right hlt.ne, ← iterate_reinforced_eq_iff (Nat.succ_pos k) hlt, Nat.succ_eq_add_one,
    Nat.succ_eq_add_one, iterate_reinforce_succ, iterate_reinforce_succ]
  exact ⟨fun h => congrArg MemoryRow.signalScore h, fun h => by rw [h]⟩

end MemoryRow

namespace Store

variable {s : Store} {now : String} {strength : ℚ}

/-- The store after each memory is reinforced so many times. -/
def reinforceBy (now : String) (strength : ℚ) (times : String → ℕ) (s : Store) : Store :=
  s.updateMemories (fun _ => true) (fun r => (MemoryRow.reinforce strength now)^[times r.key] r)
    fun r => ⟨(MemoryRow.iterate_reinforce_same _ _ _ r).1, (MemoryRow.iterate_reinforce_same _ _ _ r).2.1⟩

theorem reinforceBy_zero : s.reinforceBy now strength (fun _ => 0) = s := by
  obtain ⟨⟨rows, hunique⟩⟩ := s
  simp [reinforceBy, updateMemories, Table.update]

theorem reinforceBy_eq_iff {times times' : String → ℕ} :
    s.reinforceBy now strength times = s.reinforceBy now strength times' ↔ ∀ r ∈ s.memories,
      (MemoryRow.reinforce strength now)^[times r.key] r =
        (MemoryRow.reinforce strength now)^[times' r.key] r := by
  simp only [reinforceBy, updateMemories, Table.update, ↓reduceIte, mk.injEq, Table.mk.injEq, and_true,
    List.map_inj_left, Table.mem_rows]

/-- One more statement: the memories under some of the keys are reinforced once more. -/
theorem updateMemories_reinforceBy (times : String → ℕ) (p : String → Bool) :
    (s.reinforceBy now strength times).updateMemories (fun r => p r.key)
        (MemoryRow.reinforce strength now) (fun _ => ⟨rfl, rfl⟩) =
      s.reinforceBy now strength fun key => times key + if p key then 1 else 0 := by
  simp only [reinforceBy, updateMemories, Table.update, ↓reduceIte, mk.injEq, Table.mk.injEq, and_true,
    List.map_map]
  refine List.map_congr_left fun r _ => ?_
  simp only [Function.comp_apply, (MemoryRow.iterate_reinforce_same _ _ _ r).2.1]
  split
  · rw [Function.iterate_succ_apply']
  · rfl

theorem exists_mem_reinforceBy {times : String → ℕ} {P : String → Option String → Prop} :
    (∃ r ∈ s.reinforceBy now strength times |>.memories, P r.key r.wing) ↔
      ∃ r ∈ s.memories, P r.key r.wing := by
  constructor
  · rintro ⟨r', hr', hP⟩
    obtain ⟨r, hr, rfl⟩ := mem_memories_updateMemories.1 hr'
    obtain ⟨-, hkey, hwing⟩ := MemoryRow.iterate_reinforce_same strength now (times r.key) r
    refine ⟨r, hr, ?_⟩
    simpa only [↓reduceIte, hkey, hwing] using hP
  · rintro ⟨r, hr, hP⟩
    obtain ⟨-, hkey, hwing⟩ := MemoryRow.iterate_reinforce_same strength now (times r.key) r
    refine ⟨_, mem_memories_updateMemories.2 ⟨r, hr, rfl⟩, ?_⟩
    simpa only [↓reduceIte, hkey, hwing] using hP

theorem countP_reinforceBy {times : String → ℕ} (q : String → Option String → Bool) :
    ((s.reinforceBy now strength times).memories.rows.countP fun r => q r.key r.wing) =
      s.memories.rows.countP fun r => q r.key r.wing := by
  simp only [reinforceBy, updateMemories, Table.update, ↓reduceIte, List.countP_map]
  refine List.countP_congr fun r _ => ?_
  obtain ⟨-, hkey, hwing⟩ := MemoryRow.iterate_reinforce_same strength now (times r.key) r
  rw [Function.comp_apply, hkey, hwing]

/-! ## The batch -/

/-- What some chunks leave, whose wings are invalidated, and how many rows they update. -/
theorem foldl_reinforceChunk (now : String) (strength : ℚ) (s : Store) (chunks : List (List String)) :
    (chunks.foldl (reinforceChunk now strength) (s, [], 0)).1 =
        s.reinforceBy now strength (mentions chunks) ∧
      (∀ w, w ∈ (chunks.foldl (reinforceChunk now strength) (s, [], 0)).2.1 ↔
        ∃ r ∈ s.memories, r.key ∈ chunks.flatten ∧ r.wing = some w) ∧
      (chunks.foldl (reinforceChunk now strength) (s, [], 0)).2.2 =
        (chunks.map fun chunk => s.memories.rows.countP fun r => decide (r.key ∈ chunk)).sum := by
  induction chunks using List.reverseRecOn with
  | nil => exact ⟨reinforceBy_zero.symm, by simp, rfl⟩
  | append_singleton chunks chunk ih =>
    obtain ⟨hstore, hwings, hcount⟩ := ih
    rw [List.foldl_append, List.foldl_cons, List.foldl_nil]
    simp only [reinforceChunk, hstore, hcount, List.mem_append, hwings]
    refine ⟨?_, fun w => ?_, ?_⟩
    · rw [updateMemories_reinforceBy _ fun key => decide (key ∈ chunk)]
      refine congrArg (fun times => s.reinforceBy now strength times) (funext fun key => ?_)
      simp only [mentions_concat, decide_eq_true_eq]
    · rw [mem_wingsOf, exists_mem_reinforceBy (P := fun key wing => key ∈ chunk ∧ wing = some w),
        List.flatten_append, List.flatten_cons, List.flatten_nil, List.append_nil]
      simp only [List.mem_append, or_and_right, and_or_left, exists_or]
    · rw [List.map_append, List.sum_append, List.map_cons, List.map_nil, List.sum_singleton]
      exact congrArg _ (countP_reinforceBy fun key _ => decide (key ∈ chunk))

/-! ## The loop -/

/-- One key in the default `reinforce_batch`: it is counted when `reinforce_memory` returns a wing. -/
def reinforceNext (now : String) (strength : ℚ) (acc : Store × List String × ℕ) (key : String) :
    Store × List String × ℕ :=
  let (s, wing) := acc.1.reinforceMemory now key strength
  (s, acc.2.1 ++ wing.toList, if wing.isSome then acc.2.2 + 1 else acc.2.2)

/-- The default `reinforce_batch` of `MemoryStore`. -/
def reinforceLoop (now : String) (keys : List String) (strength : ℚ) (s : Store) :
    Store × List String × ℕ :=
  keys.foldl (reinforceNext now strength) (s, [], 0)

theorem wing_of_key {key w : String} :
    (s.memoryByKey key).bind MemoryRow.wing = some w ↔
      ∃ r ∈ s.memories, r.key = key ∧ r.wing = some w := by
  simp only [Option.bind_eq_some_iff, memoryByKey_eq_some, and_assoc]

/-- What the loop leaves, whose wings are invalidated, and how many memories it counts. -/
theorem foldl_reinforceNext (now : String) (strength : ℚ) (s : Store) (keys : List String) :
    (s.reinforceLoop now keys strength).1 = s.reinforceBy now strength (fun key => keys.count key) ∧
      (∀ w, w ∈ (s.reinforceLoop now keys strength).2.1 ↔
        ∃ r ∈ s.memories, r.key ∈ keys ∧ r.wing = some w) ∧
      (s.reinforceLoop now keys strength).2.2 = (keys.map fun key =>
        s.memories.rows.countP fun r => decide (r.key = key) && r.wing.isSome).sum := by
  induction keys using List.reverseRecOn with
  | nil => exact ⟨reinforceBy_zero.symm, by simp [reinforceLoop], rfl⟩
  | append_singleton keys key ih =>
    obtain ⟨hstore, hwings, hcount⟩ := ih
    have hloop : s.reinforceLoop now (keys ++ [key]) strength =
        reinforceNext now strength (s.reinforceLoop now keys strength) key := List.foldl_append
    have hwing : ((s.reinforceLoop now keys strength).1.memoryByKey key).bind MemoryRow.wing =
        (s.memoryByKey key).bind MemoryRow.wing := by
      refine Option.ext fun w => ?_
      rw [hstore, wing_of_key, wing_of_key]
      exact exists_mem_reinforceBy (P := fun k wing => k = key ∧ wing = some w)
    rw [hloop, reinforceNext, reinforceMemory]
    dsimp only
    rw [hwing, hstore, hcount]
    refine ⟨?_, fun w => ?_, ?_⟩
    · rw [updateMemories_reinforceBy _ fun k => decide (k = key)]
      refine congrArg (fun times => s.reinforceBy now strength times) (funext fun k => ?_)
      simp only [List.count_append, List.count_singleton, decide_eq_true_eq, beq_iff_eq, @eq_comm _ k]
    · rw [List.mem_append, hwings, Option.mem_toList, wing_of_key]
      simp only [List.mem_append, List.mem_singleton, or_and_right, exists_or, and_or_left]
    · rw [List.map_append, List.sum_append, List.map_cons, List.map_nil, List.sum_singleton]
      have honce : s.memories.rows.Pairwise fun a b =>
          ¬ ((decide (a.key = key) && a.wing.isSome) = true ∧
            (decide (b.key = key) && b.wing.isSome) = true) := by
        refine s.memories.unique.imp fun {a b} hclash hboth => ?_
        simp only [Bool.and_eq_true, decide_eq_true_eq] at hboth
        exact hclash (Or.inr (hboth.1.1.trans hboth.2.1.symm))
      rw [countP_eq_ite honce]
      have hsome : ((s.memoryByKey key).bind MemoryRow.wing).isSome = true ↔
          ∃ r ∈ s.memories.rows, (decide (r.key = key) && r.wing.isSome) = true := by
        rw [Option.isSome_iff_exists]
        simp only [wing_of_key, Bool.and_eq_true, decide_eq_true_eq, Option.isSome_iff_exists]
        constructor
        · rintro ⟨w, r, hr, hkey, hw⟩
          exact ⟨r, hr, hkey, w, hw⟩
        · rintro ⟨r, hr, hkey, w, hw⟩
          exact ⟨w, r, hr, hkey, hw⟩
      by_cases h : ∃ r ∈ s.memories.rows, (decide (r.key = key) && r.wing.isSome) = true
      · rw [if_pos h, if_pos (hsome.2 h)]
      · rw [if_neg h, if_neg (mt hsome.1 h), Nat.add_zero]

/-! ## Both -/

/-- What the batch and the loop leave, count and invalidate is the same. -/
structure SameReinforcement (now : String) (keys : List String) (strength : ℚ) (s : Store) : Prop where
  store : (s.reinforceBatch now keys strength).1 = (s.reinforceLoop now keys strength).1
  count : (s.reinforceBatch now keys strength).2.2 = (s.reinforceLoop now keys strength).2.2
  wings : ∀ w, w ∈ (s.reinforceBatch now keys strength).2.1 ↔
    w ∈ (s.reinforceLoop now keys strength).2.1

/-- In how many chunks of a batch a key occurs. -/
def batched (keys : List String) (key : String) : ℕ := mentions (keys.toChunks 900) key

theorem batched_le_count {keys : List String} {key : String} : batched keys key ≤ keys.count key := by
  have hle : batched keys key ≤ (keys.toChunks 900).flatten.count key := mentions_le_count
  rwa [flatten_toChunks] at hle

theorem count_eq_zero_of_batched {keys : List String} {key : String} (h : batched keys key = 0) :
    keys.count key = 0 := by
  have hpos : 0 < batched keys key ↔ key ∈ (keys.toChunks 900).flatten := mentions_pos
  rw [flatten_toChunks] at hpos
  exact List.count_eq_zero.2 fun hmem => by
    have := hpos.2 hmem
    omega

/-- The condition: a key repeated in a chunk is that of a memory whose score does not change any more,
and the memories without a wing are mentioned in as many chunks as there are repetitions of others. -/
structure Repeats (keys : List String) (strength : ℚ) (s : Store) : Prop where
  scores : ∀ r ∈ s.memories, batched keys r.key = keys.count r.key ∨ strength = 0 ∨
    0 < strength ∧ 1 ≤ r.signalScore + batched keys r.key * strength
  counts : ((s.memories.rows.filter fun r => r.wing.isNone).map fun r => batched keys r.key).sum =
    ((s.memories.rows.filter fun r => r.wing.isSome).map fun r =>
      keys.count r.key - batched keys r.key).sum

/-- The rows the statements of the batch update, memory by memory. -/
theorem count_reinforceBatch (now : String) (keys : List String) (strength : ℚ) (s : Store) :
    (s.reinforceBatch now keys strength).2.2 =
      (s.memories.rows.map fun r => batched keys r.key).sum := by
  rw [reinforceBatch, (foldl_reinforceChunk now strength s _).2.2]
  exact sum_countP_comm (fun chunk (r : MemoryRow) => decide (r.key ∈ chunk)) _ _

/-- The calls of the loop that return a wing, memory by memory. -/
theorem count_reinforceLoop (now : String) (keys : List String) (strength : ℚ) (s : Store) :
    (s.reinforceLoop now keys strength).2.2 =
      (s.memories.rows.map fun r => if r.wing.isSome then keys.count r.key else 0).sum := by
  rw [(foldl_reinforceNext now strength s keys).2.2,
    sum_countP_comm fun key (r : MemoryRow) => decide (r.key = key) && r.wing.isSome]
  refine congrArg List.sum (List.map_congr_left fun r _ => ?_)
  cases r.wing.isSome with
  | false => simp
  | true =>
    simp only [Bool.and_true, ↓reduceIte, List.count]
    refine List.countP_congr fun key _ => ?_
    rw [decide_eq_true_eq, beq_iff_eq, eq_comm]

/-- The batch and the loop agree if and only if this is so. -/
theorem reinforceBatch_eq_loop_iff (now : String) (keys : List String) (strength : ℚ) (s : Store) :
    s.SameReinforcement now keys strength ↔ s.Repeats keys strength := by
  have hscores : (s.reinforceBatch now keys strength).1 = (s.reinforceLoop now keys strength).1 ↔
      ∀ r ∈ s.memories, batched keys r.key = keys.count r.key ∨ strength = 0 ∨
        0 < strength ∧ 1 ≤ r.signalScore + batched keys r.key * strength := by
    rw [reinforceBatch, (foldl_reinforceChunk now strength s _).1,
      (foldl_reinforceNext now strength s keys).1, reinforceBy_eq_iff]
    exact forall₂_congr fun r _ =>
      MemoryRow.iterate_reinforce_eq_iff batched_le_count count_eq_zero_of_batched
  have hcounts : (s.reinforceBatch now keys strength).2.2 = (s.reinforceLoop now keys strength).2.2 ↔
      ((s.memories.rows.filter fun r => r.wing.isNone).map fun r => batched keys r.key).sum =
        ((s.memories.rows.filter fun r => r.wing.isSome).map fun r =>
          keys.count r.key - batched keys r.key).sum := by
    rw [count_reinforceBatch, count_reinforceLoop,
      sum_eq_sum_ite_iff (fun r : MemoryRow => batched_le_count) fun r => r.wing.isSome]
    simp only [Option.not_isSome]
  have hwings : ∀ w, w ∈ (s.reinforceBatch now keys strength).2.1 ↔
      w ∈ (s.reinforceLoop now keys strength).2.1 := by
    intro w
    rw [reinforceBatch, (foldl_reinforceChunk now strength s _).2.1,
      (foldl_reinforceNext now strength s keys).2.1, flatten_toChunks]
  exact ⟨fun h => ⟨hscores.1 h.store, hcounts.1 h.count⟩,
    fun h => ⟨hscores.2 h.scores, hcounts.2 h.counts, hwings⟩⟩

/-! ## One note -/

/-- A note in a wing, or in none. -/
def noteIn (wing : Option String) : Store :=
  (Env.ofRecords [] []).write "2026-01-01 09:00:00" {}
    { id := "0aa1", key := "note", content := "ship on monday", wing } []

/-- A note that is named twice is reinforced once by the batch, and twice by the loop; one without a
wing is counted by the batch, and not by the loop. -/
theorem not_sameReinforcement :
    ¬ (noteIn (some "work")).SameReinforcement "2026-01-02 09:00:00" ["note", "note"] (1 / 10) ∧
      ¬ (noteIn none).SameReinforcement "2026-01-02 09:00:00" ["note"] (1 / 10) := by
  constructor
  · intro h
    exact absurd h.store (by decide +kernel)
  · intro h
    exact absurd h.count (by decide +kernel)

end Store

end Spectral
