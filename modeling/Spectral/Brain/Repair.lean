import Spectral.Brain.Remember

/-!
# Repair

`Brain::repair_derivations` walks over the memories, the strongest first, gives each the
density and the signature it lacks, and enrolls it; when the walk took in all of them, it also
drops the entries of the index that belong to none.

* `repairOne`, `repairWalk` — the walk; an enrolment that fails ends it.
* `pruneOrphans` — the other direction.
* `moves_repairDerivations` — a repair is a sequence of moves.
-/

namespace Spectral

open Spectral.Lib

/-- `DerivationRepairReport`. -/
structure DerivationRepairReport where
  scanned : ℕ := 0
  contentHashesRepaired : ℕ := 0
  densitiesRepaired : ℕ := 0
  signaturesRepaired : ℕ := 0
  recognitionEnrollmentsRefreshed : ℕ := 0
  orphanedEnrollmentsPruned : ℕ := 0
  deriving DecidableEq, Repr

namespace BrainState

variable {L : WingCache}

section

variable (S : BrainSetup) (now : String) (faults : RecognitionFaults)

/-- The density of a memory that has none. -/
def repairDensity (b : BrainState L) (report : DerivationRepairReport) (memory : MemoryRow) :
    BrainState L × DerivationRepairReport :=
  if memory.declarativeDensity = none then
    (b.applyStore S ⟨.setDeclarativeDensity memory.id (S.declarativeDensity memory.content), now⟩,
      { report with densitiesRepaired := report.densitiesRepaired + 1 })
  else (b, report)

/-- The signature of a memory that has none, under the identity of this brain. -/
def repairSignature (b : BrainState L) (report : DerivationRepairReport) (memory : MemoryRow) :
    BrainState L × DerivationRepairReport :=
  match memory.signature, memory.signedFields with
  | none, some fields =>
    (b.signAs S now memory.id fields,
      { report with
        signaturesRepaired := report.signaturesRepaired +
          b.cached.store.memories.countWhere fun r => r.id = memory.id })
  | _, _ => (b, report)

/-- One memory of the walk. -/
def repairOne (b : BrainState L) (report : DerivationRepairReport) (memory : MemoryRow) :
    BrainState L × Except String DerivationRepairReport :=
  let dense := b.repairDensity S now report memory
  let signed := dense.1.repairSignature S now dense.2 memory
  match signed.1.index.enroll S.rc (faults.enroll memory.id) memory.id memory.content with
  | (index, .ok _) =>
    ({ signed.1 with index }, .ok { signed.2 with
      recognitionEnrollmentsRefreshed := signed.2.recognitionEnrollmentsRefreshed + 1 })
  | (index, .error e) => ({ signed.1 with index }, .error ("recognition repair failed: " ++ e))

/-- The walk. -/
def repairWalk (b : BrainState L) (report : DerivationRepairReport) :
    List MemoryRow → BrainState L × Except String DerivationRepairReport
  | [] => (b, .ok report)
  | memory :: memories =>
    match b.repairOne S now faults report memory with
    | (b, .ok report) => b.repairWalk report memories
    | (b, .error e) => (b, .error e)

/-- The delete of one entry of the index that belongs to no live memory. -/
def pruneOne (acc : BrainState L × DerivationRepairReport) (id : String) :
    BrainState L × DerivationRepairReport :=
  ({ acc.1 with index := (acc.1.index.forget id).1 }, { acc.2 with
    orphanedEnrollmentsPruned :=
      acc.2.orphanedEnrollmentsPruned + (acc.1.index.forget id).2.toNat })

/-- The entries of the index that belong to no live memory are dropped. -/
def pruneOrphans (b : BrainState L) (report : DerivationRepairReport) (live : List String) :
    BrainState L × DerivationRepairReport :=
  ((if faults.enrolledIds = true then [] else b.index.enrolledIds).filter fun id =>
    decide (id ∉ live) && !faults.forget id).foldl pruneOne (b, report)

/-- The memories a repair walks over. -/
def repairScan (b : BrainState L) (limit : ℕ) : List MemoryRow :=
  (b.applyStore S ⟨.backfillContentHashes, now⟩).cached.store.listMemoriesBySignal 0 limit

/-- `repair_derivations`. -/
def repairDerivations (b : BrainState L) (limit : ℕ) :
    BrainState L × Except String DerivationRepairReport :=
  let hashed := b.applyStore S ⟨.backfillContentHashes, now⟩
  let memories := b.repairScan S now limit
  let report : DerivationRepairReport :=
    { scanned := memories.length
      contentHashesRepaired := b.cached.store.memories.countWhere fun r => r.contentHash = none }
  match hashed.repairWalk S now faults report memories with
  | (b, .error e) => (b, .error e)
  | (b, .ok report) =>
    if report.scanned < limit then
      let pruned := b.pruneOrphans faults report (memories.map MemoryRow.id)
      (pruned.1, .ok pruned.2)
    else (b, .ok report)

end

/-- The walk sees the memories as they are, with their hashes. -/
theorem repairScan_eq {S : BrainSetup} {now : String} {b : BrainState L} {limit : ℕ} :
    b.repairScan S now limit =
      (b.cached.store.listMemoriesBySignal 0 limit).map fun r => if r.contentHash = none then
        { r with contentHash := some (S.env.contentHash r.content) } else r := by
  have hhashed : (b.applyStore S ⟨.backfillContentHashes, now⟩).cached.store =
      b.cached.store.backfillContentHashes S.env := rfl
  unfold repairScan
  rw [hhashed]
  unfold Store.backfillContentHashes
  rw [Store.listMemoriesBySignal_updateMemories]
  · simp only [decide_eq_true_iff]
  · exact fun r => rfl

/-- A prune leaves the store alone. -/
theorem store_pruneOrphans {faults : RecognitionFaults} {b : BrainState L}
    {report : DerivationRepairReport} {live : List String} :
    (b.pruneOrphans faults report live).1.cached.store = b.cached.store := by
  unfold pruneOrphans
  generalize (if faults.enrolledIds = true then [] else b.index.enrolledIds).filter _ = ids
  induction ids using List.reverseRecOn with
  | nil => rfl
  | append_singleton ids id ih =>
    rw [List.foldl_append, List.foldl_cons, List.foldl_nil]
    exact ih

/-- **A prune** keeps what is live, and what it cannot list or drop. -/
theorem mem_enrolled_pruneOrphans_iff {faults : RecognitionFaults} {b : BrainState L}
    {report : DerivationRepairReport} {live : List String} {id : String} :
    id ∈ (b.pruneOrphans faults report live).1.index.enrolled ↔ id ∈ b.index.enrolled ∧
      (id ∈ live ∨ faults.enrolledIds = true ∨ faults.forget id = true) := by
  have hfold : ∀ ids : List String,
      id ∈ (ids.foldl pruneOne (b, report)).1.index.enrolled ↔ id ∈ b.index.enrolled ∧ id ∉ ids := by
    intro ids
    induction ids using List.reverseRecOn with
    | nil => simp
    | append_singleton ids id' ih =>
      rw [List.foldl_append, List.foldl_cons, List.foldl_nil]
      refine RecognitionIndex.mem_enrolled_forget.trans ?_
      rw [ih, List.mem_append, List.mem_singleton, not_or, and_assoc]
  have hlisted : id ∈ b.index.enrolledIds ↔ id ∈ b.index.enrolled := List.mem_insertionSort _
  unfold pruneOrphans
  rw [hfold, List.mem_filter]
  refine and_congr_right fun hid => ?_
  cases faults.enrolledIds with
  | true => simp
  | false =>
    cases faults.forget id with
    | true => simp
    | false => simp [hlisted, hid]

/-! ## Moves -/

variable {S : BrainSetup} {now : String} {faults : RecognitionFaults} {b : BrainState L}
  {report report' : DerivationRepairReport} {memory : MemoryRow}

theorem scanned_repairDensity : (b.repairDensity S now report memory).2.scanned = report.scanned := by
  unfold repairDensity
  split <;> rfl

theorem scanned_repairSignature :
    (b.repairSignature S now report memory).2.scanned = report.scanned := by
  unfold repairSignature
  split <;> rfl

theorem scanned_repairWalk {b' : BrainState L} {memories : List MemoryRow}
    (h : b.repairWalk S now faults report memories = (b', .ok report')) :
    report'.scanned = report.scanned := by
  induction memories generalizing b report with
  | nil =>
    cases h
    rfl
  | cons memory memories ih =>
    unfold repairWalk at h
    split at h
    · rename_i b₁ report₁ hone
      rw [ih h]
      unfold repairOne at hone
      dsimp only at hone
      split at hone
      · cases hone
        exact scanned_repairSignature.trans scanned_repairDensity
      · cases hone
    · cases h

theorem moves_repairDensity : Moves S b (b.repairDensity S now report memory).1 := by
  unfold repairDensity
  split
  · exact .single (.applyStore _)
  · exact .refl

theorem moves_repairSignature : Moves S b (b.repairSignature S now report memory).1 := by
  unfold repairSignature
  split
  · exact .single (.applyStore _)
  · exact .refl

theorem moves_repairOne (S : BrainSetup) (now : String) (faults : RecognitionFaults)
    (b : BrainState L) (report : DerivationRepairReport) (memory : MemoryRow) :
    Moves S b (b.repairOne S now faults report memory).1 := by
  unfold repairOne
  dsimp only
  have hsigned : Moves S b
      ((b.repairDensity S now report memory).1.repairSignature S now
        (b.repairDensity S now report memory).2 memory).1 :=
    moves_repairDensity.trans moves_repairSignature
  refine hsigned.tail ?_
  generalize ((b.repairDensity S now report memory).1.repairSignature S now
    (b.repairDensity S now report memory).2 memory) = signed
  have hmove : Move S signed.1 _ := .enroll (faults.enroll memory.id) memory.id memory.content
  split
  · rename_i index _ henroll
    rw [henroll] at hmove
    exact hmove
  · rename_i index e henroll
    rw [henroll] at hmove
    exact hmove

theorem moves_repairWalk (S : BrainSetup) (now : String) (faults : RecognitionFaults)
    (b : BrainState L) (report : DerivationRepairReport) (memories : List MemoryRow) :
    Moves S b (b.repairWalk S now faults report memories).1 := by
  induction memories generalizing b report with
  | nil => exact .refl
  | cons memory memories ih =>
    have hone := moves_repairOne S now faults b report memory
    unfold repairWalk
    split
    · rename_i b' report' hrepaired
      rw [hrepaired] at hone
      exact hone.trans (ih b' report')
    · rename_i b' e hrepaired
      rw [hrepaired] at hone
      exact hone

theorem moves_pruneOrphans {live : List String} :
    Moves S b (b.pruneOrphans faults report live).1 := by
  unfold pruneOrphans
  generalize (if faults.enrolledIds = true then [] else b.index.enrolledIds).filter _ = ids
  induction ids using List.reverseRecOn with
  | nil => exact .refl
  | append_singleton ids id ih =>
    rw [List.foldl_append, List.foldl_cons, List.foldl_nil]
    exact ih.tail (.forget id)

/-- **One repair** is a sequence of moves. -/
theorem moves_repairDerivations {limit : ℕ} :
    Moves S b (b.repairDerivations S now faults limit).1 := by
  have hhashed : Moves S b (b.applyStore S ⟨.backfillContentHashes, now⟩) :=
    .single (.applyStore _)
  unfold repairDerivations
  dsimp only
  have hwalk := hhashed.trans (moves_repairWalk S now faults _
    { scanned := (b.repairScan S now limit).length
      contentHashesRepaired := b.cached.store.memories.countWhere fun r => r.contentHash = none }
    (b.repairScan S now limit))
  split
  · rename_i b' e hwalked
    rw [hwalked] at hwalk
    exact hwalk
  · rename_i b' report hwalked
    rw [hwalked] at hwalk
    split
    · exact hwalk.trans moves_pruneOrphans
    · exact hwalk

end BrainState

end Spectral
