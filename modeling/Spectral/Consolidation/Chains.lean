import Spectral.Consolidation.Edges
import Spectral.Ingest.Forget
import Spectral.Ingest.Curate
import Spectral.Federation.Sync

/-!
# Chains of consolidation

A memory hidden as a consolidated source should lead, along consolidation edges, to a memory
that is not hidden: then nothing is lost by hiding it.  This file says exactly which calls keep
that so.

* `MergeOp` — the calls: writes, consolidations, forgets, the two sweeps and the retractions.
* `KeepsChains` — the condition on a call, on the store before it.
* `allSteps_keepsChains_iff` — in a run from the empty store every hidden memory always leads
  to one that is not, exactly when every call meets the condition.
* `lost_note` — a memory merged into its own source, and one whose target is deleted.

The graph is `Spectral.Lib.Forwarding` at the keys of the memories.
-/

namespace Spectral

open Spectral.Lib Relation

/-- The calls that change memories or consolidation edges. -/
inductive MergeOp where
  | write (memory : Memory) (fingerprints : List Fingerprint)
  | consolidateInto (sources : List String) (target : String) (policy : InvalidSourcePolicy)
  | deleteMemoryByKey (key : String)
  | prune (wing : String) (keep : ℕ)
  | deleteWingMemoriesBefore (wing before : String)
  | tombstone (wingId targetHash : String)

/-- A call and the time it is made at. -/
structure MergeCall where
  op : MergeOp
  now : String

/-! ## What a delete leaves -/

namespace Store

variable (s : Store)

/-- A delete selects no memory under this key. -/
def Stays (p : MemoryRow → Bool) (key : String) : Prop :=
  ∀ r ∈ s.memories.rows, r.key = key → p r = false

instance (p : MemoryRow → Bool) (key : String) : Decidable (s.Stays p key) :=
  inferInstanceAs (Decidable (∀ r ∈ s.memories.rows, r.key = key → p r = false))

variable {s}

theorem hasKey_deleteMemories (p : MemoryRow → Bool) (key : String) :
    (s.deleteMemories p).HasKey key ↔ s.HasKey key ∧ s.Stays p key := by
  constructor
  · rintro ⟨r, hr, rfl⟩
    obtain ⟨hr, hp⟩ := Table.mem_deleteWhere.1 hr
    refine ⟨⟨r, hr, rfl⟩, fun r' hr' hk => ?_⟩
    rw [eq_of_key hr' hr hk]
    exact hp
  · rintro ⟨⟨r, hr, rfl⟩, hstays⟩
    exact ⟨r, Table.mem_deleteWhere.2 ⟨hr, hstays r hr rfl⟩, rfl⟩

/-- The edges of a memory go with it, by cascade; the edges that lead to it stay. -/
theorem mergedInto_deleteMemories (p : MemoryRow → Bool) (x y : String) :
    (s.deleteMemories p).MergedInto x y ↔ s.MergedInto x y ∧ s.Stays p x := by
  have hgone : ∀ key, (s.memories.rows.any fun r => p r && r.key == key) = false ↔
      s.Stays p key := by
    intro key
    rw [List.any_eq_false]
    refine forall_congr' fun r => forall_congr' fun _ => ?_
    cases p r <;> simp
  constructor
  · rintro ⟨e, he, rfl, rfl⟩
    obtain ⟨he, hp⟩ := Table.mem_deleteWhere.1 he
    exact ⟨⟨e, he, rfl, rfl⟩, (hgone e.sourceKey).1 hp⟩
  · rintro ⟨⟨e, he, rfl, rfl⟩, hstays⟩
    exact ⟨e, Table.mem_deleteWhere.2 ⟨he, (hgone e.sourceKey).2 hstays⟩, rfl, rfl⟩

theorem hasKey_deleteMemoryByKey {now key : String} (k : String) :
    (s.deleteMemoryByKey now key).1.HasKey k ↔ s.HasKey k ∧ k ≠ key := by
  constructor
  · rintro ⟨r, hr, rfl⟩
    obtain ⟨hr, hk⟩ := mem_memories_deleteMemoryByKey.1 hr
    exact ⟨⟨r, hr, rfl⟩, hk⟩
  · rintro ⟨⟨r, hr, rfl⟩, hk⟩
    exact ⟨r, mem_memories_deleteMemoryByKey.2 ⟨hr, hk⟩, rfl⟩

/-- A forget takes the edges from and to the memory. -/
theorem mergedInto_deleteMemoryByKey {now key : String} (h : s.HasKey key) (x y : String) :
    (s.deleteMemoryByKey now key).1.MergedInto x y ↔ s.MergedInto x y ∧ x ≠ key ∧ y ≠ key := by
  obtain ⟨row, hrow, hkey⟩ := h
  have hedges : ∀ e, e ∈ (s.deleteMemoryByKey now key).1.consolidationEdges ↔
      e ∈ s.consolidationEdges ∧ e.sourceKey ≠ key ∧ e.targetKey ≠ key := by
    intro e
    rw [← hkey, deleteMemoryByKey_eq hrow]
    cases row.episodeId with
    | none => exact mem_consolidationEdges_scrubbed hrow
    | some ep =>
      dsimp only
      rw [settleEpisode_eq]
      exact mem_consolidationEdges_scrubbed hrow
  constructor
  · rintro ⟨e, he, rfl, rfl⟩
    obtain ⟨he, hs, ht⟩ := (hedges e).1 he
    exact ⟨⟨e, he, rfl, rfl⟩, hs, ht⟩
  · rintro ⟨⟨e, he, rfl, rfl⟩, hs, ht⟩
    exact ⟨e, (hedges e).2 ⟨he, hs, ht⟩, rfl, rfl⟩

/-- Every hidden memory has a chain of edges to a memory that is not hidden. -/
def NothingLost (s : Store) : Prop :=
  ∀ r ∈ s.memories, s.Hidden r.key →
    ∃ r' ∈ s.memories, ReflTransGen s.MergedInto r.key r'.key ∧ ¬ s.Hidden r'.key

/-- In terms of the graph on the keys. -/
theorem nothingLost_iff_grounded : s.NothingLost ↔ Grounded s.HasKey s.MergedInto := by
  constructor
  · rintro h x ⟨r, hr, rfl⟩ hf
    obtain ⟨r', hr', hchain, hnot⟩ := h r hr (forwarding_mergedInto.1 hf)
    exact ⟨r'.key, hchain, ⟨r', hr', rfl⟩, fun hf' => hnot (forwarding_mergedInto.1 hf')⟩
  · rintro h r hr hhid
    obtain ⟨y, hchain, ⟨r', hr', rfl⟩, hnot⟩ :=
      h r.key ⟨r, hr, rfl⟩ (forwarding_mergedInto.2 hhid)
    exact ⟨r', hr', hchain, fun hhid' => hnot (forwarding_mergedInto.2 hhid')⟩

theorem holds_iff {key : String} :
    Lib.Holds s.HasKey s.MergedInto key ↔ s.HasKey key ∧ ¬ s.Hidden key :=
  and_congr_right fun _ => not_congr forwarding_mergedInto

/-- No hidden memory that a delete leaves is cut off: among the memories left it has a chain to
one that is not hidden. -/
def NoneCutOff (s : Store) (p : MemoryRow → Bool) : Prop :=
  ∀ x, s.HasKey x → s.Stays p x → s.Hidden x →
    ∃ y, ChainAmong s.MergedInto (s.Stays p) x y ∧ s.HasKey y ∧ ¬ s.Hidden y

/-- **One sweep.** -/
theorem grounded_deleteMemories_iff (p : MemoryRow → Bool) :
    Grounded (s.deleteMemories p).HasKey (s.deleteMemories p).MergedInto ↔ s.NoneCutOff p := by
  rw [grounded_cascade_iff (hasKey_deleteMemories p) (mergedInto_deleteMemories p)]
  unfold NoneCutOff
  simp only [forwarding_mergedInto, holds_iff]

theorem rooted_deleteMemories (h : s.Rooted) (p : MemoryRow → Bool) :
    (s.deleteMemories p).Rooted := by
  intro x y hxy
  obtain ⟨hxy, hx⟩ := (mergedInto_deleteMemories p x y).1 hxy
  exact (hasKey_deleteMemories p x).2 ⟨h x y hxy, hx⟩

/-- No hidden memory that a forget leaves is cut off: avoiding the forgotten memory it has a
chain to one whose edges, if it has any, all lead to the forgotten memory. -/
def NoneCutOffBy (s : Store) (key : String) : Prop :=
  ∀ x, s.HasKey x → x ≠ key → (∃ y, s.MergedInto x y ∧ y ≠ key) →
    ∃ y, ChainAmong s.MergedInto (· ≠ key) x y ∧ s.HasKey y ∧ ∀ z, s.MergedInto y z → z = key

/-- **One forget.** -/
theorem grounded_deleteMemoryByKey_iff {now key : String} (h : s.HasKey key) :
    Grounded (s.deleteMemoryByKey now key).1.HasKey (s.deleteMemoryByKey now key).1.MergedInto ↔
      s.NoneCutOffBy key :=
  grounded_delete_iff hasKey_deleteMemoryByKey (mergedInto_deleteMemoryByKey h)

theorem deleteMemoryByKey_of_not_hasKey {now key : String} (h : ¬ s.HasKey key) :
    (s.deleteMemoryByKey now key).1 = s := by
  exact deleteMemoryByKey_of_none (memoryByKey_eq_none.2 fun r hr hk => h ⟨r, hr, hk⟩)

theorem rooted_deleteMemoryByKey {now key : String} (h : s.Rooted) :
    (s.deleteMemoryByKey now key).1.Rooted := by
  by_cases hkey : s.HasKey key
  · intro x y hxy
    obtain ⟨hxy, hx, -⟩ := (mergedInto_deleteMemoryByKey hkey x y).1 hxy
    exact (hasKey_deleteMemoryByKey x).2 ⟨h x y hxy, hx⟩
  · rwa [deleteMemoryByKey_of_not_hasKey hkey]

/-! ## Writes and consolidations -/

end Store

theorem Env.consolidationEdges_writeMemoryInTx {env : Env} {now : String} {s s' : Store}
    {memory : Memory} {fps : List Fingerprint} {out : WriteOutcome}
    (h : env.writeMemoryInTx now s memory fps = .ok (s', out)) :
    s'.consolidationEdges = s.consolidationEdges := by
  have hfold : ∀ {t u : Store}, fps.foldlM (Store.insertFingerprint now) t = .ok u →
      u.consolidationEdges = t.consolidationEdges := by
    intro t u h
    obtain ⟨_, rfl⟩ := Store.eq_of_foldlM_insertFingerprint h
    rfl
  cases writes_of_writeMemoryInTx h with
  | @inserted t _ hnone ht hfps =>
    have hte : t.consolidationEdges = s.consolidationEdges := by
      unfold Store.insertMemory at ht
      split at ht <;> cases ht
      rfl
    exact (hfold hfps).trans hte
  | noOp hk hsame => rfl
  | contentUpdated hk hdiff hfps =>
    have hedges := hfold hfps
    exact hedges

/-- A write leaves the edges. -/
theorem Env.consolidationEdges_write (env : Env) (now : String) (s : Store) (memory : Memory)
    (fps : List Fingerprint) :
    (env.write now s memory fps).consolidationEdges = s.consolidationEdges := by
  unfold write
  cases h : env.writeMemoryInTx now s memory fps with
  | error e => rfl
  | ok p => exact consolidationEdges_writeMemoryInTx h

namespace Store

variable {s : Store}

/-- A write leaves every key. -/
theorem hasKey_write {env : Env} {now : String} {memory : Memory} {fps : List Fingerprint}
    {key : String} (h : s.HasKey key) : (env.write now s memory fps).HasKey key := by
  obtain ⟨r, hr, rfl⟩ := h
  rcases Env.write_eq_or_written env now s memory fps with hsame | hwritten
  · rw [hsame]
    exact ⟨r, hr, rfl⟩
  · by_cases hk : r.key = memory.key
    · exact ⟨_, (hwritten.mem_memories _).2 (Or.inr rfl), by rw [Env.key_writtenRow, hk]⟩
    · exact ⟨r, (hwritten.mem_memories r).2 (Or.inl ⟨hr, hk⟩), rfl⟩

/-- A write adds a memory at most, and no edge. -/
theorem grounded_write {env : Env} {now : String} {memory : Memory} {fps : List Fingerprint}
    (hrooted : s.Rooted) (h : Grounded s.HasKey s.MergedInto) :
    Grounded (env.write now s memory fps).HasKey (env.write now s memory fps).MergedInto := by
  have hedges : (env.write now s memory fps).MergedInto = s.MergedInto := by
    unfold MergedInto
    rw [Env.consolidationEdges_write]
  rw [hedges]
  exact h.mono_nodes (fun x hx => hasKey_write hx) hrooted

theorem rooted_write {env : Env} {now : String} {memory : Memory} {fps : List Fingerprint}
    (h : s.Rooted) : (env.write now s memory fps).Rooted := by
  intro x y hxy
  unfold MergedInto at hxy
  rw [Env.consolidationEdges_write] at hxy
  exact hasKey_write (h x y hxy)

/-- A consolidation points only sources it takes and memories hidden before. -/
theorem rooted_consolidateInto {s' : Store} {sources : List String} {target : String}
    {policy : InvalidSourcePolicy} {result : ConsolidationResult} (hs : s.Rooted)
    (h : s.consolidateInto sources target policy = .ok (s', result)) : s'.Rooted := by
  obtain ⟨hkeys, hto⟩ := forwardTo_consolidateInto h
  intro x y hxy
  rw [hkeys]
  rcases hto.only x y hxy with hold | ⟨-, htaken | ⟨z, hz⟩⟩
  · exact hs x y hold
  · exact htaken.2.2.1
  · exact hs x z hz

/-- The target of a call leads to a memory that is not hidden and not taken by the call. -/
def LeadsOutside (s : Store) (sources : List String) (target : String) : Prop :=
  ∃ y, ReflTransGen s.MergedInto target y ∧ s.HasKey y ∧ ¬ s.Hidden y ∧
    ¬ s.Taken sources target y

/-- **One consolidation** that goes through. -/
theorem grounded_consolidateInto_iff {s' : Store} {sources : List String} {target : String}
    {policy : InvalidSourcePolicy} {result : ConsolidationResult}
    (hg : Grounded s.HasKey s.MergedInto)
    (h : s.consolidateInto sources target policy = .ok (s', result)) :
    Grounded s'.HasKey s'.MergedInto ↔
      ((∃ x, s.Taken sources target x) → s.LeadsOutside sources target) := by
  obtain ⟨hkeys, hto⟩ := forwardTo_consolidateInto h
  have hV : s'.HasKey = s.HasKey := funext fun key => propext (hkeys key)
  rw [hV]
  by_cases htaken : ∃ x, s.Taken sources target x
  · rw [hg.forward_iff hto htaken, forall_prop_of_true htaken]
    unfold LeadsOutside
    simp only [holds_iff, and_assoc]
  · exact iff_of_true (hg.forward_of_empty hto htaken) fun h => absurd h htaken

end Store

/-! ## One call -/

/-- The memories `delete_wing_memories_before` selects. -/
def Platform.sweptBefore (pf : Platform) (wing before : String) (r : MemoryRow) : Bool :=
  decide (r.wing = some wing) && pf.createdBefore before r

namespace Store

/-- The memories a retraction deletes. -/
def retracted (s : Store) (wingId targetHash : String) (r : MemoryRow) : Bool :=
  r.id = targetHash && decide (¬ s.HeldElsewhere wingId targetHash)

/-- What a call does to the store. -/
def applyMerge (env : Env) (pf : Platform) (s : Store) (call : MergeCall) : Store :=
  match call.op with
  | .write memory fingerprints => env.write call.now s memory fingerprints
  | .consolidateInto sources target policy =>
    match s.consolidateInto sources target policy with
    | .ok (s', _) => s'
    | .error _ => s
  | .deleteMemoryByKey key => (s.deleteMemoryByKey call.now key).1
  | .prune wing keep => (pf.prune s wing keep).1
  | .deleteWingMemoriesBefore wing before => (pf.deleteWingMemoriesBefore s wing before).1
  | .tombstone wingId targetHash => s.tombstone call.now wingId targetHash

/-- The condition on a call: a target leads to a memory that stays visible, and a delete cuts
no hidden memory off. -/
def KeepsChains (pf : Platform) (s : Store) (call : MergeCall) : Prop :=
  match call.op with
  | .write _ _ => True
  | .consolidateInto sources target policy =>
    s.Accepts sources target policy → (∃ x, s.Taken sources target x) →
      s.LeadsOutside sources target
  | .deleteMemoryByKey key => s.HasKey key → s.NoneCutOffBy key
  | .prune wing keep => s.NoneCutOff (pf.pruned s wing keep)
  | .deleteWingMemoriesBefore wing before => s.NoneCutOff (pf.sweptBefore wing before)
  | .tombstone wingId targetHash => s.NoneCutOff (s.retracted wingId targetHash)

variable {env : Env} {pf : Platform} {s : Store} {call : MergeCall}

theorem rooted_applyMerge (h : s.Rooted) : (s.applyMerge env pf call).Rooted := by
  obtain ⟨op, now⟩ := call
  cases op with
  | write memory fps => exact rooted_write h
  | consolidateInto sources target policy =>
    simp only [applyMerge]
    split
    · rename_i s' result hmerge
      exact rooted_consolidateInto h hmerge
    · exact h
  | deleteMemoryByKey key => exact rooted_deleteMemoryByKey h
  | prune wing keep =>
    simp only [applyMerge, pf.prune_eq_deleteMemories]
    exact rooted_deleteMemories h _
  | deleteWingMemoriesBefore wing before =>
    exact rooted_deleteMemories h (pf.sweptBefore wing before)
  | tombstone wingId targetHash => exact rooted_deleteMemories h (s.retracted wingId targetHash)

/-- **One call** keeps every hidden memory leading to a visible one exactly when it meets the
condition. -/
theorem grounded_applyMerge_iff (hrooted : s.Rooted) (h : Grounded s.HasKey s.MergedInto) :
    Grounded (s.applyMerge env pf call).HasKey (s.applyMerge env pf call).MergedInto ↔
      s.KeepsChains pf call := by
  obtain ⟨op, now⟩ := call
  cases op with
  | write memory fps => exact iff_of_true (grounded_write hrooted h) trivial
  | consolidateInto sources target policy =>
    have haccepts : (s.consolidateInto sources target policy).isOk = true ↔
        s.Accepts sources target policy := isOk_consolidateInto_iff hrooted
    simp only [applyMerge, KeepsChains, ← haccepts]
    cases hmerge : s.consolidateInto sources target policy with
    | error e => exact iff_of_true h fun hok => by cases hok
    | ok p =>
      rw [forall_prop_of_true (show (Except.ok p : Except String _).isOk = true from rfl)]
      exact grounded_consolidateInto_iff h hmerge
  | deleteMemoryByKey key =>
    simp only [applyMerge, KeepsChains]
    by_cases hkey : s.HasKey key
    · rw [forall_prop_of_true hkey]
      exact grounded_deleteMemoryByKey_iff hkey
    · rw [deleteMemoryByKey_of_not_hasKey hkey]
      exact iff_of_true h fun hk => absurd hk hkey
  | prune wing keep =>
    simp only [applyMerge, KeepsChains, pf.prune_eq_deleteMemories]
    exact grounded_deleteMemories_iff _
  | deleteWingMemoriesBefore wing before =>
    exact grounded_deleteMemories_iff (pf.sweptBefore wing before)
  | tombstone wingId targetHash => exact grounded_deleteMemories_iff (s.retracted wingId targetHash)

/-! ## Runs -/

theorem rooted_empty : ({} : Store).Rooted := by
  rintro x y ⟨e, he, -⟩
  exact absurd he List.not_mem_nil

theorem nothingLost_empty : ({} : Store).NothingLost := fun _ hr => absurd hr List.not_mem_nil

/-- **Consolidation loses nothing**, all along a run from the empty store, exactly when every
call of the run meets the condition. -/
theorem allSteps_keepsChains_iff (calls : List MergeCall) :
    AllSteps (applyMerge env pf) (KeepsChains pf) {} calls ↔
      ∀ past, past <+: calls → (run (applyMerge env pf) {} past).NothingLost := by
  have hrooted : ∀ past, (run (applyMerge env pf) {} past).Rooted := fun past =>
    run_invariant (fun _ _ => rooted_applyMerge) rooted_empty
  have hstep : ∀ (s : Store) (call : MergeCall), s.Rooted ∧ s.NothingLost →
      (((s.applyMerge env pf call).Rooted ∧ (s.applyMerge env pf call).NothingLost) ↔
        s.KeepsChains pf call) := by
    intro s call h
    rw [and_iff_right (rooted_applyMerge h.1), nothingLost_iff_grounded]
    exact grounded_applyMerge_iff h.1 (nothingLost_iff_grounded.1 h.2)
  rw [allSteps_iff_forall_past (I := fun s : Store => s.Rooted ∧ s.NothingLost) hstep
    ⟨rooted_empty, nothingLost_empty⟩]
  exact forall_congr' fun past => forall_congr' fun _ => and_iff_right (hrooted past)

/-! ## Memories that are lost -/

/-- A store with memories that are all hidden has lost them. -/
theorem not_nothingLost_of_all_hidden (hsome : s.memories.rows ≠ [])
    (hall : ∀ r ∈ s.memories.rows, s.Hidden r.key) : ¬ s.NothingLost := by
  intro h
  obtain ⟨r, hr⟩ := List.exists_mem_of_ne_nil _ hsome
  obtain ⟨r', hr', -, hnot⟩ := h r hr (hall r hr)
  exact hnot (hall r' hr')

/-- Two notes of a wing, of which the second is merged into the first. -/
def mondayNote : Memory :=
  { id := "0aa1", key := "monday", content := "ship on monday", wing := some "work",
    source := some "chat", createdAt := some "2026-01-01 09:00:00" }

def tuesdayNote : Memory :=
  { id := "0bb2", key := "tuesday", content := "ship on tuesday", wing := some "work",
    source := some "chat", createdAt := some "2026-01-02 09:00:00" }

def mergedThen (op : MergeOp) : List MergeCall :=
  [⟨.write mondayNote [], "2026-01-03 09:00:00"⟩, ⟨.write tuesdayNote [], "2026-01-03 09:01:00"⟩,
    ⟨.consolidateInto ["tuesday"] "monday" .abortAll, "2026-01-03 09:02:00"⟩,
    ⟨op, "2026-01-03 09:03:00"⟩]

/-- The first note is then merged into the second, retracted, swept by age or pruned. -/
def thenLost : List MergeOp :=
  [.consolidateInto ["monday"] "tuesday" .abortAll, .tombstone "shared" "0aa1",
    .deleteWingMemoriesBefore "work" "2026-01-02 00:00:00", .prune "work" 1]

/-- **Lost memories.**  The second note is hidden, and leads to a hidden note or to none. -/
theorem lost_note :
    ¬ ∃ op ∈ thenLost, (run (applyMerge (Env.ofRecords [] []) Platform.plain) {}
      (mergedThen op)).NothingLost := by
  have hsome : ∀ op ∈ thenLost, (run (applyMerge (Env.ofRecords [] []) Platform.plain) {}
      (mergedThen op)).memories.rows ≠ [] := by
    decide +kernel
  have hall : ∀ op ∈ thenLost, ∀ r ∈ (run (applyMerge (Env.ofRecords [] []) Platform.plain) {}
      (mergedThen op)).memories.rows, (run (applyMerge (Env.ofRecords [] []) Platform.plain) {}
        (mergedThen op)).Hidden r.key := by
    decide +kernel
  rintro ⟨op, hop, hnothing⟩
  exact not_nothingLost_of_all_hidden (hsome op hop) (hall op hop) hnothing

end Store

end Spectral
