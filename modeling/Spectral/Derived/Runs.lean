import Spectral.Derived.Steps

/-!
# Derived rows, along runs

* `DerivedOp` — the calls that write, derive and delete.
* `KeepsLiving` — what a call must not do, read off the store before it.
* `backed_applyDerived_iff` — that is exactly when the call leaves no row that names or quotes what
  is gone, or counts what is not there.
* `living_iff_allSteps` — the same for runs from the empty store.
* `outlived_notes` — two notes and what is derived from them; each way of deleting one but the
  forget, and what the log can bring back after a forget.
-/

namespace Spectral

open Spectral.Lib

/-- The calls that change memories, or rows derived from them. -/
inductive DerivedOp where
  | write (memory : Memory) (fingerprints : List Fingerprint)
  | ingest (since id key content category visibility : String) (opts : IngestOpts)
  | associateMemorySession (memoryId sessionId : String)
  | logRetrievalEvent (memoryIdsJson : String)
  | rebuildCoRetrievalIndex (o : Shuffle ((String × String) × ℕ))
  | consolidateInto (sources : List String) (target : String) (policy : InvalidSourcePolicy)
  | deleteMemoryByKey (key : String)
  | deleteWingMemoriesBefore (wing before : String)
  | prune (wing : String) (keep : ℕ)
  | tombstone (wingId targetHash : String)
  | importPack (pack : Pack) (policy : ImportPolicy)

/-- A call and the time it is made at. -/
structure DerivedCall where
  op : DerivedOp
  now : String

namespace Pipeline

variable (p : Pipeline) (parseIds : String → Option (List String)) (s : Store) (call : DerivedCall)

/-- What a call does to the store. -/
def applyDerived : Store :=
  match call.op with
  | .write memory fingerprints => p.env.write call.now s memory fingerprints
  | .ingest since id key content category visibility opts =>
    (p.ingest call.now since s id key content category visibility opts).1
  | .associateMemorySession memoryId sessionId => s.associated (memoryId, sessionId)
  | .logRetrievalEvent memoryIdsJson => s.logRetrievalEvent memoryIdsJson
  | .rebuildCoRetrievalIndex o => (s.rebuildCoRetrievalIndex parseIds o).1
  | .consolidateInto sources target policy =>
    match s.consolidateInto sources target policy with
    | .ok (s', _) => s'
    | .error _ => s
  | .deleteMemoryByKey key => (s.deleteMemoryByKey call.now key).1
  | .deleteWingMemoriesBefore wing before => (p.pf.deleteWingMemoriesBefore s wing before).1
  | .prune wing keep => (p.pf.prune s wing keep).1
  | .tombstone wingId targetHash => s.tombstone call.now wingId targetHash
  | .importPack pack policy => (p.env.importPackWithPolicy call.now s pack policy).1

/-- **The condition.** -/
def KeepsLiving : Prop :=
  match call.op with
  | .write memory fingerprints => p.env.SparesEpisodes s memory fingerprints
  | .ingest since id key content category visibility opts =>
    p.KeepsEpisodes call.now since s id key content category visibility opts
  | .rebuildCoRetrievalIndex _ =>
    -- no event names a memory that is gone together with another one
    ∀ pair ∈ s.eventPairs parseIds, s.HasMemory pair.1 ∧ s.HasMemory pair.2
  | .deleteWingMemoriesBefore wing before => s.Clears (p.pf.sweptBefore wing before)
  | .prune wing keep => s.Clears (p.pf.pruned s wing keep)
  | .tombstone wingId targetHash => s.Clears (s.retracted wingId targetHash)
  | .importPack pack policy => s.Clears fun r => p.env.Doomed policy pack s r
  | _ => True

end Pipeline

/-! ## Runs -/

namespace Pipeline

open Store

variable {p : Pipeline} {parseIds : String → Option (List String)} {s : Store}

/-- **The foreign keys** hold after every call. -/
theorem resolved_applyDerived (h : s.Resolved) (call : DerivedCall) :
    (p.applyDerived parseIds s call).Resolved := by
  obtain ⟨op, now⟩ := call
  cases op with
  | write memory fps => exact resolved_write h
  | ingest since id key content category visibility opts => exact resolved_ingest h ..
  | associateMemorySession memoryId sessionId => exact resolved_associated h (memoryId, sessionId)
  | logRetrievalEvent memoryIdsJson => exact h.of_eq rfl rfl rfl rfl
  | rebuildCoRetrievalIndex o => exact h.of_eq rfl rfl rfl rfl
  | consolidateInto sources target policy =>
    simp only [applyDerived]
    split
    · rename_i s' result hmerge
      exact resolved_consolidateInto h hmerge
    · exact h
  | deleteMemoryByKey key => exact resolved_deleteMemoryByKey h now key
  | deleteWingMemoriesBefore wing before =>
    exact resolved_deleteMemories h (p.pf.sweptBefore wing before)
  | prune wing keep =>
    simp only [applyDerived, p.pf.prune_eq_deleteMemories]
    exact resolved_deleteMemories h _
  | tombstone wingId targetHash => exact resolved_tombstone h now wingId targetHash
  | importPack pack policy => exact Env.resolved_import h

/-- **One call.** -/
theorem backed_applyDerived_iff (hs : s.Resolved) (h : s.Backed) (call : DerivedCall) :
    (p.applyDerived parseIds s call).Backed ↔ p.KeepsLiving parseIds s call := by
  obtain ⟨op, now⟩ := call
  cases op with
  | write memory fps => exact backed_write_iff h now memory fps
  | ingest since id key content category visibility opts => exact backed_ingest_iff h ..
  | associateMemorySession memoryId sessionId =>
    exact iff_of_true (backed_associated hs h (memoryId, sessionId)) trivial
  | logRetrievalEvent memoryIdsJson => exact iff_of_true (h.of_eq rfl rfl rfl rfl) trivial
  | rebuildCoRetrievalIndex o => exact backed_rebuild_iff hs h o
  | consolidateInto sources target policy =>
    simp only [applyDerived, KeepsLiving, iff_true]
    split
    · rename_i s' result hmerge
      exact backed_consolidateInto h hmerge
    · exact h
  | deleteMemoryByKey key => exact iff_of_true (backed_deleteMemoryByKey h now key) trivial
  | deleteWingMemoriesBefore wing before =>
    exact backed_deleteMemories_iff (p := p.pf.sweptBefore wing before) h
  | prune wing keep =>
    simp only [applyDerived, KeepsLiving, p.pf.prune_eq_deleteMemories]
    exact backed_deleteMemories_iff h
  | tombstone wingId targetHash => exact backed_tombstone_iff h now wingId targetHash
  | importPack pack policy => exact Env.backed_import_iff h

/-- **No derived row outlives its memory**, all along a run from the empty store, exactly when every
call of the run meets the condition. -/
theorem living_iff_allSteps (p : Pipeline) (parseIds : String → Option (List String))
    (calls : List DerivedCall) :
    AllSteps (p.applyDerived parseIds) (p.KeepsLiving parseIds) {} calls ↔
      ∀ past, past <+: calls → (run (p.applyDerived parseIds) {} past).Living := by
  have hempty : ({} : Store).Living := (living_iff resolved_empty).2 backed_empty
  refine allSteps_iff_forall_past_of_invariant (J := Resolved) (I := Living)
    (fun s call hs _ => resolved_applyDerived hs call) (fun s call hs hliving => ?_)
    resolved_empty hempty
  rw [living_iff (resolved_applyDerived hs call)]
  exact backed_applyDerived_iff hs ((living_iff hs).1 hliving) call

/-! ## Notes -/

/-- Two notes of an episode and of a session, of which the second is merged into the first. -/
def derivedNotes : List DerivedCall :=
  let opts : IngestOpts := { factIn "ops" none with source := some "chat" }
  [⟨.ingest "2026-01-03 08:30:00" "m1" "monday" "ship on monday" "" "private" opts,
      "2026-01-03 09:00:00"⟩,
    ⟨.ingest "2026-01-03 08:35:00" "m2" "tuesday" "ship on tuesday" "" "private" opts,
      "2026-01-03 09:05:00"⟩,
    ⟨.associateMemorySession "m1" "s1", "2026-01-03 09:06:00"⟩,
    ⟨.associateMemorySession "m2" "s1", "2026-01-03 09:06:00"⟩,
    ⟨.consolidateInto ["tuesday"] "monday" .abortAll, "2026-01-03 09:07:00"⟩]

/-- The first note is then swept by age, pruned, or retracted here or by a pack; or it is forgotten,
and an event that names it is logged before the index is rebuilt. -/
def outlivingOps : List (List DerivedOp) :=
  [[.deleteWingMemoriesBefore "ops" "2026-01-03 09:05:00"], [.prune "ops" 1],
    [.tombstone "shared" "m1"],
    [.importPack { wingId := "shared", tombstones := [{ targetHash := "m1", ts := "2026-01-03" }] }
      .trustedTransport],
    [.deleteMemoryByKey "monday", .logRetrievalEvent (jsonIds ["m1", "m2"]),
      .rebuildCoRetrievalIndex .inOrder]]

/-- The ids of an event of both notes. -/
def parseNotes (json : String) : Option (List String) :=
  if json = jsonIds ["m1", "m2"] then some ["m1", "m2"] else none

def afterNotes (ops : List DerivedOp) : Store :=
  run (linking.applyDerived parseNotes) {}
    (derivedNotes ++ ops.map fun op => ⟨op, "2026-01-03 10:00:00"⟩)

/-- **Outlived notes.**  The first note is gone, and still related to the second one; after each of
the deletes but the forget it is also the target of the second one, and counted and quoted. -/
theorem outlived_notes :
    (∀ ops ∈ outlivingOps, ¬ (afterNotes ops).HasMemory "m1" ∧
        ((afterNotes ops).relatedMemories "m2" 10).map RelatedMemory.memoryId = ["m1"]) ∧
      (∀ ops ∈ outlivingOps.take 4,
        ((afterNotes ops).listConsolidated .inOrder none).map ConsolidationEdge.targetKey =
            ["monday"] ∧
          ∀ e ∈ (afterNotes ops).episodes.rows, e.memoryCount = 2 ∧
            (afterNotes ops).episodeMembers e.id = 1 ∧ e.summaryPreview = some "ship on monday") ∧
      ∀ ops ∈ outlivingOps, ¬ (afterNotes ops).Living := by
  have hrelated : ∀ ops ∈ outlivingOps, ¬ (afterNotes ops).HasMemory "m1" ∧
      ((afterNotes ops).relatedMemories "m2" 10).map RelatedMemory.memoryId = ["m1"] := by
    decide +kernel
  refine ⟨hrelated, by decide +kernel, fun ops hops hliving => ?_⟩
  obtain ⟨hgone, hnames⟩ := hrelated ops hops
  have hin : "m1" ∈ ((afterNotes ops).relatedMemories "m2" 10).map RelatedMemory.memoryId := by
    rw [hnames]
    exact List.mem_singleton_self _
  obtain ⟨m, hm, hid⟩ := List.mem_map.1 hin
  exact hgone (hid ▸ hliving.related "m2" 10 m hm)

end Pipeline

end Spectral
