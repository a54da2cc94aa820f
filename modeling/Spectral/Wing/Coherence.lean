import Spectral.Wing.Cache
import Spectral.Consolidation.Edges
import Spectral.Federation.Runs
import Spectral.Turn.Ledger

/-!
# The wing cache over runs

Every operation of a store that changes memories either clears the wing cache, or pops the
wings it touched, or leaves the cache alone.  `CachedStore.apply` is what each of them does,
to the store and to the cache.

* `coherent_apply` — every operation keeps the cache coherent, `set_hall` and
  `commit_turn_outcomes` under the condition `Refreshes`: they leave the cache alone although
  the columns they set are served.
* `wingSearch_of_refreshes` — so in every run whose calls meet it, a wing search returns what
  it would with nothing cached.
-/

namespace Spectral

open Spectral.Lib

/-- The operations of a store beside its wing cache.  `otherTables` stands for the operations
that leave `memories` alone: whatever they make of the other tables. -/
inductive CachedOp where
  | wingSearch (wing : String) (queryTerms : List String) (maxResults : ℕ)
  | write (memory : Memory) (fingerprints : List Fingerprint)
  | writeBatch (items : List (Memory × List Fingerprint))
  | setWing (key wing : String)
  | setHall (id hall : String)
  | setDeclarativeDensity (memoryId : String) (density : ℚ)
  | setCompactionTier (memoryId : String) (tier : CompactionTier)
  | setDescription (id description generatedAt : String)
  | setSignature (memoryId : String) (sourceBrainId : Bytes32) (signature : List UInt8)
  | invalidateAt (key validTo : String)
  | setValidFrom (key validFrom : String)
  | reinforceMemory (key : String) (strength : ℚ)
  | reinforceBatch (keys : List String) (strength : ℚ)
  | commitTurnOutcomes (occurrenceId : String) (outcomes : List (String × LedgerOutcome))
      (strength : ℚ) (committedAt : String)
  | deleteWingMemoriesBefore (wing before : String)
  | deleteMemoryByKey (key : String)
  | prune (wing : String) (keep : ℕ)
  | consolidateInto (sources : List String) (target : String) (policy : InvalidSourcePolicy)
  | backfillContentHashes
  | importPack (pack : Pack) (policy : ImportPolicy)
  | tombstone (wingId targetHash : String)
  | otherTables (tables : Store)

/-- An operation and the time it is made at. -/
structure CachedCall where
  op : CachedOp
  now : String

namespace CachedStore

variable {L : WingCache}

section

variable (c : CachedStore L)

/-- The cache is left alone. -/
def kept (s : Store) : CachedStore L := { c with store := s }

/-- Some wings are popped. -/
def popped (s : Store) (wings : List String) : CachedStore L :=
  { store := s, cache := L.popAll c.cache wings }

/-- The cache is cleared. -/
def cleared (s : Store) : CachedStore L := { store := s, cache := L.clear c.cache }

variable (env : Env) (pf : Platform)

/-- What an operation does to the store and to the cache. -/
def apply (call : CachedCall) : CachedStore L :=
  match call.op with
  | .wingSearch wing queryTerms maxResults =>
    (c.wingSearch pf.toLowercase wing queryTerms maxResults).1
  | .write memory fingerprints =>
    match env.writeMemoryInTx call.now c.store memory fingerprints with
    | .ok (s, outcome) => c.popped s (c.store.invalidatedWings memory outcome)
    | .error _ => c
  | .writeBatch items =>
    match env.writeBatch call.now c.store items with
    | .ok (s, _, wings) => c.popped s wings
    | .error _ => c
  | .setWing key wing => c.cleared (c.store.setWing key wing)
  | .setHall id hall => c.kept (pf.setHall c.store id hall).1
  | .setDeclarativeDensity memoryId density =>
    c.cleared (c.store.setDeclarativeDensity memoryId density)
  | .setCompactionTier memoryId tier => c.cleared (c.store.setCompactionTier memoryId tier)
  | .setDescription id description generatedAt =>
    match c.store.setDescription id description generatedAt with
    | .ok s => c.cleared s
    | .error _ => c
  | .setSignature memoryId sourceBrainId signature =>
    let s := c.store.setSignature memoryId sourceBrainId signature
    if c.store.HasMemory memoryId then c.cleared s else c.kept s
  | .invalidateAt key validTo => c.cleared (c.store.invalidateAt call.now key validTo)
  | .setValidFrom key validFrom => c.cleared (c.store.setValidFrom call.now key validFrom)
  | .reinforceMemory key strength =>
    let (s, wing) := c.store.reinforceMemory call.now key strength
    c.popped s wing.toList
  | .reinforceBatch keys strength =>
    let (s, wings, _) := c.store.reinforceBatch call.now keys strength
    c.popped s wings
  | .commitTurnOutcomes occurrenceId outcomes strength committedAt =>
    c.kept (applyTurn c.store
      ⟨.commitTurnOutcomes occurrenceId outcomes strength committedAt, call.now⟩)
  | .deleteWingMemoriesBefore wing before =>
    c.popped (pf.deleteWingMemoriesBefore c.store wing before).1 [wing]
  | .deleteMemoryByKey key =>
    let (s, receipt) := c.store.deleteMemoryByKey call.now key
    if receipt.existed then c.cleared s else c.kept s
  | .prune wing keep =>
    let (s, deleted) := pf.prune c.store wing keep
    if 0 < deleted then c.popped s [wing] else c.kept s
  | .consolidateInto sources target policy =>
    match c.store.consolidateInto sources target policy with
    | .ok (s, result) => if result.consolidated = [] then c.kept s else c.cleared s
    | .error _ => c
  | .backfillContentHashes => c.kept (c.store.backfillContentHashes env)
  | .importPack pack policy => c.cleared (env.importPackWithPolicy call.now c.store pack policy).1
  | .tombstone wingId targetHash => c.cleared (c.store.tombstone call.now wingId targetHash)
  | .otherTables tables => c.kept { tables with memories := c.store.memories }

/-- The wing of a memory is not cached. -/
def Uncached (r : MemoryRow) : Prop := ∀ wing ∈ r.wing, L.peek c.cache wing = none

instance (r : MemoryRow) : Decidable (c.Uncached r) :=
  inferInstanceAs (Decidable (∀ wing ∈ r.wing, L.peek c.cache wing = none))

/-- A reinforcement at this time leaves the row as it is served: its score is at the cap or the
strength is nil, and it was reinforced last at the same time. -/
def Unmoved (strength : ℚ) (now : String) (r : MemoryRow) : Prop :=
  reinforced strength r.signalScore = r.signalScore ∧ r.lastReinforcedAt = some now

instance (strength : ℚ) (now : String) (r : MemoryRow) : Decidable (Unmoved strength now r) :=
  inferInstanceAs (Decidable (_ ∧ _))

/-- **The condition on the two operations that leave the cache alone.**  A `set_hall` sets the
hall the memory has, or the wing of the memory is not cached.  A `commit_turn_outcomes` that
takes effect reinforces only memories of wings that are not cached, or ones it does not move. -/
def Refreshes (call : CachedCall) : Prop :=
  match call.op with
  | .setHall id hall => ∀ r ∈ c.store.memories.rows, r.id = id → r.hall = some hall ∨ c.Uncached r
  | .commitTurnOutcomes occurrenceId outcomes strength _ => c.store.Open occurrenceId →
      ∀ r ∈ c.store.memories.rows, (r.key, .used) ∈ outcomes →
        c.store.Delivered occurrenceId r.key → Unmoved strength call.now r ∨ c.Uncached r
  | _ => True

end

instance (s : Store) (occurrenceId : String) : Decidable (s.Open occurrenceId) :=
  inferInstanceAs (Decidable (∀ e ∈ s.turnEvents.rows, e.occurrenceId = occurrenceId →
    e.committedAt = none ∧ e.voidedAt = none))

instance (c : CachedStore L) (call : CachedCall) : Decidable (c.Refreshes call) := by
  obtain ⟨op, now⟩ := call
  cases op <;> unfold Refreshes <;> infer_instance

variable {c : CachedStore L} {s : Store}

theorem coherent_cleared : (c.cleared s).Coherent := Cache.coherent_clear _ _

theorem coherent_popped (h : c.Coherent) {wings : List String}
    (hrows : ∀ wing ∉ wings, s.wingRows wing = c.store.wingRows wing) :
    (c.popped s wings).Coherent := Cache.Coherent.popAll h hrows

theorem coherent_kept (h : c.Coherent)
    (hrows : ∀ wing, s.wingRows wing = c.store.wingRows wing) : (c.kept s).Coherent :=
  Cache.Coherent.of_eq h hrows

/-- When the cache is left alone, only the wings that are cached have to keep their rows. -/
theorem coherent_kept_of_cached (h : c.Coherent)
    (hrows : ∀ wing, L.peek c.cache wing ≠ none → s.wingRows wing = c.store.wingRows wing) :
    (c.kept s).Coherent := by
  intro wing cached hcached
  replace hcached : L.peek c.cache wing = some cached := hcached
  change cached = s.wingRows wing
  rw [hrows wing (by rw [hcached]; exact Option.some_ne_none _)]
  exact h wing cached hcached

end CachedStore

/-! ## The two operations that leave the cache alone -/

/-- A `set_hall` shows in the wing of its memory, unless the memory has that hall. -/
theorem Platform.wingRows_setHall {pf : Platform} {s : Store} {id hall wing : String}
    (h : ∀ r ∈ s.memories, r.id = id → r.hall = some hall ∨ r.wing ≠ some wing) :
    (pf.setHall s id hall).1.wingRows wing = s.wingRows wing := by
  unfold setHall
  split
  · refine (Store.wingRows_of_memories_eq (s := s.updateMemories (fun r => r.id = id)
      (fun r => { r with hall := some hall }) fun _ => ⟨rfl, rfl⟩) rfl wing).trans ?_
    refine Store.wingRows_updateMemories fun r hr hp => ?_
    rcases h r hr (of_decide_eq_true hp) with hsame | hother
    · left
      unfold memoryHitFromRow
      rw [hsame]
    · exact Or.inr ⟨hother, hother⟩
  · rfl

namespace Store

variable {occurrenceId : String} {outcomes : List (String × LedgerOutcome)} {strength : ℚ}
  {now : String}

theorem wingRows_updateTurnEvent {s : Store} {g : TurnEventRow → TurnEventRow}
    {hg : ∀ e, (g e).occurrenceId = e.occurrenceId} (wing : String) :
    (s.updateTurnEvent occurrenceId g hg).wingRows wing = s.wingRows wing :=
  wingRows_of_memories_eq rfl wing

theorem wing_settleMemory (s : Store) (r : MemoryRow) :
    (s.settleMemory occurrenceId outcomes strength now r).wing = r.wing := by
  unfold settleMemory
  induction (if s.Delivered occurrenceId r.key then usedReports outcomes r.key else 0) with
  | zero => rfl
  | succ n ih => rw [Function.iterate_succ_apply']; exact ih

/-- A row no reinforcement moves is served the same after any number of them. -/
theorem served_iterate_reinforce {r : MemoryRow} (h : CachedStore.Unmoved strength now r) (n : ℕ) :
    memoryHitFromRow 0 ((MemoryRow.reinforce strength now)^[n] r) = memoryHitFromRow 0 r := by
  induction n with
  | zero => rfl
  | succ n ih =>
    rw [Function.iterate_succ_apply', ← ih]
    generalize hr' : (MemoryRow.reinforce strength now)^[n] r = r' at ih ⊢
    have hscore : r'.signalScore = r.signalScore := congrArg MemoryHit.signalScore ih
    have hlast : r'.lastReinforcedAt = r.lastReinforcedAt := congrArg MemoryHit.lastReinforcedAt ih
    unfold MemoryRow.reinforce memoryHitFromRow
    rw [hscore, h.1, hlast, h.2]

/-- A report shows in a wing through the memories it moves. -/
theorem wingRows_of_settled {s t : Store} {wing : String}
    (h : Settled occurrenceId outcomes strength now s t)
    (hunmoved : ∀ r ∈ s.memories, r.wing = some wing → (r.key, .used) ∈ outcomes →
      s.Delivered occurrenceId r.key → CachedStore.Unmoved strength now r) :
    t.wingRows wing = s.wingRows wing := by
  have hserved : ∀ r ∈ s.memories, r.wing = some wing →
      memoryHitFromRow 0 (s.settleMemory occurrenceId outcomes strength now r) =
        memoryHitFromRow 0 r := by
    intro r hr hw
    unfold settleMemory
    by_cases hdel : s.Delivered occurrenceId r.key
    · rw [if_pos hdel]
      by_cases hused : (r.key, .used) ∈ outcomes
      · exact served_iterate_reinforce (hunmoved r hr hw hused hdel) _
      · rw [usedReports, List.count_eq_zero_of_not_mem hused]
        rfl
    · rw [if_neg hdel]
      rfl
  refine wingRows_ext fun x => ?_
  rw [mem_wingRows, mem_wingRows]
  constructor
  · rintro ⟨r', hr', hw, rfl⟩
    obtain ⟨r, hr, rfl⟩ := (h.memories r').1 hr'
    rw [wing_settleMemory] at hw
    exact ⟨r, hr, hw, (hserved r hr hw).symm⟩
  · rintro ⟨r, hr, hw, rfl⟩
    exact ⟨_, (h.memories _).2 ⟨r, hr, rfl⟩, (wing_settleMemory s r).trans hw, hserved r hr hw⟩

end Store

/-! ## Every operation -/

namespace CachedStore

variable {L : WingCache} {env : Env} {pf : Platform} {c : CachedStore L}

/-- A cached wing is not the wing of a memory whose wing is not cached. -/
theorem Uncached.wing_ne {r : MemoryRow} {wing : String} (h : c.Uncached r)
    (hcached : L.peek c.cache wing ≠ none) : r.wing ≠ some wing :=
  fun hw => hcached (h wing hw)

/-- **One operation** keeps the cache coherent. -/
theorem coherent_apply (h : c.Coherent) {call : CachedCall} (hfresh : c.Refreshes call) :
    (c.apply env pf call).Coherent := by
  obtain ⟨op, now⟩ := call
  cases op with
  | wingSearch wing queryTerms maxResults => exact coherent_wingSearch h
  | write memory fingerprints =>
    simp only [apply]
    split
    · rename_i s outcome hwrite
      exact coherent_popped h fun wing hw => Env.wingRows_writeMemoryInTx hwrite hw
    · exact h
  | writeBatch items =>
    simp only [apply]
    split
    · rename_i s outcomes wings hbatch
      exact coherent_popped h fun wing hw => Env.wingRows_writeBatch hbatch hw
    · exact h
  | setWing key wing => exact coherent_cleared
  | setHall id hall =>
    refine coherent_kept_of_cached h fun wing hcached => Platform.wingRows_setHall fun r hr hid => ?_
    exact (hfresh r hr hid).imp_right fun hun => hun.wing_ne hcached
  | setDeclarativeDensity memoryId density => exact coherent_cleared
  | setCompactionTier memoryId tier => exact coherent_cleared
  | setDescription id description generatedAt =>
    simp only [apply]
    split
    · exact coherent_cleared
    · exact h
  | setSignature memoryId sourceBrainId signature =>
    simp only [apply]
    split
    · exact coherent_cleared
    · rename_i hnone
      refine coherent_kept h fun wing => Store.wingRows_updateMemories fun r hr hp => ?_
      exact absurd ⟨r, hr, of_decide_eq_true hp⟩ hnone
  | invalidateAt key validTo => exact coherent_cleared
  | setValidFrom key validFrom => exact coherent_cleared
  | reinforceMemory key strength =>
    exact coherent_popped h fun wing hw => Store.wingRows_reinforceMemory hw
  | reinforceBatch keys strength =>
    exact coherent_popped h fun wing hw => Store.wingRows_reinforceBatch hw
  | commitTurnOutcomes occurrenceId outcomes strength committedAt =>
    refine coherent_kept_of_cached h fun wing hcached => ?_
    have hstep := turnStep_applyTurn c.store
      ⟨.commitTurnOutcomes occurrenceId outcomes strength committedAt, now⟩
    generalize applyTurn c.store _ = t at hstep ⊢
    cases hstep with
    | unchanged _ => rfl
    | committed hopen hsettled =>
      rw [Store.wingRows_updateTurnEvent]
      refine Store.wingRows_of_settled hsettled fun r hr hw hused hdel => ?_
      exact (hfresh hopen r hr hused hdel).resolve_right fun hun => hun.wing_ne hcached hw
  | deleteWingMemoriesBefore wing before =>
    exact coherent_popped h fun w hw =>
      Platform.wingRows_deleteWingMemoriesBefore fun heq => hw (List.mem_singleton.2 heq)
  | deleteMemoryByKey key =>
    simp only [apply]
    split
    · exact coherent_cleared
    · rename_i hnone
      refine coherent_kept h fun wing => ?_
      rw [Store.deleteMemoryByKey_of_not_existed (by simpa using hnone)]
  | prune wing keep =>
    simp only [apply]
    split
    · exact coherent_popped h fun w hw =>
        Platform.wingRows_prune fun heq => hw (List.mem_singleton.2 heq)
    · rename_i hzero
      refine coherent_kept h fun w => Store.wingRows_of_memories_eq ?_ w
      exact Platform.memories_prune_of_zero (by omega)
  | consolidateInto sources target policy =>
    simp only [apply]
    split
    · rename_i s result hmerge
      split
      · rename_i hnil
        exact coherent_kept h fun wing =>
          Store.wingRows_of_memories_eq (Store.memories_consolidateInto_of_nil hmerge hnil) wing
      · exact coherent_cleared
    · exact h
  | backfillContentHashes =>
    exact coherent_kept h fun wing => Store.wingRows_updateMemories fun _ _ _ => Or.inl rfl
  | importPack pack policy => exact coherent_cleared
  | tombstone wingId targetHash => exact coherent_cleared
  | otherTables tables =>
    exact coherent_kept h fun wing => Store.wingRows_of_memories_eq rfl wing

/-- **Wing cache coherence.**  From any store with nothing cached, after every run of
operations that all meet `Refreshes`, a wing search returns what it returns on the same rows
with an empty cache. -/
theorem wingSearch_of_refreshes (s : Store) (calls : List CachedCall)
    (hfresh : AllSteps (fun c : CachedStore L => c.apply env pf) Refreshes
      { store := s, cache := L.empty } calls)
    (wing : String) (queryTerms : List String) (maxResults : ℕ) :
    let c := run (fun c : CachedStore L => c.apply env pf) { store := s, cache := L.empty } calls
    (c.wingSearch pf.toLowercase wing queryTerms maxResults).2 =
      (c.uncached.wingSearch pf.toLowercase wing queryTerms maxResults).2 := by
  have hstart : CachedStore.Coherent (L := L) { store := s, cache := L.empty } :=
    Cache.coherent_empty _
  exact wingSearch_eq_uncached (run_invariant_of_allSteps (I := fun c : CachedStore L => c.Coherent)
    (fun _ _ h hok => coherent_apply h hok) hstart hfresh)

/-- A memory of a wing and hall. -/
def hallNote : Memory :=
  { id := "0aa1", key := "note", content := "ship on monday", wing := some "work",
    hall := some "fact" }

/-- The hall is corrected before the wing is searched, and again to the same. -/
def correctedEarly : List CachedCall :=
  [⟨.write hallNote [], "2026-01-01 09:00:00"⟩, ⟨.setHall "0aa1" "decision", "2026-01-01 09:01:00"⟩,
    ⟨.wingSearch "work" [] 10, "2026-01-01 09:02:00"⟩,
    ⟨.setHall "0aa1" "decision", "2026-01-01 09:03:00"⟩,
    ⟨.reinforceMemory "note" (1 / 10), "2026-01-01 09:04:00"⟩]

theorem wingSearch_of_refreshes_note :
    AllSteps (fun c : CachedStore wingCache => c.apply (Env.ofRecords [] []) Platform.plain)
        Refreshes { store := {}, cache := wingCache.empty } correctedEarly ∧
      let c := run (fun c : CachedStore wingCache => c.apply (Env.ofRecords [] []) Platform.plain)
        { store := {}, cache := wingCache.empty } correctedEarly
      (c.wingSearch String.toLower "work" ["monday"] 10).2 =
        (c.uncached.wingSearch String.toLower "work" ["monday"] 10).2 := by
  have hfresh : AllSteps (fun c : CachedStore wingCache =>
      c.apply (Env.ofRecords [] []) Platform.plain) Refreshes
        { store := {}, cache := wingCache.empty } correctedEarly := by
    decide +kernel
  exact ⟨hfresh, wingSearch_of_refreshes {} correctedEarly hfresh "work" ["monday"] 10⟩

/-! ## A stale hall -/

/-- The hall is corrected after the wing was searched. -/
def correctedLate : List CachedCall :=
  [⟨.write hallNote [], "2026-01-01 09:00:00"⟩, ⟨.wingSearch "work" [] 10, "2026-01-01 09:01:00"⟩,
    ⟨.setHall "0aa1" "decision", "2026-01-01 09:02:00"⟩]

/-- **The stale hall.**  The search goes on returning the hall the memory had. -/
theorem stale_hall_note :
    let c := run (fun c : CachedStore wingCache => c.apply (Env.ofRecords [] []) Platform.plain)
      { store := {}, cache := wingCache.empty } correctedLate
    (c.wingSearch String.toLower "work" [] 10).2.map MemoryHit.hall = [some "fact"] ∧
      (c.uncached.wingSearch String.toLower "work" [] 10).2.map MemoryHit.hall =
        [some "decision"] := by
  decide +kernel

end CachedStore

end Spectral
