import Spectral.Lib.Reconcile
import Spectral.Brain.Enrolment

/-!
# Repair under concurrent writes and forgets

`remember_with` writes a memory and enrolls it later; `forget` deletes a memory and then its entry;
`drain_enrolment_retries` reads the queue, and then reads and enrolls one memory after the other;
`repair_derivations` takes the memories, walks over them, and then prunes the index by what it has
taken.  No lock is held from one of these steps to the next.  The state is a brain and the calls
under way; a step starts a call, or moves one on by one of its actions.

* `Reconciled` — what the index lacks some call is still to enroll, and what it has too much some
  call is still to drop.
* `reconciled_step` — every step keeps it, under the condition `Timely` on what a step enrolls, drops
  and deletes.
* `healed_of_timely` — so when all calls have returned the index has the live memories and no others.
* `repair_races_write` — a memory that is written and enrolled between the scan of a repair and its
  prune loses its entry, and one that is deleted between its write and its enrolment is enrolled.

No operation of the index fails in these runs, and no probe of a recall.
-/

namespace Spectral

open Spectral.Lib

/-! ## Calls under way -/

/-- What a `remember_with` has written, and goes on to derive from. -/
structure Derivation where
  memory : Memory
  content : String
  opts : RememberOpts
  fingerprints : List Fingerprint
  outcome : WriteOutcome

/-- How far a `remember_with` is with a memory it has written. -/
inductive DerivePhase where
  | associate
  | density
  | readBack
  | sign (fields : SignedFields)
  | feed (warnings : List String)
  | enroll (recurrence : Option Recurrence) (warnings : List String)

/-- How far a `drain_enrolment_retries` is: before it reads the queue, or with ids left. -/
inductive DrainPhase where
  | readQueue (batch : ℕ)
  | readContent (ids : List String) (healed : ℕ)
  | retry (id content : String) (ids : List String) (healed : ℕ)
  | unqueue (id : String) (ids : List String) (healed : ℕ)

/-- How far a `forget` is. -/
inductive ForgetPhase where
  | probe
  | delete (content : String)
  | erase (content : String) (receipt : ForgetReceipt)
  | probeRecall (content : String) (receipt : ForgetReceipt) (removed : Bool)
  | probeRecognition (content : String) (receipt : ForgetReceipt) (removed : Bool)
    (recalled : VerificationStatus)

/-- The walk of a repair: the ids it has taken, the memories it has left, and its report. -/
structure RepairWalk where
  live : List String
  rest : List MemoryRow
  report : DerivationRepairReport

/-- How far a `repair_derivations` is. -/
inductive RepairPhase where
  | backfill
  | scan (contentHashesRepaired : ℕ)
  | walk (w : RepairWalk)
  | sign (w : RepairWalk) (memory : MemoryRow)
  | enroll (w : RepairWalk) (memory : MemoryRow)

/-- A call under way.  A drain is a call of its own, or the end of a `remember_with`, which has its
result ready. -/
inductive IndexCall where
  | write (key content : String) (opts : RememberOpts) (fingerprints : List Fingerprint)
  | derive (d : Derivation) (phase : DerivePhase)
  | drain (result : Option RememberResult) (phase : DrainPhase)
  | forget (key : String) (phase : ForgetPhase)
  | repair (limit : ℕ) (phase : RepairPhase)
  | remembered (result : Except String RememberResult)
  | drained (healed : ℕ)
  | forgotten (report : ForgetReport)
  | repaired (report : DerivationRepairReport)

/-- Has the call returned? -/
def IndexCall.isReturned : IndexCall → Bool
  | .remembered _ | .drained _ | .forgotten _ | .repaired _ => true
  | _ => false

namespace BrainState

variable {L : WingCache} (S : BrainSetup) (now since : String) (b : BrainState L)

/-- The write of a `remember_with`. -/
def moveWrite (key content : String) (opts : RememberOpts) (fingerprints : List Fingerprint) :
    BrainState L × IndexCall :=
  match b.ingest S now since (S.env.keyToId key) key content opts fingerprints with
  | (written, .error e) => (written, .remembered (.error e))
  | (written, .ok (memory, outcome)) =>
    (written, .derive { memory, content, opts, fingerprints, outcome } .associate)

/-- What a `remember_with` does next. -/
def moveDerive (d : Derivation) : DerivePhase → BrainState L × IndexCall
  | .associate =>
    match b.associateSession d.memory.id d.opts.sessionId with
    | .ok joined => (joined, .derive d .density)
    | .error e => (b, .remembered (.error ("persist memory session: " ++ e)))
  | .density =>
    (b.applyStore S ⟨.setDeclarativeDensity d.memory.id (S.declarativeDensity d.content), now⟩,
      .derive d .readBack)
  | .readBack =>
    match b.readBack d.memory.id with
    | .ok (some fields) => (b, .derive d (.sign fields))
    | .ok none => (b, .derive d (.feed []))
    | .error e => (b, .derive d (.feed [e]))
  | .sign fields => (b.signAs S now d.memory.id fields, .derive d (.feed []))
  | .feed warnings =>
    let fed := b.feedRecurrence S now {} d.memory.id d.content d.outcome
    (fed.1, .derive d (.enroll fed.2 warnings))
  | .enroll recurrence warnings =>
    let enrolled := b.enrollStored S now {} d.memory.id d.content
    (enrolled.1, .drain (some (d.memory.rememberResult d.outcome d.fingerprints.length recurrence
      (warnings ++ enrolled.2))) (.readQueue enrolmentRetryBatch))

/-- What a `drain_enrolment_retries` does next.  The enrolment and the delete from the queue are
under one lock. -/
def moveDrain (result : Option RememberResult) : DrainPhase → BrainState L × IndexCall
  | .readQueue batch => (b, .drain result (.readContent (b.index.pendingIds batch) 0))
  | .readContent [] healed =>
    (b, match result with
      | some result => .remembered (.ok result)
      | none => .drained healed)
  | .readContent (id :: ids) healed =>
    (b, .drain result (match b.getMemory id with
      | some memory => .retry id memory.content ids healed
      | none => .unqueue id ids healed))
  | .retry id content ids healed =>
    match b.index.enroll S.rc none id content with
    | (index, .ok _) =>
      ({ b with index := index.clearPending id }, .drain result (.readContent ids (healed + 1)))
    | (index, .error _) => ({ b with index }, .drain result (.readContent ids healed))
  | .unqueue id ids healed =>
    ({ b with index := b.index.clearPending id }, .drain result (.readContent ids healed))

/-- What a `forget` does next. -/
def moveForget (key : String) : ForgetPhase → BrainState L × IndexCall
  | .probe => (b, .forget key (.delete (b.probeContent S key)))
  | .delete content =>
    (b.applyStore S ⟨.deleteMemoryByKey key, now⟩,
      .forget key (.erase content (b.cached.store.deleteMemoryByKey now key).2))
  | .erase content receipt =>
    ({ b with index := (b.index.forget (S.env.keyToId key)).1 },
      .forget key (.probeRecall content receipt (b.index.isEnrolled (S.env.keyToId key))))
  | .probeRecall content receipt removed =>
    if receipt.existed = false ∨ content = "" then
      (b, .forgotten { store := receipt, recognitionRemoved := removed, recallClear := true,
                       recognizeClear := true, recallVerification := .verifiedClear,
                       recognitionVerification := .verifiedClear })
    else
      let probed := b.probeRecall S none key content
      (probed.1, .forget key (.probeRecognition content receipt removed probed.2))
  | .probeRecognition content receipt removed recalled =>
    let recognition := b.probeRecognition S {} (S.env.keyToId key) content
    (b, .forgotten { store := receipt, recognitionRemoved := removed,
                     recallClear := decide (recalled = .verifiedClear),
                     recognizeClear := decide (recognition = .verifiedClear),
                     recallVerification := recalled, recognitionVerification := recognition })

/-- What a `repair_derivations` does next.  The prune reads the ids of the index and drops entries
under one lock. -/
def moveRepair (limit : ℕ) : RepairPhase → BrainState L × IndexCall
  | .backfill =>
    (b.applyStore S ⟨.backfillContentHashes, now⟩,
      .repair limit (.scan (b.cached.store.memories.countWhere fun r => r.contentHash = none)))
  | .scan contentHashesRepaired =>
    let memories := b.cached.store.listMemoriesBySignal 0 limit
    (b, .repair limit (.walk { live := memories.map MemoryRow.id, rest := memories
                               report := { scanned := memories.length, contentHashesRepaired } }))
  | .walk { live, rest := memory :: rest, report } =>
    let dense := b.repairDensity S now report memory
    (dense.1, .repair limit (.sign { live, rest, report := dense.2 } memory))
  | .walk { live, rest := [], report } =>
    if report.scanned < limit then
      let pruned := b.pruneOrphans {} report live
      (pruned.1, .repaired pruned.2)
    else (b, .repaired report)
  | .sign { live, rest, report } memory =>
    let signed := b.repairSignature S now report memory
    (signed.1, .repair limit (.enroll { live, rest, report := signed.2 } memory))
  | .enroll { live, rest, report } memory =>
    ({ b with index := (b.index.enroll S.rc none memory.id memory.content).1 },
      .repair limit (.walk { live, rest, report := { report with
        recognitionEnrollmentsRefreshed := report.recognitionEnrollmentsRefreshed + 1 } }))

/-- The next action of a call. -/
def move : IndexCall → BrainState L × IndexCall
  | .write key content opts fingerprints => b.moveWrite S now since key content opts fingerprints
  | .derive d phase => b.moveDerive S now d phase
  | .drain result phase => b.moveDrain S result phase
  | .forget key phase => b.moveForget S now key phase
  | .repair limit phase => b.moveRepair S now limit phase
  | call => (b, call)

/-- The live memories are enrolled, and nothing else is. -/
def Healed : Prop := ∀ id, b.cached.store.HasMemory id ↔ id ∈ b.index.enrolled

end BrainState

/-- A brain with calls under way. -/
structure BusyBrain (L : WingCache) where
  brain : BrainState L
  calls : List IndexCall := []

/-- A call starts, or takes its next action. -/
inductive IndexStep where
  | remember (key content : String) (opts : RememberOpts) (fingerprints : List Fingerprint)
  | forget (key : String)
  | repairDerivations (limit : ℕ)
  | drainEnrolmentRetries (batch : ℕ)
  | advance (call : ℕ) (now since : String)

/-! ## What is still to come -/

/-- The ids a call is still to enroll. -/
def IndexCall.toEnroll : IndexCall → List String
  | .derive d _ => [d.memory.id]
  | .drain _ (.readContent ids _) | .drain _ (.unqueue _ ids _) => ids
  | .drain _ (.retry id _ ids _) => id :: ids
  | .repair _ (.walk w) => w.rest.map MemoryRow.id
  | .repair _ (.sign w memory) | .repair _ (.enroll w memory) =>
    memory.id :: w.rest.map MemoryRow.id
  | _ => []

/-- The prune of a repair that has taken in every memory drops what it has not taken. -/
def RepairWalk.Prunes (w : RepairWalk) (limit : ℕ) (id : String) : Prop :=
  w.report.scanned < limit ∧ id ∉ w.live

/-- The call is still to drop the entry of the id. -/
def IndexCall.Drops (S : BrainSetup) (id : String) : IndexCall → Prop
  | .forget key .probe | .forget key (.delete _) | .forget key (.erase ..) => id = S.env.keyToId key
  | .repair limit (.walk w) | .repair limit (.sign w _) | .repair limit (.enroll w _) =>
    w.Prunes limit id
  | _ => False

/-- The id the next action of the call enrolls. -/
def IndexCall.enrolls : IndexCall → Option String
  | .derive d (.enroll ..) => some d.memory.id
  | .drain _ (.retry id ..) => some id
  | .repair _ (.enroll _ memory) => some memory.id
  | _ => none

/-- The next action of the call drops the entry of the id. -/
def IndexCall.DropsNow (S : BrainSetup) (id : String) : IndexCall → Prop
  | .forget key (.erase ..) => id = S.env.keyToId key
  | .repair limit (.walk w) => w.rest = [] ∧ w.Prunes limit id
  | _ => False

/-- The key under which the next action of the call deletes the memory. -/
def IndexCall.deletes : IndexCall → Option String
  | .forget key (.delete _) => some key
  | _ => none

instance (w : RepairWalk) (limit : ℕ) (id : String) : Decidable (w.Prunes limit id) :=
  inferInstanceAs (Decidable (_ ∧ _))

instance (S : BrainSetup) (id : String) (c : IndexCall) : Decidable (c.Drops S id) := by
  unfold IndexCall.Drops
  split <;> infer_instance

instance (S : BrainSetup) (id : String) (c : IndexCall) : Decidable (c.DropsNow S id) := by
  unfold IndexCall.DropsNow
  split <;> infer_instance

namespace BusyBrain

section

variable {L : WingCache} (S : BrainSetup) (b : BusyBrain L)

/-- A call has moved on, and leaves a brain. -/
def moved (call : ℕ) (p : BrainState L × IndexCall) : BusyBrain L :=
  { brain := p.1, calls := b.calls.modify call fun _ => p.2 }

/-- A call takes its next action. -/
def advance (call : ℕ) (now since : String) : BusyBrain L :=
  match b.calls[call]? with
  | some c => b.moved call (b.brain.move S now since c)
  | none => b

/-- One step. -/
def step : IndexStep → BusyBrain L
  | .remember key content opts fingerprints =>
    { b with calls := b.calls ++ [.write key content opts fingerprints] }
  | .forget key => { b with calls := b.calls ++ [.forget key .probe] }
  | .repairDerivations limit => { b with calls := b.calls ++ [.repair limit .backfill] }
  | .drainEnrolmentRetries batch => { b with calls := b.calls ++ [.drain none (.readQueue batch)] }
  | .advance call now since => b.advance S call now since

/-- All calls have returned. -/
def Idle : Prop := ∀ c ∈ b.calls, c.isReturned = true

instance : Decidable b.Idle := inferInstanceAs (Decidable (∀ c ∈ b.calls, _))

/-- What the index lacks some call is still to enroll, and what it has too much some call is still
to drop. -/
def Reconciled : Prop :=
  Lib.Reconciled (fun c id => id ∈ IndexCall.toEnroll c) (fun c id => IndexCall.Drops S id c)
    b.brain.cached.store.HasMemory (fun id => id ∈ b.brain.index.enrolled) b.calls

/-- Another call is still to drop the entry of the id. -/
def OthersDrop (call : ℕ) (id : String) : Prop := ∃ c ∈ b.calls.eraseIdx call, c.Drops S id

/-- Another call is still to enroll the id. -/
def OthersEnroll (call : ℕ) (id : String) : Prop := ∃ c ∈ b.calls.eraseIdx call, id ∈ c.toEnroll

instance (call : ℕ) (id : String) : Decidable (b.OthersDrop S call id) :=
  inferInstanceAs (Decidable (∃ c ∈ b.calls.eraseIdx call, _))

instance (call : ℕ) (id : String) : Decidable (b.OthersEnroll call id) :=
  inferInstanceAs (Decidable (∃ c ∈ b.calls.eraseIdx call, _))

/-- **The condition on a step.**  What it enrolls is a memory, or has an entry already, or another
call is still to drop it; a memory whose entry it drops another call is still to enroll; and a memory
it deletes has the id of its key, or no entry, or another call is still to drop it. -/
def Timely : IndexStep → Prop
  | .advance call _ _ => ∀ c ∈ b.calls[call]?,
      (∀ id ∈ c.enrolls, b.brain.cached.store.HasMemory id ∨ id ∈ b.brain.index.enrolled ∨
        b.OthersDrop S call id) ∧
      (∀ r ∈ b.brain.cached.store.memories.rows, c.DropsNow S r.id → b.OthersEnroll call r.id) ∧
      ∀ key ∈ c.deletes, ∀ r ∈ b.brain.cached.store.memories.rows, r.key = key →
        r.id = S.env.keyToId key ∨ r.id ∉ b.brain.index.enrolled ∨ b.OthersDrop S call r.id
  | _ => True

instance (a : IndexStep) : Decidable (b.Timely S a) := by
  cases a <;> unfold Timely <;> infer_instance

/-- **A survey.**  After the step some call has in hand all that is wrong with the index: a repair
that takes in every memory, or a drain whose part of the queue has every memory without an entry,
where every entry is of a memory. -/
def Surveys : IndexStep → Prop
  | .advance call _ _ =>
    match b.calls[call]? with
    | some (.repair limit (.scan _)) =>
      (b.brain.cached.store.memories.countWhere fun r => decide (0 ≤ r.signalScore)) < limit ∧
        ∀ r ∈ b.brain.cached.store.memories.rows, 0 ≤ r.signalScore
    | some (.drain _ (.readQueue batch)) =>
      (∀ r ∈ b.brain.cached.store.memories.rows, r.id ∈ b.brain.index.enrolled ∨
        r.id ∈ b.brain.index.pendingIds batch) ∧
      ∀ id ∈ b.brain.index.enrolled.rows, b.brain.cached.store.HasMemory id
    | _ => False
  | _ => False

instance (a : IndexStep) : Decidable (b.Surveys a) := by
  unfold Surveys
  split
  · split <;> infer_instance
  · exact isFalse not_false

/-- **The condition on a run.**  The brain is healed and all steps are timely, or some step surveys
the index and all steps after it are timely. -/
def HealsAll (brain : BrainState L) (steps : List IndexStep) : Prop :=
  (brain.Healed ∧ AllSteps (step S) (Timely S) ⟨brain, []⟩ steps) ∨
    ∃ past a rest, steps = past ++ a :: rest ∧ (run (step S) ⟨brain, []⟩ past).Surveys a ∧
      AllSteps (step S) (Timely S) ((run (step S) ⟨brain, []⟩ past).step S a) rest

end

end BusyBrain

/-! ## What the actions leave -/

namespace BrainState

variable {L : WingCache} {S : BrainSetup} {now since : String} {b b' : BrainState L}
  {key content memoryId id : String}

theorem hasMemory_of_texts (h : b'.cached.store.texts = b.cached.store.texts) :
    b'.cached.store.HasMemory id ↔ b.cached.store.HasMemory id := by
  have hids : ∀ b : BrainState L,
      b.cached.store.HasMemory id ↔ id ∈ b.cached.store.contents.map Prod.fst :=
    fun b => Store.mem_ids_contents.symm
  rw [hids, hids, Store.contents_eq_of_texts h]

/-- A write adds no memory but the one it returns, and loses none. -/
theorem hasMemory_of_ingest {memory : Memory} {outcome : WriteOutcome} {opts : RememberOpts}
    {fingerprints : List Fingerprint}
    (h : b.ingest S now since memoryId key content opts fingerprints =
      (b', .ok (memory, outcome))) :
    (b'.cached.store.HasMemory id → b.cached.store.HasMemory id ∨ id = memory.id) ∧
      (b.cached.store.HasMemory id → b'.cached.store.HasMemory id) := by
  obtain ⟨-, -, s, hmemories, hwritten⟩ := exists_written_of_ingest h
  have hrow : (∃ r ∈ b.cached.store.memories, r.key = memory.key ∧
      (S.env.writtenRow now s memory).id = r.id) ∨
        s.memoryByKey memory.key = none ∧ (S.env.writtenRow now s memory).id = memory.id := by
    unfold Env.writtenRow
    cases hk : s.memoryByKey memory.key with
    | none => exact Or.inr ⟨rfl, rfl⟩
    | some r =>
      obtain ⟨hr, hrkey⟩ := Store.memoryByKey_eq_some.1 hk
      refine Or.inl ⟨r, hmemories ▸ hr, hrkey, ?_⟩
      dsimp only
      split <;> rfl
  constructor
  · rintro ⟨r, hr, rfl⟩
    rcases (hwritten.mem_memories r).1 hr with ⟨hr, -⟩ | rfl
    · exact Or.inl ⟨r, hmemories ▸ hr, rfl⟩
    · rcases hrow with ⟨r, hr, -, hid⟩ | ⟨-, hid⟩
      · exact Or.inl ⟨r, hr, hid.symm⟩
      · exact Or.inr hid
  · rintro ⟨r, hr, rfl⟩
    by_cases hkey : r.key = memory.key
    · refine ⟨_, (hwritten.mem_memories _).2 (Or.inr rfl), ?_⟩
      rcases hrow with ⟨r', hr', hkey', hid⟩ | ⟨hnone, -⟩
      · rw [hid, Store.eq_of_key hr' hr (hkey'.trans hkey.symm)]
      · exact absurd hkey (Store.memoryByKey_eq_none.1 hnone r (hmemories ▸ hr))
    · exact ⟨r, (hwritten.mem_memories r).2 (Or.inl ⟨hmemories ▸ hr, hkey⟩), rfl⟩

theorem hasMemory_deleteMemoryByKey :
    (b.applyStore S ⟨.deleteMemoryByKey key, now⟩).cached.store.HasMemory id ↔
      ∃ r ∈ b.cached.store.memories, r.id = id ∧ r.key ≠ key := by
  have hstore : (b.applyStore S ⟨.deleteMemoryByKey key, now⟩).cached.store =
      (b.cached.store.deleteMemoryByKey now key).1 := by
    unfold applyStore CachedStore.apply
    dsimp only
    split <;> rfl
  rw [hstore]
  constructor
  · rintro ⟨r, hr, rfl⟩
    obtain ⟨hr, hkey⟩ := Store.mem_memories_deleteMemoryByKey.1 hr
    exact ⟨r, hr, rfl, hkey⟩
  · rintro ⟨r, hr, rfl, hkey⟩
    exact ⟨r, Store.mem_memories_deleteMemoryByKey.2 ⟨hr, hkey⟩, rfl⟩

theorem mem_enrolled_enrollStored :
    id ∈ (b.enrollStored S now {} memoryId content).1.index.enrolled ↔
      id ∈ b.index.enrolled ∨ id = memoryId := by
  rw [index_enrollStored, ← RecognitionIndex.enroll_none]
  exact RecognitionIndex.mem_enrolled_enroll_none

theorem mem_enrolled_pruneOrphans {report : DerivationRepairReport} {live : List String} :
    id ∈ (b.pruneOrphans {} report live).1.index.enrolled ↔ id ∈ b.index.enrolled ∧ id ∈ live := by
  rw [mem_enrolled_pruneOrphans_iff]
  simp

end BrainState

namespace BusyBrain

open BrainState

variable {L : WingCache} {S : BrainSetup} {now since : String} {b : BusyBrain L} {i : ℕ}

/-! ## One step -/

/-- A step that leaves the memories and the entries.  The call goes on to enroll what it was to
enroll, as far as it is live, and to drop what it was to drop. -/
theorem Reconciled.quiet (h : b.Reconciled S) {c c' : IndexCall} (hi : b.calls[i]? = some c)
    {brain : BrainState L} (htexts : brain.cached.store.texts = b.brain.cached.store.texts)
    (hindex : brain.index.enrolled = b.brain.index.enrolled)
    (henroll : ∀ id, b.brain.cached.store.HasMemory id → id ∈ c.toEnroll → id ∈ c'.toEnroll)
    (hdrops : ∀ id, c.Drops S id → c'.Drops S id) : (b.moved i (brain, c')).Reconciled S := by
  refine Lib.Reconciled.quiet h hi (fun id => hasMemory_of_texts htexts) (fun id => ?_)
    (fun id hid => henroll id ((hasMemory_of_texts htexts).1 hid)) hdrops
  show id ∈ brain.index.enrolled ↔ _
  rw [hindex]

/-- A step that enrolls an id. -/
theorem Reconciled.mark (h : b.Reconciled S) {c c' : IndexCall} {id : String}
    (hi : b.calls[i]? = some c) (htimely : b.Timely S (.advance i now since))
    (hid : c.enrolls = some id) {brain : BrainState L} (hcached : brain.cached = b.brain.cached)
    (hindex : ∀ id', id' ∈ brain.index.enrolled ↔ id' ∈ b.brain.index.enrolled ∨ id' = id)
    (henroll : ∀ id', id' ∈ c.toEnroll → id' = id ∨ id' ∈ c'.toEnroll)
    (hdrops : ∀ id', c.Drops S id' → c'.Drops S id') : (b.moved i (brain, c')).Reconciled S := by
  refine Lib.Reconciled.mark h hi (fun id' => ?_) hindex ((htimely c hi).1 id hid) henroll hdrops
  show brain.cached.store.HasMemory id' ↔ _
  rw [hcached]

/-- The write: the memory is to be enrolled. -/
theorem reconciled_moveWrite (h : b.Reconciled S) {key content : String} {opts : RememberOpts}
    {fingerprints : List Fingerprint}
    (hi : b.calls[i]? = some (.write key content opts fingerprints)) :
    (b.moved i (b.brain.moveWrite S now since key content opts fingerprints)).Reconciled S := by
  unfold moveWrite
  have hindex := @index_of_ingest L S now since b.brain key content opts fingerprints
    (S.env.keyToId key)
  cases hingest : b.brain.ingest S now since (S.env.keyToId key) key content opts fingerprints with
  | mk written result =>
    rw [hingest] at hindex
    dsimp only at hindex
    cases result with
    | error e =>
      exact h.quiet hi (Store.texts_of_memories_eq (memories_of_ingest_error hingest))
        (congrArg _ hindex) (fun _ _ hid => hid) fun _ hid => hid
    | ok p =>
      obtain ⟨memory, outcome⟩ := p
      refine Lib.Reconciled.grow h hi (fun id => (hasMemory_of_ingest hingest).1)
        (fun id => (hasMemory_of_ingest hingest).2) (fun id => ?_) ?_ (fun id hid => ?_)
        fun id hid => hid
      · show id ∈ written.index.enrolled ↔ _
        rw [hindex]
      · exact List.mem_singleton_self _
      · exact absurd hid List.not_mem_nil

/-- What a write derives: the memory stays to be enrolled until it is. -/
theorem reconciled_moveDerive (h : b.Reconciled S) {d : Derivation} {phase : DerivePhase}
    (hi : b.calls[i]? = some (.derive d phase)) (htimely : b.Timely S (.advance i now since)) :
    (b.moved i (b.brain.moveDerive S now d phase)).Reconciled S := by
  have hspares : ∀ {brain : BrainState L} {phase' : DerivePhase}, b.brain.Spares brain →
      (b.moved i (brain, .derive d phase')).Reconciled S := fun hspares =>
    h.quiet hi hspares.texts (congrArg _ hspares.index) (fun _ _ hid => hid) fun _ hid => hid
  cases phase with
  | associate =>
    unfold moveDerive
    cases hjoin : b.brain.associateSession d.memory.id d.opts.sessionId with
    | ok joined => exact hspares (spares_associateSession hjoin)
    | error e =>
      -- the memory is gone, so there is nothing left to enroll
      refine h.quiet hi rfl rfl (fun id hlive hid => ?_) fun _ hid => hid
      rw [List.mem_singleton.1 hid] at hlive
      obtain ⟨joined, hjoined, -⟩ := exists_associated hlive d.opts.sessionId
      rw [hjoin] at hjoined
      cases hjoined
  | density => exact hspares spares_density
  | readBack =>
    simp only [moveDerive]
    split <;> exact hspares (.refl _)
  | sign fields => exact hspares spares_signAs
  | feed warnings => exact hspares spares_feedRecurrence
  | enroll recurrence warnings =>
    exact h.mark hi htimely rfl cached_enrollStored (fun id => mem_enrolled_enrollStored)
      (fun id hid => Or.inl (List.mem_singleton.1 hid)) fun _ hid => hid

/-- A drain: what it has read stays to be enrolled, unless the memory is gone. -/
theorem reconciled_moveDrain (h : b.Reconciled S) {result : Option RememberResult}
    {phase : DrainPhase} (hi : b.calls[i]? = some (.drain result phase))
    (htimely : b.Timely S (.advance i now since)) :
    (b.moved i (b.brain.moveDrain S result phase)).Reconciled S := by
  cases phase with
  | readQueue batch =>
    exact h.quiet hi rfl rfl (fun id _ hid => absurd hid List.not_mem_nil) fun _ hid => hid
  | readContent ids healed =>
    cases ids with
    | nil =>
      exact h.quiet hi rfl rfl (fun id _ hid => absurd hid List.not_mem_nil) fun _ hid => hid.elim
    | cons id ids =>
      cases hget : b.brain.getMemory id with
      | some memory =>
        simp only [moveDrain, hget]
        exact h.quiet hi rfl rfl (fun _ _ hid => hid) fun _ hid => hid
      | none =>
        simp only [moveDrain, hget]
        refine h.quiet hi rfl rfl (fun id' hlive hid => ?_) fun _ hid => hid
        refine (List.mem_cons.1 hid).resolve_left ?_
        rintro rfl
        obtain ⟨r, hr, hrid⟩ := hlive
        rw [BrainState.getMemory, Store.getMemory_eq_some.2 ⟨hr, hrid⟩] at hget
        cases hget
  | retry id content ids healed =>
    have hmem : ∀ id', id' ∈ (b.brain.index.enroll S.rc none id content).1.enrolled ↔
        id' ∈ b.brain.index.enrolled ∨ id' = id :=
      fun id' => RecognitionIndex.mem_enrolled_enroll_none
    cases henroll : b.brain.index.enroll S.rc none id content with
    | mk index enrolled =>
      rw [henroll] at hmem
      simp only [moveDrain, henroll]
      cases enrolled <;>
        exact h.mark hi htimely rfl rfl hmem (fun id' hid => List.mem_cons.1 hid) fun _ hid => hid
  | unqueue id ids healed => exact h.quiet hi rfl rfl (fun _ _ hid => hid) fun _ hid => hid

/-- A forget: the entry stays to be dropped until it is. -/
theorem reconciled_moveForget (h : b.Reconciled S) {key : String} {phase : ForgetPhase}
    (hi : b.calls[i]? = some (.forget key phase)) (htimely : b.Timely S (.advance i now since)) :
    (b.moved i (b.brain.moveForget S now key phase)).Reconciled S := by
  cases phase with
  | probe => exact h.quiet hi rfl rfl (fun _ _ hid => hid) fun _ hid => hid
  | delete content =>
    refine Lib.Reconciled.shrink h hi (fun id hid => ?_) (fun id => Iff.rfl)
      (fun id hlive hgone hentry => ?_) (fun _ _ hid => hid) fun _ hid => hid
    · obtain ⟨r, hr, hid, -⟩ := hasMemory_deleteMemoryByKey.1 hid
      exact ⟨r, hr, hid⟩
    · obtain ⟨r, hr, rfl⟩ := hlive
      have hkey : r.key = key := by
        by_contra hother
        exact hgone (hasMemory_deleteMemoryByKey.2 ⟨r, hr, rfl, hother⟩)
      rcases (htimely _ hi).2.2 key rfl r hr hkey with hid | hnone | hothers
      · exact Or.inl hid
      · exact absurd hentry hnone
      · exact Or.inr hothers
  | erase content receipt =>
    refine Lib.Reconciled.unmark (P := fun id => id = S.env.keyToId key) h hi (fun id => Iff.rfl)
      (fun id => RecognitionIndex.mem_enrolled_forget) (fun id hlive hid => ?_) (fun _ hid => hid)
      fun id hid => Or.inr hid
    obtain ⟨r, hr, rfl⟩ := hlive
    exact (htimely _ hi).2.1 r hr hid
  | probeRecall content receipt removed =>
    simp only [moveForget]
    split
    · exact h.quiet hi rfl rfl (fun _ _ hid => hid) fun _ hid => hid
    · obtain ⟨hmemories, hindex⟩ :=
        @probeRecall_spares L S none b.brain key content
      exact h.quiet hi (Store.texts_of_memories_eq hmemories) (congrArg _ hindex)
        (fun _ _ hid => hid) fun _ hid => hid
  | probeRecognition content receipt removed recalled =>
    exact h.quiet hi rfl rfl (fun _ _ hid => hid) fun _ hid => hid

/-- A repair: what it has taken stays to be enrolled until it is, and what it has not to be
dropped until the prune. -/
theorem reconciled_moveRepair (h : b.Reconciled S) {limit : ℕ} {phase : RepairPhase}
    (hi : b.calls[i]? = some (.repair limit phase)) (htimely : b.Timely S (.advance i now since)) :
    (b.moved i (b.brain.moveRepair S now limit phase)).Reconciled S := by
  cases phase with
  | backfill =>
    refine h.quiet hi ?_ rfl (fun _ _ hid => hid) fun _ hid => hid
    show (b.brain.cached.store.backfillContentHashes S.env).texts = _
    refine Store.texts_updateMemories fun r => ?_
    rfl
  | scan contentHashesRepaired =>
    exact h.quiet hi rfl rfl (fun id _ hid => absurd hid List.not_mem_nil) fun _ hid => hid.elim
  | walk w =>
    obtain ⟨live, rest, report⟩ := w
    cases rest with
    | cons memory rest =>
      have hspares := @spares_repairDensity L S now b.brain report memory
      refine h.quiet hi hspares.texts (congrArg _ hspares.index) (fun _ _ hid => hid) fun id hid => ?_
      exact ⟨scanned_repairDensity.trans_lt hid.1, hid.2⟩
    | nil =>
      simp only [moveRepair]
      split
      · rename_i hall
        refine Lib.Reconciled.unmark (P := fun id => id ∉ live) h hi (fun id => ?_) (fun id => ?_)
          (fun id hlive hid => ?_) (fun _ hid => hid) fun id hid => Or.inr hid.2
        · show (b.brain.pruneOrphans {} report live).1.cached.store.HasMemory id ↔ _
          rw [store_pruneOrphans]
        · show id ∈ (b.brain.pruneOrphans {} report live).1.index.enrolled ↔ _
          rw [mem_enrolled_pruneOrphans, not_not]
        · obtain ⟨r, hr, rfl⟩ := hlive
          exact (htimely _ hi).2.1 r hr ⟨rfl, hall, hid⟩
      · rename_i hpart
        exact h.quiet hi rfl rfl (fun _ _ hid => hid) fun _ hid => absurd hid.1 hpart
  | sign w memory =>
    have hspares := @spares_repairSignature L S now b.brain w.report memory
    refine h.quiet hi hspares.texts (congrArg _ hspares.index) (fun _ _ hid => hid) fun id hid => ?_
    exact ⟨scanned_repairSignature.trans_lt hid.1, hid.2⟩
  | enroll w memory =>
    exact h.mark hi htimely rfl rfl (fun id => RecognitionIndex.mem_enrolled_enroll_none)
      (fun id hid => List.mem_cons.1 hid) fun _ hid => hid

/-- **One step** keeps the calls accounting for what is wrong with the index. -/
theorem reconciled_step (h : b.Reconciled S) {a : IndexStep} (htimely : b.Timely S a) :
    (b.step S a).Reconciled S := by
  cases a with
  | remember key content opts fingerprints => exact Lib.Reconciled.concat h _
  | forget key => exact Lib.Reconciled.concat h _
  | repairDerivations limit => exact Lib.Reconciled.concat h _
  | drainEnrolmentRetries batch => exact Lib.Reconciled.concat h _
  | advance i now since =>
    show (b.advance S i now since).Reconciled S
    unfold advance
    cases hi : b.calls[i]? with
    | none => exact h
    | some c =>
      have hreturned : c.isReturned = true → (b.moved i (b.brain, c)).Reconciled S := fun _ =>
        h.quiet hi rfl rfl (fun _ _ hid => hid) fun _ hid => hid
      cases c with
      | write key content opts fingerprints => exact reconciled_moveWrite h hi
      | derive d phase => exact reconciled_moveDerive h hi htimely
      | drain result phase => exact reconciled_moveDrain h hi htimely
      | forget key phase => exact reconciled_moveForget h hi htimely
      | repair limit phase => exact reconciled_moveRepair h hi htimely
      | remembered result => exact hreturned rfl
      | drained healed => exact hreturned rfl
      | forgotten report => exact hreturned rfl
      | repaired report => exact hreturned rfl

/-! ## Every interleaving -/

/-- A brain that is healed, and nothing under way. -/
theorem reconciled_of_healed {brain : BrainState L} (h : brain.Healed) :
    (BusyBrain.mk brain []).Reconciled S := Lib.Reconciled.of_iff h

/-- A call that has returned has nothing to enroll and nothing to drop. -/
theorem returned_accounts {c : IndexCall} (h : c.isReturned = true) (id : String) :
    id ∉ c.toEnroll ∧ ¬ c.Drops S id := by
  cases c with
  | remembered result => exact ⟨List.not_mem_nil, not_false⟩
  | drained healed => exact ⟨List.not_mem_nil, not_false⟩
  | forgotten report => exact ⟨List.not_mem_nil, not_false⟩
  | repaired report => exact ⟨List.not_mem_nil, not_false⟩
  | _ => exact absurd h nofun

/-- **At rest** the brain is healed. -/
theorem healed_of_idle (h : b.Reconciled S) (hidle : b.Idle) : b.brain.Healed :=
  Lib.Reconciled.live_iff_derived h fun c hc => returned_accounts (hidle c hc)

/-- **After a survey** the calls account for what is wrong with the index, whatever was before. -/
theorem reconciled_of_surveys {a : IndexStep} (h : b.Surveys a) : (b.step S a).Reconciled S := by
  cases a with
  | advance i now since =>
    show (b.advance S i now since).Reconciled S
    simp only [Surveys] at h
    unfold advance
    split at h
    · rename_i limit hashes hi
      obtain ⟨hcount, hscores⟩ := h
      rw [hi]
      have hlength : (b.brain.cached.store.listMemoriesBySignal 0 limit).length < limit :=
        Store.length_listMemoriesBySignal_lt_iff.2 hcount
      refine Lib.Reconciled.of_modify hi (fun id hlive => ?_) fun id _ => ?_
      · obtain ⟨r, hr, rfl⟩ := hlive
        -- every memory is in the walk
        have hlisted := (Store.mem_listMemoriesBySignal hlength).2 ⟨hr, hscores r hr⟩
        exact Or.inr (Or.inl (List.mem_map_of_mem hlisted))
      · by_cases hlive : b.brain.cached.store.HasMemory id
        · exact Or.inl hlive
        · refine Or.inr (Or.inl ⟨hlength, fun hid => hlive ?_⟩)
          obtain ⟨r, hr, hid⟩ := List.mem_map.1 hid
          exact ⟨r, Store.mem_of_mem_listMemoriesBySignal hr, hid⟩
    · rename_i result batch hi
      obtain ⟨hqueued, hlive⟩ := h
      rw [hi]
      refine Lib.Reconciled.of_modify hi (fun id hlive => ?_) fun id hid => Or.inl (hlive id hid)
      obtain ⟨r, hr, rfl⟩ := hlive
      exact (hqueued r hr).imp_right Or.inl
    · exact h.elim
  | _ => exact h.elim

/-- **Every interleaving** of timely steps, from a healed brain or from a survey on, leaves a healed
brain when all calls have returned. -/
theorem healed_of_timely (S : BrainSetup) {brain : BrainState L} {steps : List IndexStep}
    (htimely : HealsAll S brain steps) (hidle : (run (step S) ⟨brain, []⟩ steps).Idle) :
    (run (step S) ⟨brain, []⟩ steps).brain.Healed := by
  refine healed_of_idle (S := S) ?_ hidle
  have hkeep : ∀ (b : BusyBrain L) (a : IndexStep), b.Reconciled S → b.Timely S a →
      (b.step S a).Reconciled S := fun _ _ h htimely => reconciled_step h htimely
  rcases htimely with ⟨hhealed, htimely⟩ | ⟨past, a, rest, rfl, hsurveys, htimely⟩
  · exact run_invariant_of_allSteps hkeep (reconciled_of_healed hhealed) htimely
  · rw [run_append, run_cons]
    exact run_invariant_of_allSteps hkeep (reconciled_of_surveys hsurveys) htimely

/-- The actions of one call, from its start to its return. -/
def advances (call n : ℕ) : List IndexStep :=
  List.replicate n (.advance call "2026-01-03 09:00:00" "2026-01-03 08:30:00")

/-- The write of the note starts. -/
def remembersNote : IndexStep := .remember "note" note.content {} []

/-- The brain that has written the note while the index could not be written: it is queued. -/
def queuedNote : BrainState wingCache :=
  ((opened wingCache).remember authorBrain "2026-01-02 09:00:00" "2026-01-02 08:30:00"
    { enroll := fun _ => some (.index "disk full") } "note" note.content {} []).1

/-- A repair and a drain find the queued note; a write of it and a forget of another key go on at the
same time. -/
def overlapping : List IndexStep :=
  [.repairDerivations 10, .drainEnrolmentRetries 4, remembersNote, .forget "diary"] ++
    advances 0 2 ++ advances 1 2 ++ advances 2 6 ++ advances 3 3 ++ advances 0 3 ++ advances 1 2 ++
    advances 2 5 ++ advances 0 1 ++ advances 3 2

/-- The queued note is enrolled when all four calls have returned. -/
theorem healed_of_timely_note :
    (run (step authorBrain) ⟨queuedNote, []⟩ overlapping).Idle ∧
      (run (step authorBrain) ⟨queuedNote, []⟩ overlapping).brain.Healed := by
  have hidle : (run (step authorBrain) ⟨queuedNote, []⟩ overlapping).Idle := by decide +kernel
  refine ⟨hidle, healed_of_timely authorBrain (Or.inr ?_) hidle⟩
  refine ⟨overlapping.take 5, .advance 0 "2026-01-03 09:00:00" "2026-01-03 08:30:00",
    overlapping.drop 6, rfl, ?_, ?_⟩
  · decide +kernel
  · decide +kernel

/-- The write of the note, between the scan of a repair and its prune. -/
def writtenAfterScan : List IndexStep :=
  [.repairDerivations 10, remembersNote] ++ advances 0 2 ++ advances 1 9 ++ advances 0 1

/-- The brain of the author, with the words of the note. -/
def noteWordsBrain : BrainSetup :=
  { authorBrain with
    ftsQueryWords := fun query => if query = note.content then ["ship", "monday"] else [] }

/-- A forget of the note, between its write and its enrolment. -/
def forgottenAfterWrite : List IndexStep :=
  [remembersNote, .forget "note", .repairDerivations 0] ++ advances 0 6 ++ advances 1 6 ++
    advances 0 3 ++ advances 2 3

/-- **A repair races a write**: the note is live and has no entry.  And a forget does: the note is
gone and has one. -/
theorem repair_races_write :
    (let b := run (step authorBrain) ⟨opened wingCache, []⟩ writtenAfterScan;
      b.Idle ∧ b.brain.cached.store.HasMemory (authorEnv.keyToId "note") ∧
        authorEnv.keyToId "note" ∉ b.brain.index.enrolled ∧ ¬ b.brain.Healed) ∧
    (let b := run (step noteWordsBrain) ⟨opened wingCache, []⟩ forgottenAfterWrite;
      b.Idle ∧ ¬ b.brain.cached.store.HasMemory (authorEnv.keyToId "note") ∧
        authorEnv.keyToId "note" ∈ b.brain.index.enrolled ∧ ¬ b.brain.Healed) := by
  constructor
  · intro b
    have hidle : b.Idle := by decide +kernel
    have hlive : b.brain.cached.store.HasMemory (authorEnv.keyToId "note") := by decide +kernel
    have hnone : authorEnv.keyToId "note" ∉ b.brain.index.enrolled := by decide +kernel
    exact ⟨hidle, hlive, hnone, fun h => hnone ((h _).1 hlive)⟩
  · intro b
    have hidle : b.Idle := by decide +kernel
    have hgone : ¬ b.brain.cached.store.HasMemory (authorEnv.keyToId "note") := by decide +kernel
    have hentry : authorEnv.keyToId "note" ∈ b.brain.index.enrolled := by decide +kernel
    exact ⟨hidle, hgone, hentry, fun h => hgone ((h _).2 hentry)⟩

end BusyBrain

end Spectral
