import Spectral.Turn.Evidence

/-!
# The turn side of a brain

With `async_turn_delivery` on, `Brain::record_turn_delivery` spawns the ledger write as a
task and keeps its handle in a map by occurrence id.  A commit or a void first takes the
handle of its own turn out of the map and awaits it.

The state is the store, the tasks, the map, and the calls under way on any number of
threads; a step is one action of one of them, at the grain of the locks the code takes:

* a delivery is spawned (`recordTurnDelivery`), its handle registered (`register`, which
  prunes the handles that are finished), its transaction made (`write`, `fault`), and its
  task finished (`finish`);
* a commit or a void looks its handle up (`request`), resumes when the task is finished
  (`resume`), and makes its transaction (`perform`);
* a flush makes the queued voids, one after the other, then drains the map (`drain`) and
  awaits the handles one by one (`join`).

The store only ever goes through a run of the ledger (`store_run`), so what the ledger keeps
is kept in every interleaving (`ledger_run`).
-/

namespace Spectral

open Spectral.Lib

/-! ## The state -/

/-- Why a delivery write failed: the store's error, or a panic of the task. -/
inductive Fault where
  | error (e : String)
  | panic (e : String)
  deriving DecidableEq

/-- How far a delivery task is.  `written` is past its transaction, not yet `is_finished`. -/
inductive TaskStatus where
  | running
  | written (result : Option Fault)
  | finished (result : Option Fault)
  deriving DecidableEq

/-- A spawned delivery write. -/
structure DeliveryTask where
  delivery : TurnDelivery
  /-- Its handle was put in the map. -/
  registered : Bool := false
  status : TaskStatus := .running
  deriving DecidableEq

/-- `JoinHandle::is_finished`. -/
def DeliveryTask.isFinished (t : DeliveryTask) : Bool :=
  match t.status with
  | .finished _ => true
  | _ => false

/-- An entry of `pending_turn_deliveries`: the task of a turn. -/
structure PendingDelivery where
  occurrenceId : String
  task : ℕ
  deriving DecidableEq

/-- What a caller asks of a turn. -/
inductive TurnVerb where
  | commitTurnOutcomes (outcomes : List (String × LedgerOutcome)) (reinforceStrength : ℚ)
  | voidTurn
  deriving DecidableEq

/-- Is it a commit? -/
def TurnVerb.isCommit : TurnVerb → Bool
  | .commitTurnOutcomes _ _ => true
  | .voidTurn => false

/-- What a call returns: the members changed, or whether the turn was newly voided. -/
inductive TurnReply where
  | changed (n : ℕ)
  | voided (newly : Bool)
  deriving DecidableEq

/-- How far a commit or void is: awaiting its delivery, past that, or returned. -/
inductive RequestPhase where
  | awaiting (task : ℕ)
  | ready
  | returned (result : Except String TurnReply)
  deriving DecidableEq

/-- Is the call still under way? -/
def RequestPhase.isOpen : RequestPhase → Bool
  | .returned _ => false
  | _ => true

/-- A call of `commit_turn_outcomes` or `void_turn`. -/
structure TurnRequest where
  occurrenceId : String
  verb : TurnVerb
  phase : RequestPhase
  deriving DecidableEq

/-- A call of `flush_turn_deliveries`: the voids left to make, the one under way, the
handles it drained, and the first error it met. -/
structure Flush where
  voids : List String
  voiding : Option ℕ := none
  handles : Option (List PendingDelivery) := none
  firstErr : Option String := none
  deriving DecidableEq

/-- The turn side of a `Brain`. -/
structure Brain where
  store : Store
  asyncTurnDelivery : Bool := true
  tasks : List DeliveryTask := []
  pendingTurnDeliveries : Table PendingDelivery (SameKey PendingDelivery.occurrenceId) := .empty
  pendingVoids : List String := []
  requests : List TurnRequest := []
  flushes : List Flush := []
  deriving DecidableEq

/-! ## The steps -/

/-- One action of one thread. -/
inductive BrainStep where
  | setAsyncTurnDelivery (on : Bool)
  | recordTurnDelivery (d : TurnDelivery)
  | register (task : ℕ)
  | write (task : ℕ)
  | fault (task : ℕ) (f : Fault)
  | finish (task : ℕ)
  | request (occurrenceId : String) (verb : TurnVerb)
  | resume (request : ℕ)
  | perform (request : ℕ) (stamp now : String)
  | voidTurnDeferred (occurrenceId : String)
  | flush
  | flushVoid (flush : ℕ)
  | flushVoided (flush : ℕ)
  | drain (flush : ℕ) (order : List PendingDelivery)
  | join (flush : ℕ)
  deriving DecidableEq

/-- The error a commit or void of the turn returns for a failed delivery. -/
def Fault.awaitText : Fault → String
  | .error e => s!"delivery write: {e}"
  | .panic e => s!"delivery write task: {e}"

/-- The error a flush returns for a failed delivery. -/
def Fault.flushText (occurrenceId : String) : Fault → String
  | .error e => s!"delivery write {occurrenceId}: {e}"
  | .panic e => s!"delivery write task {occurrenceId}: {e}"

/-- The transaction of a call, on the store. -/
def TurnRequest.transact (r : TurnRequest) (stamp now : String) (s : Store) :
    Except String (Store × TurnReply) :=
  match r.verb with
  | .commitTurnOutcomes outcomes strength =>
    (s.commitTurnOutcomes r.occurrenceId outcomes strength stamp now).map (Prod.map id .changed)
  | .voidTurn => (s.voidTurn r.occurrenceId stamp).map (Prod.map id .voided)

namespace Brain

variable (b : Brain)

/-- The status of a task changes. -/
def setStatus (task : ℕ) (status : TaskStatus) : Brain :=
  { b with tasks := b.tasks.modify task fun t => { t with status } }

/-- `record_turn_delivery`: spawned when deferred, written at once otherwise. -/
def recordTurnDelivery (d : TurnDelivery) : Brain :=
  if b.asyncTurnDelivery then { b with tasks := b.tasks ++ [{ delivery := d }] }
  else { b with store := (b.store.recordTurnDelivery d).toOption.getD b.store }

/-- Is the task behind a handle finished? -/
def taskFinished (task : ℕ) : Bool := b.tasks[task]?.any DeliveryTask.isFinished

/-- The rest of `record_turn_delivery`: finished handles are pruned, the new one is put in. -/
def register (task : ℕ) : Brain :=
  match b.tasks[task]? with
  | none => b
  | some t =>
    if t.registered then b
    else
      { b with
        tasks := b.tasks.modify task fun t => { t with registered := true }
        pendingTurnDeliveries :=
          (b.pendingTurnDeliveries.deleteWhere fun p =>
            b.taskFinished p.task || p.occurrenceId = t.delivery.occurrenceId).insertOrIgnore
            ⟨t.delivery.occurrenceId, task⟩ }

/-- The transaction of a delivery task. -/
def write (task : ℕ) : Brain :=
  match b.tasks[task]? with
  | none => b
  | some t =>
    if t.status = .running then
      match b.store.recordTurnDelivery t.delivery with
      | .ok s => { b with store := s }.setStatus task (.written none)
      | .error e => b.setStatus task (.written (some (.error e)))
    else b

/-- A delivery task fails without a trace in the store. -/
def fault (task : ℕ) (f : Fault) : Brain :=
  match b.tasks[task]? with
  | none => b
  | some t => if t.status = .running then b.setStatus task (.written (some f)) else b

/-- A delivery task returns. -/
def finish (task : ℕ) : Brain :=
  match b.tasks[task]? with
  | some { status := .written result, .. } => b.setStatus task (.finished result)
  | _ => b

/-- The entry of the map for a turn. -/
def pendingDelivery (occurrenceId : String) : Option PendingDelivery :=
  b.pendingTurnDeliveries.find? fun p => p.occurrenceId = occurrenceId

/-- The call a commit or void becomes when it has looked its handle up. -/
def asked (occurrenceId : String) (verb : TurnVerb) : TurnRequest :=
  { occurrenceId, verb,
    phase := match b.pendingDelivery occurrenceId with
      | some p => .awaiting p.task
      | none => .ready }

/-- `await_pending_delivery`, up to the await: the handle of the turn is taken out. -/
def request (occurrenceId : String) (verb : TurnVerb) : Brain :=
  { b with
    pendingTurnDeliveries := b.pendingTurnDeliveries.deleteWhere fun p =>
      p.occurrenceId = occurrenceId
    requests := b.requests ++ [b.asked occurrenceId verb] }

/-- A call moves on. -/
def setPhase (request : ℕ) (phase : RequestPhase) : Brain :=
  { b with requests := b.requests.modify request fun r => { r with phase } }

/-- `await_pending_delivery`, from the await: a failed write is the call's error. -/
def resume (request : ℕ) : Brain :=
  match b.requests[request]? with
  | some { phase := .awaiting task, .. } =>
    match b.tasks[task]? with
    | some { status := .finished none, .. } => b.setPhase request .ready
    | some { status := .finished (some f), .. } =>
      b.setPhase request (.returned (.error f.awaitText))
    | _ => b
  | _ => b

/-- The transaction of a commit or void, and its return. -/
def perform (request : ℕ) (stamp now : String) : Brain :=
  match b.requests[request]? with
  | some r =>
    if r.phase = .ready then
      match r.transact stamp now b.store with
      | .ok (s, reply) => { b with store := s }.setPhase request (.returned (.ok reply))
      | .error e => b.setPhase request (.returned (.error e))
    else b
  | none => b

/-- A flush moves on. -/
def setFlush (flush : ℕ) (f : Flush) : Brain :=
  { b with flushes := b.flushes.set flush f }

/-- `flush_turn_deliveries` begins: the queued voids are its own to make. -/
def flush : Brain :=
  { b with pendingVoids := [], flushes := b.flushes ++ [{ voids := b.pendingVoids }] }

/-- A flush makes its next void. -/
def flushVoid (flush : ℕ) : Brain :=
  match b.flushes[flush]? with
  | some f =>
    match f.voiding, f.voids with
    | none, occurrenceId :: voids =>
      (b.request occurrenceId .voidTurn).setFlush flush
        { f with voids, voiding := some b.requests.length }
    | _, _ => b
  | none => b

/-- The void of a flush has returned. -/
def flushVoided (flush : ℕ) : Brain :=
  match b.flushes[flush]? with
  | some f =>
    match f.voiding.bind fun i => b.requests[i]? with
    | some { phase := .returned (.ok _), .. } => b.setFlush flush { f with voiding := none }
    | some { phase := .returned (.error e), .. } =>
      b.setFlush flush { f with voiding := none, firstErr := f.firstErr.or (some e) }
    | _ => b
  | none => b

/-- A flush takes every handle out of the map, in an order of the map's choosing. -/
def drain (flush : ℕ) (order : List PendingDelivery) : Brain :=
  match b.flushes[flush]? with
  | some f =>
    if f.voids = [] ∧ f.voiding = none ∧ f.handles = none ∧
        order.Perm b.pendingTurnDeliveries.rows then
      { b with pendingTurnDeliveries := .empty }.setFlush flush { f with handles := some order }
    else b
  | none => b

/-- A flush has awaited its next handle. -/
def join (flush : ℕ) : Brain :=
  match b.flushes[flush]? with
  | some f =>
    match f.handles with
    | some (p :: handles) =>
      match b.tasks[p.task]? with
      | some { status := .finished none, .. } =>
        b.setFlush flush { f with handles := some handles }
      | some { status := .finished (some e), .. } =>
        b.setFlush flush
          { f with
            handles := some handles
            firstErr := f.firstErr.or (some (e.flushText p.occurrenceId)) }
      | _ => b
    | _ => b
  | none => b

/-- One step.  A step that is not enabled changes nothing. -/
def step : BrainStep → Brain
  | .setAsyncTurnDelivery on => { b with asyncTurnDelivery := on }
  | .recordTurnDelivery d => b.recordTurnDelivery d
  | .register task => b.register task
  | .write task => b.write task
  | .fault task f => b.fault task f
  | .finish task => b.finish task
  | .request occurrenceId verb => b.request occurrenceId verb
  | .resume i => b.resume i
  | .perform i stamp now => b.perform i stamp now
  | .voidTurnDeferred occurrenceId => { b with pendingVoids := b.pendingVoids ++ [occurrenceId] }
  | .flush => b.flush
  | .flushVoid i => b.flushVoid i
  | .flushVoided i => b.flushVoided i
  | .drain i order => b.drain i order
  | .join i => b.join i

end Brain

/-! ## What the steps leave alone -/

namespace Brain

variable {b : Brain}

theorem requests_recordTurnDelivery (d : TurnDelivery) :
    (b.recordTurnDelivery d).requests = b.requests := by
  unfold recordTurnDelivery
  split <;> rfl

theorem register_same (k : ℕ) :
    (b.register k).requests = b.requests ∧ (b.register k).store = b.store := by
  unfold register
  split
  · exact ⟨rfl, rfl⟩
  · split <;> exact ⟨rfl, rfl⟩

theorem requests_write (k : ℕ) : (b.write k).requests = b.requests := by
  unfold write
  split
  · rfl
  · split
    · split <;> rfl
    · rfl

theorem fault_same (k : ℕ) (f : Fault) :
    (b.fault k f).requests = b.requests ∧ (b.fault k f).store = b.store := by
  unfold fault
  split
  · exact ⟨rfl, rfl⟩
  · split <;> exact ⟨rfl, rfl⟩

theorem finish_same (k : ℕ) :
    (b.finish k).requests = b.requests ∧ (b.finish k).store = b.store := by
  unfold finish
  split <;> exact ⟨rfl, rfl⟩

theorem resume_same (i : ℕ) : (b.resume i).tasks = b.tasks ∧ (b.resume i).store = b.store := by
  unfold resume
  split
  · split <;> exact ⟨rfl, rfl⟩
  · exact ⟨rfl, rfl⟩

theorem tasks_perform (i : ℕ) (stamp now : String) : (b.perform i stamp now).tasks = b.tasks := by
  unfold perform
  split
  · split
    · split <;> rfl
    · rfl
  · rfl

theorem flushVoid_same (i : ℕ) :
    (b.flushVoid i).tasks = b.tasks ∧ (b.flushVoid i).store = b.store := by
  unfold flushVoid
  split
  · split <;> exact ⟨rfl, rfl⟩
  · exact ⟨rfl, rfl⟩

theorem flushVoided_same (i : ℕ) : (b.flushVoided i).tasks = b.tasks ∧
    (b.flushVoided i).requests = b.requests ∧ (b.flushVoided i).store = b.store := by
  unfold flushVoided
  split
  · split <;> exact ⟨rfl, rfl, rfl⟩
  · exact ⟨rfl, rfl, rfl⟩

theorem drain_same (i : ℕ) (order : List PendingDelivery) : (b.drain i order).tasks = b.tasks ∧
    (b.drain i order).requests = b.requests ∧ (b.drain i order).store = b.store := by
  unfold drain
  split
  · split <;> exact ⟨rfl, rfl, rfl⟩
  · exact ⟨rfl, rfl, rfl⟩

theorem join_same (i : ℕ) : (b.join i).tasks = b.tasks ∧
    (b.join i).requests = b.requests ∧ (b.join i).store = b.store := by
  unfold join
  split
  · split
    · split <;> exact ⟨rfl, rfl, rfl⟩
    · exact ⟨rfl, rfl, rfl⟩
  · exact ⟨rfl, rfl, rfl⟩

end Brain

/-! ## The store under the brain -/

namespace Brain

variable {b : Brain}

theorem store_recordTurnDelivery (d : TurnDelivery) :
    (b.recordTurnDelivery d).store = b.store ∨
      ∃ c, (b.recordTurnDelivery d).store = applyTurn b.store c := by
  unfold recordTurnDelivery
  split
  · exact Or.inl rfl
  · exact Or.inr ⟨⟨.recordTurnDelivery d, ""⟩, rfl⟩

theorem store_write (k : ℕ) :
    (b.write k).store = b.store ∨ ∃ c, (b.write k).store = applyTurn b.store c := by
  unfold write
  split
  · exact Or.inl rfl
  · rename_i t _
    split
    · split
      · rename_i s hs
        refine Or.inr ⟨⟨.recordTurnDelivery t.delivery, ""⟩, ?_⟩
        simp [setStatus, applyTurn, hs, Except.toOption]
      · exact Or.inl rfl
    · exact Or.inl rfl

/-- The transaction of a call is the ledger's. -/
theorem eq_applyTurn_of_transact {r : TurnRequest} {stamp now : String} {s s' : Store}
    {reply : TurnReply} (h : r.transact stamp now s = .ok (s', reply)) :
    ∃ c, s' = applyTurn s c := by
  unfold TurnRequest.transact at h
  split at h
  · rename_i outcomes strength _
    refine ⟨⟨.commitTurnOutcomes r.occurrenceId outcomes strength stamp, now⟩, ?_⟩
    cases hc : s.commitTurnOutcomes r.occurrenceId outcomes strength stamp now with
    | error e => simp [hc, Except.map] at h
    | ok p =>
      simp only [hc, Except.map, Except.ok.injEq, Prod.map, Prod.mk.injEq] at h
      simp [applyTurn, hc, Except.map, Except.toOption, ← h.1]
  · refine ⟨⟨.voidTurn r.occurrenceId stamp, now⟩, ?_⟩
    cases hv : s.voidTurn r.occurrenceId stamp with
    | error e => simp [hv, Except.map] at h
    | ok p =>
      simp only [hv, Except.map, Except.ok.injEq, Prod.map, Prod.mk.injEq] at h
      simp [applyTurn, hv, Except.map, Except.toOption, ← h.1]

theorem store_perform (i : ℕ) (stamp now : String) :
    (b.perform i stamp now).store = b.store ∨
      ∃ c, (b.perform i stamp now).store = applyTurn b.store c := by
  unfold perform
  split
  · split
    · split
      · rename_i s reply hs
        exact Or.inr (eq_applyTurn_of_transact hs)
      · exact Or.inl rfl
    · exact Or.inl rfl
  · exact Or.inl rfl

/-- **One step, the store.**  It is a call on the ledger, or none. -/
theorem store_step (b : Brain) (a : BrainStep) :
    (b.step a).store = b.store ∨ ∃ c, (b.step a).store = applyTurn b.store c := by
  cases a with
  | recordTurnDelivery d => exact store_recordTurnDelivery d
  | register k => exact Or.inl (register_same k).2
  | write k => exact store_write k
  | fault k f => exact Or.inl (fault_same k f).2
  | finish k => exact Or.inl (finish_same k).2
  | resume i => exact Or.inl (resume_same i).2
  | perform i stamp now => exact store_perform i stamp now
  | flushVoid i => exact Or.inl (flushVoid_same i).2
  | flushVoided i => exact Or.inl (flushVoided_same i).2.2
  | drain i order => exact Or.inl (drain_same i order).2.2
  | join i => exact Or.inl (join_same i).2.2
  | _ => exact Or.inl rfl

/-- **The brain refines the ledger.**  Whatever the interleaving, the store goes through a run
of ledger calls. -/
theorem store_run (b : Brain) (l : List BrainStep) :
    ∃ calls, (run step b l).store = run applyTurn b.store calls :=
  exists_run_of_step store_step b l

/-- In every interleaving the ledger stays one of turns that are not both committed and voided,
and keeps what was recorded for the turns already committed. -/
theorem ledger_run (b : Brain) (l : List BrainStep) (h : b.store.LedgerOk) :
    (run step b l).store.LedgerOk ∧ b.store.KeepsCommitted (run step b l).store := by
  obtain ⟨calls, hcalls⟩ := store_run b l
  rw [hcalls]
  exact ⟨Store.ledgerOk_run h calls, Store.keepsCommitted_run b.store calls⟩

end Brain

end Spectral
