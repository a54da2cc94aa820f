import Spectral.Turn.Contract

/-!
# Committing an outcome

`Brain::record_turn_outcome` commits the outcomes to the ledger, and then logs a retrieval of the
memories that were used.

* `Brain.commitTurnOutcomes` — the commit: it awaits the delivery of its own turn first.
* `TurnBrain.recordTurnOutcome` — the whole call.
* `retries_leave_store_iff` — what retries leave of the store.  The ledger tells a replay, and
  changes nothing; the log does not.
-/

namespace Spectral

open Spectral.Lib

/-! ## The commit -/

namespace Brain

variable (b : Brain)

/-- `await_pending_delivery`, by a caller that blocks: the handle of the turn is taken out, and
its write is waited for. -/
def awaitPendingDelivery (occurrenceId : String) : Brain × Except String Unit :=
  let taken := { b with
    pendingTurnDeliveries := b.pendingTurnDeliveries.deleteWhere fun p =>
      p.occurrenceId = occurrenceId }
  match b.pendingDelivery occurrenceId with
  | none => (taken, .ok ())
  | some p =>
    let joined := (taken.write p.task).finish p.task
    match joined.tasks[p.task]? with
    | some { status := .finished (some f), .. } => (joined, .error f.awaitText)
    | _ => (joined, .ok ())

/-- `commit_turn_outcomes`. -/
def commitTurnOutcomes (occurrenceId : String) (outcomes : List (String × LedgerOutcome))
    (strength : ℚ) (committedAt now : String) : Brain × Except String ℕ :=
  match b.awaitPendingDelivery occurrenceId with
  | (b, .error e) => (b, .error e)
  | (b, .ok _) =>
    match b.store.commitTurnOutcomes occurrenceId outcomes strength committedAt now with
    | .ok (s, changed) => ({ b with store := s }, .ok changed)
    | .error e => (b, .error e)

end Brain

namespace AgentTurn

/-! ## The call -/

/-- `MemoryOutcome`. -/
inductive MemoryOutcome where
  | used
  | wrong
  | ignored
  deriving DecidableEq

namespace MemoryOutcome

/-- `reinforces`. -/
def reinforces : MemoryOutcome → Bool
  | .used => true
  | .wrong | .ignored => false

/-- The outcome in the ledger. -/
def ledger : MemoryOutcome → LedgerOutcome
  | .used => .used
  | .wrong => .wrong
  | .ignored => .ignored

end MemoryOutcome

/-- `delivered_key`. -/
def TurnReceipt.deliveredKey (receipt : TurnReceipt) (key : String) : Bool :=
  receipt.delivered.any fun d => d.key = key

/-- `OutcomeReceipt`. -/
structure OutcomeReceipt where
  turnId : String
  reinforced : List String
  notReinforced : List String
  deriving DecidableEq

/-- `USED_REINFORCE_STRENGTH`. -/
def usedReinforceStrength : ℚ := 1 / 10

/-- The arguments of a call beside the receipt, and what it reads off the clock. -/
structure OutcomeCall where
  outcomes : List (String × MemoryOutcome)
  committedAt : String
  now : String

/-- The outcomes, for the ledger. -/
def OutcomeCall.ledger (call : OutcomeCall) : List (String × LedgerOutcome) :=
  call.outcomes.map (Prod.map id MemoryOutcome.ledger)

/-- The keys of some outcomes. -/
def OutcomeCall.keys (call : OutcomeCall) (reinforced : Bool) : List String :=
  (call.outcomes.filter fun o => o.2.reinforces = reinforced).map Prod.fst

/-- The first key the turn did not deliver. -/
def OutcomeCall.undelivered (call : OutcomeCall) (receipt : TurnReceipt) : Option String :=
  (call.outcomes.map Prod.fst).find? fun key => !receipt.deliveredKey key

/-- The ids of the members that were used, as they are logged. -/
def OutcomeCall.usedIds (call : OutcomeCall) (receipt : TurnReceipt) : List String :=
  (receipt.delivered.filter fun d => decide (d.key ∈ call.keys true)).map DeliveredHit.id

namespace TurnBrain

variable {L : WingCache}

/-- `Brain::record_turn_outcome`. -/
def recordTurnOutcome (b : TurnBrain L) (receipt : TurnReceipt) (call : OutcomeCall) :
    TurnBrain L × Except String OutcomeReceipt :=
  match call.undelivered receipt with
  | some key =>
    (b, .error ("schema: outcome for key " ++ key.quote ++ " which turn " ++ receipt.id ++
      " did not deliver"))
  | none =>
    if b.readOnly = true then (b, .error (readOnlyText "commit_turn_outcomes"))
    else
      match b.turns.commitTurnOutcomes receipt.id call.ledger usedReinforceStrength call.committedAt
          call.now with
      | (turns, .error e) => (b.withTurns turns, .error s!"schema: {e}")
      | (turns, .ok _) =>
        -- `commit_outcome`, without keys: only the event
        let logged := turns.store.logRetrievalEvent (jsonIds (call.usedIds receipt))
        (b.withTurns { turns with store := logged },
          .ok { turnId := receipt.id, reinforced := call.keys true, notReinforced := call.keys false })

/-- A retry, whatever it returns. -/
def retry (receipt : TurnReceipt) (b : TurnBrain L) (call : OutcomeCall) : TurnBrain L :=
  (b.recordTurnOutcome receipt call).1

/-- The store. -/
def store (b : TurnBrain L) : Store := b.turns.store

end TurnBrain

end AgentTurn

/-! ## What a commit leaves -/

namespace Store

variable {s s' : Store} {occurrenceId committedAt now : String}
  {outcomes : List (String × LedgerOutcome)} {strength : ℚ} {changed : ℕ}

/-- The turn is not voided, if it is known. -/
def NotVoided (s : Store) (occurrenceId : String) : Prop :=
  ∀ e ∈ s.turnEvents, e.occurrenceId = occurrenceId → e.voidedAt = none

theorem notVoided_of_turnEvent_eq_some {e : TurnEventRow} (h : s.turnEvent occurrenceId = some e) :
    s.NotVoided occurrenceId ↔ e.voidedAt = none := by
  obtain ⟨he, hocc⟩ := turnEvent_eq_some h
  refine ⟨fun hnot => hnot e he hocc, fun hvoided e' he' hocc' => ?_⟩
  rw [eq_of_occurrenceId he' he (hocc'.trans hocc.symm), hvoided]

/-- A commit fails for a voided turn only. -/
theorem isOk_commitTurnOutcomes_iff :
    (s.commitTurnOutcomes occurrenceId outcomes strength committedAt now).isOk = true ↔
      s.NotVoided occurrenceId := by
  unfold commitTurnOutcomes
  dsimp only
  cases h : s.turnEvent occurrenceId with
  | none => exact iff_of_true rfl fun e he hocc => absurd hocc (turnEvent_eq_none h e he)
  | some e =>
    rw [notVoided_of_turnEvent_eq_some h]
    dsimp only
    split
    · rename_i hvoided
      exact iff_of_false (by simp [Except.isOk, Except.toBool]) fun hnone => by simp [hnone] at hvoided
    · rename_i hvoided
      refine iff_of_true ?_ (by simpa using hvoided)
      split <;> rfl

/-- What a commit leaves: the store as it was, or the outcomes and the mark on the turn. -/
theorem commitTurnOutcomes_cases
    (h : s.commitTurnOutcomes occurrenceId outcomes strength committedAt now = .ok (s', changed)) :
    s' = s ∨ s' = (outcomes.foldl (commitOutcome occurrenceId strength now) (s, 0)).1.updateTurnEvent
      occurrenceId (fun e => { e with committedAt := some committedAt }) fun _ => rfl := by
  unfold commitTurnOutcomes at h
  dsimp only at h
  split at h
  · cases h
    exact Or.inr rfl
  · split at h
    · cases h
    · split at h
      · cases h
        exact Or.inl rfl
      · cases h
        exact Or.inr rfl

theorem commitOutcome_same {acc : Store × ℕ} {report : String × LedgerOutcome} :
    (commitOutcome occurrenceId strength now acc report).1.retrievalEvents = acc.1.retrievalEvents ∧
      (commitOutcome occurrenceId strength now acc report).1.turnEvents = acc.1.turnEvents := by
  unfold commitOutcome
  dsimp only
  split <;> exact ⟨rfl, rfl⟩

/-- The outcomes leave the log of retrievals and the turns alone. -/
theorem foldl_commitOutcome_same :
    let settled := (outcomes.foldl (commitOutcome occurrenceId strength now) (s, 0)).1
    settled.retrievalEvents = s.retrievalEvents ∧ settled.turnEvents = s.turnEvents :=
  List.foldlRecOn
    (motive := fun acc : Store × ℕ =>
      acc.1.retrievalEvents = s.retrievalEvents ∧ acc.1.turnEvents = s.turnEvents)
    _ _ ⟨rfl, rfl⟩ fun _ hacc _ _ =>
      ⟨commitOutcome_same.1.trans hacc.1, commitOutcome_same.2.trans hacc.2⟩

/-- A commit leaves the log of retrievals alone. -/
theorem retrievalEvents_commitTurnOutcomes
    (h : s.commitTurnOutcomes occurrenceId outcomes strength committedAt now = .ok (s', changed)) :
    s'.retrievalEvents = s.retrievalEvents := by
  rcases commitTurnOutcomes_cases h with rfl | rfl
  · rfl
  · exact foldl_commitOutcome_same.1

/-- A commit voids no turn. -/
theorem notVoided_commitTurnOutcomes
    (h : s.commitTurnOutcomes occurrenceId outcomes strength committedAt now = .ok (s', changed)) :
    s'.NotVoided occurrenceId := by
  have hbefore : s.NotVoided occurrenceId := by
    rw [← isOk_commitTurnOutcomes_iff, h]
    rfl
  rcases commitTurnOutcomes_cases h with rfl | rfl
  · exact hbefore
  · intro e he hocc
    obtain ⟨e₀, he₀, rfl⟩ := mem_turnEvents_updateTurnEvent.1 he
    rw [foldl_commitOutcome_same.2] at he₀
    have hocc₀ : e₀.occurrenceId = occurrenceId := by
      split at hocc <;> exact hocc
    split <;> exact hbefore e₀ he₀ hocc₀

end Store

namespace Brain

variable {b b' : Brain} {occurrenceId committedAt now : String}
  {outcomes : List (String × LedgerOutcome)} {strength : ℚ} {changed : ℕ}

theorem pending_write (k : ℕ) : (b.write k).pendingTurnDeliveries = b.pendingTurnDeliveries := by
  unfold write
  split
  · rfl
  · split
    · split <;> rfl
    · rfl

theorem pending_finish (k : ℕ) : (b.finish k).pendingTurnDeliveries = b.pendingTurnDeliveries := by
  unfold finish
  split <;> rfl

/-- The handle of the turn is gone once it was awaited. -/
theorem pendingDelivery_awaitPendingDelivery :
    (b.awaitPendingDelivery occurrenceId).1.pendingDelivery occurrenceId = none := by
  have hgone : ∀ b' : Brain, b'.pendingTurnDeliveries =
      (b.pendingTurnDeliveries.deleteWhere fun p => p.occurrenceId = occurrenceId) →
        b'.pendingDelivery occurrenceId = none := by
    intro b' h
    rw [pendingDelivery, h, Table.find?_eq_none]
    intro p hp
    simpa using (Table.mem_deleteWhere.1 hp).2
  unfold awaitPendingDelivery
  dsimp only
  split
  · exact hgone _ rfl
  · split <;> exact hgone _ (by rw [pending_finish, pending_write])

/-- Without a handle there is nothing to wait for. -/
theorem awaitPendingDelivery_of_none (h : b.pendingDelivery occurrenceId = none) :
    ∃ b' : Brain, b.awaitPendingDelivery occurrenceId = (b', .ok ()) ∧ b'.store = b.store := by
  unfold awaitPendingDelivery
  rw [h]
  exact ⟨_, rfl, rfl⟩

/-- **A commit that succeeds**: the store has gone through it, and no handle of the turn is
left. -/
theorem commitTurnOutcomes_eq_ok
    (h : b.commitTurnOutcomes occurrenceId outcomes strength committedAt now = (b', .ok changed)) :
    b'.pendingDelivery occurrenceId = none ∧ ∃ s : Store,
      s.commitTurnOutcomes occurrenceId outcomes strength committedAt now =
        .ok (b'.store, changed) ∧
      (b.pendingDelivery occurrenceId = none → s = b.store) := by
  have hpending : (b.awaitPendingDelivery occurrenceId).1.pendingDelivery occurrenceId = none :=
    pendingDelivery_awaitPendingDelivery
  unfold commitTurnOutcomes at h
  split at h
  · cases h
  · rename_i joined _ hawait
    rw [hawait] at hpending
    split at h
    · rename_i s n hs
      cases h
      refine ⟨hpending, joined.store, hs, fun hnone => ?_⟩
      obtain ⟨b', hb', hstore⟩ := awaitPendingDelivery_of_none hnone
      rw [hawait] at hb'
      cases hb'
      exact hstore
    · cases h

/-- A commit of a turn that is not voided, without a handle, succeeds. -/
theorem exists_commitTurnOutcomes_eq_ok (hnone : b.pendingDelivery occurrenceId = none)
    (hopen : b.store.NotVoided occurrenceId) : ∃ b' changed,
      b.commitTurnOutcomes occurrenceId outcomes strength committedAt now = (b', .ok changed) := by
  obtain ⟨joined, hjoined, hstore⟩ := awaitPendingDelivery_of_none hnone
  have hok : (b.store.commitTurnOutcomes occurrenceId outcomes strength committedAt now).isOk =
      true := Store.isOk_commitTurnOutcomes_iff.2 hopen
  unfold commitTurnOutcomes
  rw [hjoined]
  dsimp only
  rw [hstore]
  cases hs : b.store.commitTurnOutcomes occurrenceId outcomes strength committedAt now with
  | error e =>
    rw [hs] at hok
    cases hok
  | ok p => exact ⟨_, p.2, rfl⟩

end Brain

/-! ## What a retry leaves -/

namespace AgentTurn.TurnBrain

variable {L : WingCache} {b : TurnBrain L} {receipt : TurnReceipt} {call : OutcomeCall}

/-- The number of retrievals that are logged. -/
def events (b : TurnBrain L) : ℕ := b.store.retrievalEvents.rows.length

/-- Where a call for the turn that succeeded leaves a brain: it is open for writing, no handle of
the turn is left, and the turn is not voided. -/
structure Settled (b : TurnBrain L) (turnId : String) : Prop where
  writable : b.readOnly = false
  awaited : b.turns.pendingDelivery turnId = none
  notVoided : b.store.NotVoided turnId

/-- A call that names a key the turn did not deliver is refused, and changes nothing. -/
theorem retry_of_undelivered {key : String} (h : call.undelivered receipt = some key) :
    b.retry receipt call = b := by
  unfold retry recordTurnOutcome
  rw [h]

/-- A call whose commit succeeds: the event is logged. -/
theorem recordTurnOutcome_of_commit (hdelivered : call.undelivered receipt = none)
    (hwritable : b.readOnly = false) {turns : Brain} {changed : ℕ}
    (hcommit : b.turns.commitTurnOutcomes receipt.id call.ledger usedReinforceStrength
      call.committedAt call.now = (turns, .ok changed)) :
    (b.recordTurnOutcome receipt call).1 = b.withTurns
      { turns with store := turns.store.logRetrievalEvent (jsonIds (call.usedIds receipt)) } := by
  unfold recordTurnOutcome
  rw [hdelivered]
  dsimp only
  rw [if_neg (by simp [hwritable]), hcommit]

/-- **A call that succeeds.** -/
theorem settled_of_isOk (h : (b.recordTurnOutcome receipt call).2.isOk = true) :
    (b.recordTurnOutcome receipt call).1.Settled receipt.id := by
  have hdelivered : call.undelivered receipt = none := by
    cases hcall : call.undelivered receipt with
    | none => rfl
    | some key => simp [recordTurnOutcome, hcall, Except.isOk, Except.toBool] at h
  have hwritable : b.readOnly = false := by
    cases hro : b.readOnly with
    | false => rfl
    | true => simp [recordTurnOutcome, hdelivered, hro, Except.isOk, Except.toBool] at h
  rcases hcommit : b.turns.commitTurnOutcomes receipt.id call.ledger usedReinforceStrength
    call.committedAt call.now with ⟨turns, e | changed⟩
  · simp [recordTurnOutcome, hdelivered, hwritable, hcommit, Except.isOk, Except.toBool] at h
  · obtain ⟨hpending, s, hs, -⟩ := Brain.commitTurnOutcomes_eq_ok hcommit
    rw [recordTurnOutcome_of_commit hdelivered hwritable hcommit]
    exact ⟨hwritable, hpending, fun e he => Store.notVoided_commitTurnOutcomes hs e he⟩

/-- **A retry that is not refused** is logged, and another one will be. -/
theorem retry_of_delivered (h : b.Settled receipt.id)
    (hdelivered : call.undelivered receipt = none) :
    (b.retry receipt call).Settled receipt.id ∧ (b.retry receipt call).events = b.events + 1 := by
  obtain ⟨turns, changed, hcommit⟩ : ∃ turns changed, b.turns.commitTurnOutcomes receipt.id
      call.ledger usedReinforceStrength call.committedAt call.now = (turns, .ok changed) :=
    Brain.exists_commitTurnOutcomes_eq_ok h.awaited h.notVoided
  obtain ⟨hpending, s, hs, hsame⟩ := Brain.commitTurnOutcomes_eq_ok hcommit
  unfold retry
  rw [recordTurnOutcome_of_commit hdelivered h.writable hcommit]
  refine ⟨⟨h.writable, hpending, fun e he => Store.notVoided_commitTurnOutcomes hs e he⟩, ?_⟩
  show (turns.store.logRetrievalEvent _).retrievalEvents.rows.length = _
  rw [BrainState.length_logRetrievalEvent, Store.retrievalEvents_commitTurnOutcomes hs,
    hsame h.awaited]
  rfl

/-- **Retries**: each one that is not refused is logged. -/
theorem events_run_retry (h : b.Settled receipt.id) (retries : List OutcomeCall) :
    (run (retry receipt) b retries).events =
      b.events + retries.countP fun call => (call.undelivered receipt).isNone := by
  induction retries generalizing b with
  | nil => rfl
  | cons call retries ih =>
    rw [run_cons, List.countP_cons]
    cases hcall : call.undelivered receipt with
    | some key =>
      rw [retry_of_undelivered hcall, ih h]
      simp
    | none =>
      obtain ⟨hsettled, hevents⟩ := retry_of_delivered h hcall
      rw [ih hsettled, hevents]
      simp
      omega

theorem run_retry_of_undelivered {retries : List OutcomeCall}
    (h : ∀ call ∈ retries, (call.undelivered receipt).isSome = true) :
    run (retry receipt) b retries = b := by
  induction retries with
  | nil => rfl
  | cons call retries ih =>
    obtain ⟨key, hkey⟩ := Option.isSome_iff_exists.1 (h call List.mem_cons_self)
    rw [run_cons, retry_of_undelivered hkey]
    exact ih fun other hother => h other (List.mem_cons_of_mem call hother)

end AgentTurn.TurnBrain

namespace AgentTurn

theorem undelivered_isSome_iff {receipt : TurnReceipt} {call : OutcomeCall} :
    (call.undelivered receipt).isSome = true ↔
      ∃ o ∈ call.outcomes, receipt.deliveredKey o.1 = false := by
  rw [OutcomeCall.undelivered, List.find?_isSome]
  simp

/-- **Outcome commits are not idempotent end to end.**  After a call for a receipt that
succeeded, the store stays as it is through any retries, with the same or other outcomes, exactly
when each of them is refused, as it names a key that the receipt did not deliver: every other
retry is logged. -/
theorem retries_leave_store_iff {L : WingCache} (b : TurnBrain L) (receipt : TurnReceipt)
    (first : OutcomeCall) (h : (b.recordTurnOutcome receipt first).2.isOk = true)
    (retries : List OutcomeCall) :
    let committed := (b.recordTurnOutcome receipt first).1;
    (run (TurnBrain.retry receipt) committed retries).store = committed.store ↔
      ∀ call ∈ retries, ∃ o ∈ call.outcomes, receipt.deliveredKey o.1 = false := by
  intro committed
  have hiff : (∀ call ∈ retries, ∃ o ∈ call.outcomes, receipt.deliveredKey o.1 = false) ↔
      ∀ call ∈ retries, (call.undelivered receipt).isSome = true :=
    forall₂_congr fun call _ => undelivered_isSome_iff.symm
  rw [hiff]
  refine ⟨fun hsame call hcall => ?_, fun hall => ?_⟩
  · have hevents : (run (TurnBrain.retry receipt) committed retries).events =
        committed.events + retries.countP fun call => (call.undelivered receipt).isNone :=
      TurnBrain.events_run_retry (TurnBrain.settled_of_isOk h) retries
    have hnone : retries.countP (fun call => (call.undelivered receipt).isNone) = 0 := by
      unfold TurnBrain.events at hevents
      rw [hsame] at hevents
      omega
    simpa [Option.isSome_iff_ne_none] using List.countP_eq_zero.1 hnone call hcall
  · rw [TurnBrain.run_retry_of_undelivered hall]

/-! ## A replayed commit -/

/-- The brain after the turn. -/
def notedTurn : TurnBrain wingCache :=
  (noteTurns.turn noteTurnSetup (askWhen .v1) (noteClock 0)).1

/-- A memory was used. -/
def usedKey (key : String) : OutcomeCall :=
  { outcomes := [(key, .used)], committedAt := "2026-01-03T09:12:00+00:00",
    now := "2026-01-03 09:12:00" }

/-- A retry that names a key the turn did not deliver leaves the store alone. -/
theorem retries_leave_store_note :
    (run (TurnBrain.retry noteReceipt) (notedTurn.recordTurnOutcome noteReceipt (usedKey "note")).1
      [usedKey "other"]).store =
        (notedTurn.recordTurnOutcome noteReceipt (usedKey "note")).1.store ↔
      ∀ call ∈ [usedKey "other"], ∃ o ∈ call.outcomes, noteReceipt.deliveredKey o.1 = false :=
  retries_leave_store_iff notedTurn noteReceipt (usedKey "note") (by decide +kernel)
    [usedKey "other"]

/-- **A replayed commit** succeeds and is logged. -/
theorem replayed_commit_logs :
    let first := notedTurn.recordTurnOutcome noteReceipt (usedKey "note");
    let again := first.1.recordTurnOutcome noteReceipt (usedKey "note");
    first.2.isOk = true ∧ again.2.isOk = true ∧ again.1.store ≠ first.1.store := by
  intro first again
  have hevents : again.1.events ≠ first.1.events := by decide +kernel
  refine ⟨by decide +kernel, by decide +kernel, fun h => hevents ?_⟩
  unfold TurnBrain.events
  rw [h]

end AgentTurn

end Spectral
