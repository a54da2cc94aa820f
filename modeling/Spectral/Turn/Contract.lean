import Spectral.Brain.Reading
import Spectral.Turn.Brain
import Spectral.Turn.Policy

/-!
# The agent-turn contract

A turn retrieves, recognizes what the agent has just encountered, and records what it delivered.
Feedback comes later, with the outcome.

* `TurnBrain` — a brain with its memory side and its turn side, over one store.
* `TurnBrain.turn` — `Brain::turn`.
* `turn_reads_only` — what a run of turns leaves of the memories and of the log of retrievals, as
  long as no outcome is committed: a turn of the shaped policy whose question is temporal is
  routed to full-text recall, which logs.
-/

namespace Spectral

open Spectral.Lib

/-- Everything in a store but the turn ledger. -/
def Store.remembered (s : Store) : Store := { s with turnEvents := .empty, turnMembers := .empty }

namespace AgentTurn

/-! ## Requests and receipts -/

/-- `TurnPolicyVersion`. -/
inductive TurnPolicyVersion where
  | v1
  | v2Shaped
  deriving DecidableEq

namespace TurnPolicyVersion

/-- `as_str`. -/
def asStr : TurnPolicyVersion → String
  | .v1 => "v1"
  | .v2Shaped => "v2-shaped"

variable (isMatch : String → String → Bool) (pf : Platform)

/-- `retrieval_config`. -/
def retrievalConfig : TurnPolicyVersion → Option String → CascadeProfile
  | .v1, _ => { writeBack := false }
  | .v2Shaped, query =>
    let base := match query with
      | some q => (QuestionShape.classify isMatch pf q).cascadeProfile
      | none => {}
    { base with writeBack := false }

/-- `route`. -/
def route : TurnPolicyVersion → Option String → RetrievalRoute
  | .v1, _ => .cascade
  | .v2Shaped, none => .cascade
  | .v2Shaped, some q => (QuestionShape.classify isMatch pf q).retrievalRoute

end TurnPolicyVersion

/-- `RecognitionContext`, with the session it carries to the receipt. -/
structure TurnContext extends RecognitionContext where
  sessionId : Option String := none

/-- `TurnRequest`. -/
structure TurnRequest where
  query : Option String
  observations : List String := []
  visibility : Visibility
  context : TurnContext := {}
  policy : TurnPolicyVersion := .v1

/-- `DeliveredHit`. -/
structure DeliveredHit where
  rank : ℕ
  id : String
  key : String
  deriving DecidableEq

/-- `TurnReceipt`. -/
structure TurnReceipt where
  id : String
  deliveryDigest : String
  queryHash : Option String
  sessionId : Option String
  wing : Option String
  delivered : List DeliveredHit
  policy : TurnPolicyVersion
  deriving DecidableEq

/-- `TurnResult`. -/
structure TurnResult where
  receipt : TurnReceipt
  hits : List MemoryHit
  recognition : List RecognitionResult

/-- What a call reads off the clock, and its number in the process. -/
structure TurnClock where
  now : String
  deliveredAt : String
  nanos : ℤ
  seq : ℕ

/-- `hash_query`. -/
def hashQuery (env : Env) (query : String) : String := toHex (env.blake3 (utf8 query)).toList

/-- `TOPK_MIN_K`. -/
def topkMinK : ℕ := 40

/-! ## A turn -/

/-- What a turn calls. -/
structure TurnSetup where
  brain : BrainSetup
  /-- The cascade, re-ranking under the settings of a profile. -/
  cascade : CascadeProfile → CascadeSetup
  /-- `Regex::is_match`, of a pattern and a text. -/
  isMatch : String → String → Bool

/-- What a turn delivered. -/
def deliveredHits (hits : List MemoryHit) : List DeliveredHit :=
  hits.zipIdx.map fun p => { rank := p.2, id := p.1.id, key := p.1.key }

/-- The digest of a delivery: the policy, the query and the members in their order. -/
def deliveryDigest (env : Env) (policy : TurnPolicyVersion) (queryHash : Option String)
    (delivered : List DeliveredHit) : String :=
  hashQuery env (policy.asStr ++ "\u0001" ++ queryHash.getD "" ++ "\u0001" ++
    ",".intercalate (delivered.map DeliveredHit.id))

/-- The receipt of a turn.  Its id is of this occurrence, its digest of what was delivered. -/
def turnReceipt (env : Env) (request : TurnRequest) (hits : List MemoryHit) (clock : TurnClock) :
    TurnReceipt :=
  let queryHash := request.query.map (hashQuery env)
  let digest := deliveryDigest env request.policy queryHash (deliveredHits hits)
  { id := hashQuery env (digest ++ "\u0001" ++ toString clock.nanos ++ "\u0001" ++
      toString clock.seq)
    deliveryDigest := digest
    queryHash
    sessionId := request.context.sessionId
    wing := hits.head?.bind MemoryHit.wing
    delivered := deliveredHits hits
    policy := request.policy }

/-- The delivery that is recorded for a receipt. -/
def TurnReceipt.delivery (receipt : TurnReceipt) (deliveredAt : String) : TurnDelivery where
  occurrenceId := receipt.id
  deliveryDigest := receipt.deliveryDigest
  queryHash := receipt.queryHash
  sessionId := receipt.sessionId
  policy := receipt.policy.asStr
  deliveredAt := deliveredAt
  members := receipt.delivered.map fun d => (d.rank, d.id, d.key)

/-- The text of `Error::ReadOnly`. -/
def readOnlyText (op : String) : String :=
  "read-only brain: '" ++ op ++ "' is not available (opened with read_only = true)"

/-- A brain, with its memory side and its turn side over one store. -/
structure TurnBrain (L : WingCache) where
  memory : BrainState L
  turns : Brain
  same : turns.store = memory.cached.store
  readOnly : Bool := false

/-- A turn, or a step of the turn side: a deferred delivery, a void, a commit. -/
inductive TurnAct where
  | turn (request : TurnRequest) (clock : TurnClock)
  | side (a : BrainStep)

namespace TurnBrain

variable {L : WingCache}

section

variable (T : TurnSetup) (b : TurnBrain L)

/-- The turn side moves on. -/
def withTurns (turns : Brain) : TurnBrain L :=
  { b with memory := b.memory.withStore turns.store, turns, same := rfl }

/-- The memory side moves on. -/
def withMemory (memory : BrainState L) : TurnBrain L :=
  { b with memory, turns := { b.turns with store := memory.cached.store }, same := rfl }

/-- What a turn retrieves. -/
def retrieve (request : TurnRequest) (clock : TurnClock) : BrainState L × List MemoryHit :=
  let config := request.policy.retrievalConfig T.isMatch T.brain.pf request.query
  match request.query with
  | some query =>
    match request.policy.route T.isMatch T.brain.pf request.query with
    | .cascade =>
      let (memory, result) := b.memory.recallCascadeScopedAs T.brain (T.cascade config) clock.now
        b.readOnly query request.context.toRecognitionContext config.toCascadePipelineConfig
        request.visibility
      (memory, result.mergedHits)
    | .topkFts | .tact | .graph =>
      b.memory.recallTopkFtsAs T.brain b.readOnly query (max config.k topkMinK) 3 request.visibility
  | none => (b.memory, [])

/-- `Brain::turn`.  A deferred delivery is spawned and its handle registered; a write that is not
deferred may fail. -/
def turn (request : TurnRequest) (clock : TurnClock) : TurnBrain L × Except String TurnResult :=
  let (memory, hits) := b.retrieve T request clock
  let recognition := request.observations.map (memory.recognize T.brain)
  let receipt := turnReceipt T.brain.env request hits clock
  let delivery := receipt.delivery clock.deliveredAt
  let b := b.withMemory memory
  if b.readOnly = true then (b, .error (readOnlyText "record_turn_delivery"))
  else
    let recorded := b.withTurns
      ((b.turns.recordTurnDelivery delivery).register b.turns.tasks.length)
    if b.turns.asyncTurnDelivery = true then (recorded, .ok { receipt, hits, recognition })
    else match b.turns.store.recordTurnDelivery delivery with
      | .ok _ => (recorded, .ok { receipt, hits, recognition })
      | .error e => (recorded, .error s!"schema: {e}")

end

/-! ## Runs -/

/-- One act.  The turn side of a read-only brain takes no step. -/
def step (T : TurnSetup) (b : TurnBrain L) : TurnAct → TurnBrain L
  | .turn request clock => (b.turn T request clock).1
  | .side a => if b.readOnly = true then b else b.withTurns (b.turns.step a)

/-- The act is the transaction of a commit. -/
def Commits (b : TurnBrain L) : TurnAct → Prop
  | .side (.perform i _ _) => ∃ r ∈ b.turns.requests[i]?, r.verb.isCommit = true
  | _ => False

instance (b : TurnBrain L) (act : TurnAct) : Decidable (b.Commits act) := by
  unfold Commits
  split <;> infer_instance

/-- Everything a turn should leave alone: the memories, with their scores, the log of retrievals,
the other tables and the recognition index. -/
def remembered (b : TurnBrain L) : Store × RecognitionIndex :=
  (b.memory.cached.store.remembered, b.memory.index)

end TurnBrain

/-! ## What the turn side leaves alone -/

section

variable {s s' : Store} {b : Brain}

theorem remembered_insertTurnMember {occurrenceId : String} {member : ℕ × String × String}
    (h : s.insertTurnMember occurrenceId member = .ok s') : s'.remembered = s.remembered := by
  unfold Store.insertTurnMember at h
  dsimp only at h
  split at h
  · cases h
    rfl
  · split at h
    · cases h
      rfl
    · cases h

theorem remembered_recordTurnDelivery {d : TurnDelivery} (h : s.recordTurnDelivery d = .ok s') :
    s'.remembered = s.remembered := by
  have hmembers : s'.remembered =
      Store.remembered { s with turnEvents := s.turnEvents.insertOrIgnore d.event } :=
    rel_of_foldlM_eq_ok (R := fun s t : Store => t.remembered = s.remembered) (fun _ => rfl)
      (fun _ _ _ h h' => h'.trans h) (fun _ _ _ => remembered_insertTurnMember) h
  exact hmembers

theorem remembered_brain_recordTurnDelivery (d : TurnDelivery) :
    (b.recordTurnDelivery d).store.remembered = b.store.remembered := by
  unfold Brain.recordTurnDelivery
  split
  · rfl
  · cases h : b.store.recordTurnDelivery d with
    | error e => rfl
    | ok s => exact remembered_recordTurnDelivery h

theorem remembered_write (k : ℕ) : (b.write k).store.remembered = b.store.remembered := by
  unfold Brain.write
  split
  · rfl
  · split
    · split
      · rename_i hs
        exact remembered_recordTurnDelivery hs
      · rfl
    · rfl

theorem remembered_voidTurn {occurrenceId voidedAt : String} {newly : Bool}
    (h : s.voidTurn occurrenceId voidedAt = .ok (s', newly)) : s'.remembered = s.remembered := by
  unfold Store.voidTurn at h
  split at h
  · cases h
  · split at h
    · cases h
    · split at h <;> cases h <;> rfl

theorem remembered_perform {i : ℕ} {stamp now : String}
    (h : ∀ r ∈ b.requests[i]?, r.verb.isCommit = false) :
    (b.perform i stamp now).store.remembered = b.store.remembered := by
  unfold Brain.perform
  split
  · rename_i r hr
    split
    · split
      · rename_i s reply hs
        have hvoid := h r hr
        unfold TurnRequest.transact at hs
        split at hs
        · rename_i hverb
          rw [hverb] at hvoid
          cases hvoid
        · cases hv : b.store.voidTurn r.occurrenceId stamp with
          | error e => simp [hv, Except.map] at hs
          | ok p =>
            simp only [hv, Except.map, Except.ok.injEq, Prod.map, Prod.mk.injEq] at hs
            show s.remembered = _
            rw [← hs.1]
            exact remembered_voidTurn hv
      · rfl
    · rfl
  · rfl

/-- **One step of the turn side.**  Only the transaction of a commit touches the memories. -/
theorem remembered_brain_step {a : BrainStep}
    (h : ∀ i stamp now, a = .perform i stamp now → ∀ r ∈ b.requests[i]?, r.verb.isCommit = false) :
    (b.step a).store.remembered = b.store.remembered := by
  cases a with
  | recordTurnDelivery d => exact remembered_brain_recordTurnDelivery d
  | register k => exact congrArg Store.remembered (Brain.register_same k).2
  | write k => exact remembered_write k
  | fault k f => exact congrArg Store.remembered (Brain.fault_same k f).2
  | finish k => exact congrArg Store.remembered (Brain.finish_same k).2
  | resume i => exact congrArg Store.remembered (Brain.resume_same i).2
  | perform i stamp now => exact remembered_perform (h i stamp now rfl)
  | flushVoid i => exact congrArg Store.remembered (Brain.flushVoid_same i).2
  | flushVoided i => exact congrArg Store.remembered (Brain.flushVoided_same i).2.2
  | drain i order => exact congrArg Store.remembered (Brain.drain_same i order).2.2
  | join i => exact congrArg Store.remembered (Brain.join_same i).2.2
  | _ => rfl

end

/-! ## What a turn leaves alone -/

/-- The turn is routed to full-text recall, with a word to look for. -/
def TurnRequest.Logs (T : TurnSetup) (request : TurnRequest) : Prop :=
  request.policy = .v2Shaped ∧ ∃ query ∈ request.query,
    QuestionShape.classify T.isMatch T.brain.pf query = .temporal ∧
      T.brain.ftsQueryWords query ≠ []

/-- The act is such a turn, of a brain that is open for writing. -/
def TurnAct.Logs (T : TurnSetup) (readOnly : Bool) : TurnAct → Prop
  | .turn request _ => readOnly = false ∧ request.Logs T
  | .side _ => False

instance (T : TurnSetup) (readOnly : Bool) (act : TurnAct) : Decidable (act.Logs T readOnly) := by
  unfold TurnAct.Logs TurnRequest.Logs
  split <;> infer_instance

namespace TurnBrain

variable {L : WingCache} {T : TurnSetup} {b : TurnBrain L} {request : TurnRequest}
  {clock : TurnClock}

/-- The route of a turn with a query. -/
theorem route_eq_cascade_iff {query : String} :
    request.policy.route T.isMatch T.brain.pf (some query) = .cascade ↔
      ¬ (request.policy = .v2Shaped ∧
        QuestionShape.classify T.isMatch T.brain.pf query = .temporal) := by
  cases request.policy with
  | v1 => simp [TurnPolicyVersion.route]
  | v2Shaped => simp [TurnPolicyVersion.route, QuestionShape.retrievalRoute_eq_cascade_iff]

/-- No policy writes back or spreads. -/
theorem retrievalConfig_quiet {policy : TurnPolicyVersion} {query : Option String} :
    (policy.retrievalConfig T.isMatch T.brain.pf query).writeBack = false ∧
      (policy.retrievalConfig T.isMatch T.brain.pf query).spread = {} := by
  cases policy with
  | v1 => exact ⟨rfl, rfl⟩
  | v2Shaped =>
    refine ⟨rfl, ?_⟩
    cases query with
    | none => rfl
    | some q => exact QuestionShape.spread_cascadeProfile _

/-- The cascade of a turn, without write-back and spreading, reads. -/
theorem recallCascadeScopedAs_reads {S : BrainSetup} {C : CascadeSetup} {now : String}
    {readOnly : Bool} {memory : BrainState L} {query : String} {context : RecognitionContext}
    {config : CascadePipelineConfig} {visibility : Visibility} (hwrite : config.writeBack = false)
    (hspread : config.spread = {}) :
    let after := (memory.recallCascadeScopedAs S C now readOnly query context config visibility).1
    after.cached.store = memory.cached.store ∧ after.index = memory.index := by
  have hindex : ∀ k hint, (memory.cascadeRetrieveScoped S C query k hint visibility).1.index =
      memory.index := by
    intro k hint
    unfold BrainState.cascadeRetrieveScoped
    dsimp only
    split <;> rfl
  unfold BrainState.recallCascadeScopedAs BrainState.runCascadePipelineScopedAs
    BrainState.associativeSpreadAs
  dsimp only
  split
  · exact ⟨BrainState.store_cascadeRetrieveScoped, hindex _ _⟩
  · simp only [hwrite, hspread, Bool.false_eq_true, false_and, if_false]
    exact ⟨BrainState.store_cascadeRetrieveScoped, hindex _ _⟩

/-- What a turn that does not log retrieves leaves everything alone. -/
theorem retrieve_reads (h : ¬ (TurnAct.turn request clock).Logs T b.readOnly) :
    (b.retrieve T request clock).1.cached.store = b.memory.cached.store ∧
      (b.retrieve T request clock).1.index = b.memory.index := by
  unfold retrieve
  dsimp only
  split
  · rename_i query hquery
    by_cases hroute : request.policy.route T.isMatch T.brain.pf (some query) = .cascade
    · rw [hquery, hroute]
      exact recallCascadeScopedAs_reads retrievalConfig_quiet.1 retrievalConfig_quiet.2
    · have htopk : (b.memory.recallTopkFtsAs T.brain b.readOnly query
          (max (request.policy.retrievalConfig T.isMatch T.brain.pf (some query)).k topkMinK) 3
            request.visibility).1 = b.memory := by
        cases hro : b.readOnly with
        | true => exact BrainState.recallTopkFtsAs_readOnly
        | false =>
          by_cases hwords : T.brain.ftsQueryWords query = []
          · rw [BrainState.recallTopkFtsAs_of_no_words hwords]
          · rw [route_eq_cascade_iff, not_not] at hroute
            exact absurd ⟨hro, hroute.1, query, hquery, hroute.2, hwords⟩ h
      rw [hquery]
      cases hcase : request.policy.route T.isMatch T.brain.pf (some query) with
      | cascade => exact absurd hcase hroute
      | _ =>
        dsimp only
        rw [htopk]
        exact ⟨rfl, rfl⟩
  · exact ⟨rfl, rfl⟩

/-- What a turn that logs retrieves is logged once. -/
theorem logged_retrieve (h : (TurnAct.turn request clock).Logs T b.readOnly) :
    (b.retrieve T request clock).1.logged = b.memory.logged + 1 := by
  obtain ⟨hro, hpolicy, query, hquery, hshape, hwords⟩ := h
  have hroute : request.policy.route T.isMatch T.brain.pf (some query) = .topkFts := by
    rw [hpolicy]
    show QuestionShape.retrievalRoute _ = _
    rw [hshape]
    rfl
  unfold retrieve
  rw [hquery, hro]
  dsimp only
  rw [hroute]
  exact BrainState.logged_recallTopkFtsAs hwords

/-- Recording the delivery touches neither. -/
theorem remembered_turn : (b.turn T request clock).1.remembered =
    ((b.retrieve T request clock).1.cached.store.remembered,
      (b.retrieve T request clock).1.index) := by
  have hrecorded : ∀ (turns : Brain) (d : TurnDelivery) (k : ℕ),
      ((turns.recordTurnDelivery d).register k).store.remembered = turns.store.remembered :=
    fun turns d k => (congrArg Store.remembered (Brain.register_same k).2).trans
      (remembered_brain_recordTurnDelivery d)
  unfold turn
  dsimp only
  split
  · rfl
  · split
    · exact Prod.ext (hrecorded _ _ _) rfl
    · split <;> exact Prod.ext (hrecorded _ _ _) rfl

/-! ## Steps and runs -/

theorem readOnly_step (act : TurnAct) : (b.step T act).readOnly = b.readOnly := by
  cases act with
  | turn request clock =>
    show (b.turn T request clock).1.readOnly = _
    unfold turn
    dsimp only
    split
    · rfl
    · split
      · rfl
      · split <;> rfl
  | side a =>
    show (if _ then _ else _ : TurnBrain L).readOnly = _
    split <;> rfl

/-- A step of the turn side that is no commit. -/
theorem remembered_side {a : BrainStep} (h : ¬ b.Commits (.side a)) :
    (b.step T (.side a)).remembered = b.remembered := by
  unfold step
  dsimp only
  split
  · rfl
  · refine Prod.ext ?_ rfl
    show (b.turns.step a).store.remembered = b.memory.cached.store.remembered
    rw [remembered_brain_step, b.same]
    rintro i stamp now rfl r hr
    simpa using fun hcommit => h ⟨r, hr, hcommit⟩

/-- **One act** that is no commit and does not log. -/
theorem remembered_step {act : TurnAct} (h : ¬ b.Commits act) (hlogs : ¬ act.Logs T b.readOnly) :
    (b.step T act).remembered = b.remembered := by
  cases act with
  | side a => exact remembered_side h
  | turn request clock =>
    obtain ⟨hstore, hindex⟩ := retrieve_reads hlogs
    show (b.turn T request clock).1.remembered = _
    rw [remembered_turn, hstore, hindex]
    rfl

/-- The number of retrievals that are logged. -/
def logged (b : TurnBrain L) : ℕ := b.remembered.1.retrievalEvents.rows.length

/-- **One act** that is no commit: what it adds to the log. -/
theorem logged_step {act : TurnAct} (h : ¬ b.Commits act) :
    (b.step T act).logged = b.logged + if act.Logs T b.readOnly then 1 else 0 := by
  by_cases hlogs : act.Logs T b.readOnly
  · rw [if_pos hlogs]
    cases act with
    | side a => exact absurd hlogs id
    | turn request clock =>
      show (b.turn T request clock).1.logged = _
      rw [logged, remembered_turn]
      exact logged_retrieve hlogs
  · rw [if_neg hlogs, logged, remembered_step h hlogs]
    rfl

/-- **A run** without commits: what it adds to the log. -/
theorem logged_run {acts : List TurnAct}
    (h : AllSteps (step T) (fun b act => ¬ b.Commits act) b acts) :
    (run (step T) b acts).logged =
      b.logged + acts.countP fun act => decide (act.Logs T b.readOnly) := by
  induction acts generalizing b with
  | nil => rfl
  | cons act acts ih =>
    rw [run_cons, ih h.2, logged_step h.1, readOnly_step, List.countP_cons]
    simp only [decide_eq_true_eq]
    omega

/-- A run without commits in which nothing logs. -/
theorem remembered_run {acts : List TurnAct}
    (h : AllSteps (step T) (fun b act => ¬ b.Commits act) b acts)
    (hlogs : ∀ act ∈ acts, ¬ act.Logs T b.readOnly) :
    (run (step T) b acts).remembered = b.remembered := by
  induction acts generalizing b with
  | nil => rfl
  | cons act acts ih =>
    have hrest := ih h.2 fun other hother => by
      rw [readOnly_step]
      exact hlogs other (List.mem_cons_of_mem act hother)
    rw [run_cons, hrest, remembered_step h.1 (hlogs act List.mem_cons_self)]

end TurnBrain

/-- **A turn is read-only until its outcome**, unless it asks a temporal question under the shaped
policy.  In every run of turns, deferred deliveries and voids, from any state, as long as no
commit takes effect, everything but the turn ledger stays as it was if and only if no turn of the
run logs. -/
theorem turn_reads_only {L : WingCache} (T : TurnSetup) (b : TurnBrain L) (acts : List TurnAct)
    (h : AllSteps (TurnBrain.step T) (fun b act => ¬ b.Commits act) b acts) :
    (run (TurnBrain.step T) b acts).remembered = b.remembered ↔
      ∀ act ∈ acts, ¬ act.Logs T b.readOnly := by
  refine ⟨fun hsame act hact hlogs => ?_, TurnBrain.remembered_run h⟩
  have hlogged := TurnBrain.logged_run h
  rw [TurnBrain.logged, hsame] at hlogged
  have hnone : acts.countP (fun act => decide (act.Logs T b.readOnly)) = 0 := by
    unfold TurnBrain.logged at hlogged
    omega
  exact List.countP_eq_zero.1 hnone act hact (decide_eq_true hlogs)

/-! ## A temporal question -/

/-- The brain with the note for the team, open for writing. -/
def noteTurns : TurnBrain wingCache where
  memory := BrainState.teamNote
  turns := { store := BrainState.teamNote.cached.store, asyncTurnDelivery := false }
  same := rfl

/-- It looks for the day, and the question is temporal: "when did" is the only pattern in it. -/
def noteTurnSetup : TurnSetup where
  brain := { authorBrain with ftsQueryWords := fun _ => ["monday"] }
  cascade _ := plainCascade
  isMatch pattern _ := decide (pattern = reTemporal)

/-- What is asked, under a policy. -/
def askWhen (policy : TurnPolicyVersion) : TurnRequest :=
  { query := some "when did monday happen", visibility := .team, policy }

/-- When it is asked. -/
def noteClock (seq : ℕ) : TurnClock :=
  { now := "2026-01-03 09:10:00", deliveredAt := "2026-01-03T09:10:00+00:00",
    nanos := 1767431400000000000, seq }

/-- The receipt of a turn of the first policy. -/
def noteReceipt : TurnReceipt :=
  turnReceipt noteTurnSetup.brain.env (askWhen .v1)
    (noteTurns.retrieve noteTurnSetup (askWhen .v1) (noteClock 0)).2 (noteClock 0)

/-- The turn, which is voided. -/
def voidedTurn : List TurnAct :=
  [.turn (askWhen .v1) (noteClock 0), .side (.request noteReceipt.id .voidTurn),
    .side (.perform 0 "2026-01-03T09:11:00+00:00" "2026-01-03 09:11:00")]

/-- It reads only. -/
theorem turn_reads_only_note :
    (run (TurnBrain.step noteTurnSetup) noteTurns voidedTurn).remembered = noteTurns.remembered ↔
      ∀ act ∈ voidedTurn, ¬ act.Logs noteTurnSetup noteTurns.readOnly :=
  turn_reads_only noteTurnSetup noteTurns voidedTurn ⟨id, id, by decide +kernel, trivial⟩

/-- **The temporal question** under the shaped policy delivers the note, and is logged. -/
theorem temporal_turn_logs :
    let asked := noteTurns.turn noteTurnSetup (askWhen .v2Shaped) (noteClock 0);
    asked.2.isOk = true ∧ asked.1.remembered ≠ noteTurns.remembered := by
  intro asked
  have hlogged : asked.1.logged ≠ noteTurns.logged := by decide +kernel
  refine ⟨by decide +kernel, fun h => hlogged ?_⟩
  unfold TurnBrain.logged
  rw [h]

end AgentTurn

end Spectral
