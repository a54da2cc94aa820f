import Mathlib.Logic.Function.Iterate
import Spectral.Lib.Run
import Spectral.Ingest.Curate

/-!
# The turn ledger

A turn is one real-world exchange in which memories were delivered to a caller.  The
ledger records the delivery, and later what the caller made of each member:

* `recordTurnDelivery` — the turn and its members, every outcome `unreported`.
* `commitTurnOutcomes` — the reported outcomes, and in the same transaction one
  `UPDATE` of the score for every `used` in the report.
* `voidTurn` — the turn was aborted before adjudication.

`turnStep_applyTurn` says all that one of these calls, or a forget, can do to a store;
the results about runs use nothing else of the definitions.
-/

namespace Spectral

open Spectral.Lib

/-! ## Calls -/

/-- `TurnDelivery`. -/
structure TurnDelivery where
  occurrenceId : String
  deliveryDigest : String
  queryHash : Option String := none
  sessionId : Option String := none
  policy : String
  deliveredAt : String
  /-- Rank, memory id and memory key, in delivered order. -/
  members : List (ℕ × String × String)
  deriving DecidableEq

/-- The row a delivery is recorded as. -/
def TurnDelivery.event (d : TurnDelivery) : TurnEventRow :=
  { occurrenceId := d.occurrenceId, deliveryDigest := d.deliveryDigest, queryHash := d.queryHash,
    sessionId := d.sessionId, policy := d.policy, deliveredAt := d.deliveredAt }

namespace Store

/-- `INSERT OR IGNORE INTO turn_members`.  The uniqueness of the member is ignored, its
foreign keys are not; the turn was recorded by the statement before. -/
def insertTurnMember (occurrenceId : String) (s : Store) (member : ℕ × String × String) :
    Except String Store :=
  let row : TurnMemberRow :=
    { occurrenceId, rank := member.1, memoryId := member.2.1, memoryKey := member.2.2 }
  if s.turnMembers.Clashes row then .ok s
  else if s.HasMemory row.memoryId then
    .ok { s with turnMembers := s.turnMembers.insertOrIgnore row }
  else .error "FOREIGN KEY constraint failed"

/-- `record_turn_delivery`. -/
def recordTurnDelivery (d : TurnDelivery) (s : Store) : Except String Store :=
  d.members.foldlM (insertTurnMember d.occurrenceId)
    { s with turnEvents := s.turnEvents.insertOrIgnore d.event }

/-- The recorded turn with a given occurrence id. -/
def turnEvent (s : Store) (occurrenceId : String) : Option TurnEventRow :=
  s.turnEvents.find? fun e => e.occurrenceId = occurrenceId

/-- `UPDATE turn_events SET ... WHERE occurrence_id = ...`. -/
def updateTurnEvent (occurrenceId : String) (g : TurnEventRow → TurnEventRow)
    (hg : ∀ e, (g e).occurrenceId = e.occurrenceId) (s : Store) : Store :=
  { s with
    turnEvents := s.turnEvents.update (fun e => if e.occurrenceId = occurrenceId then g e else e)
      (by
        intro a b h
        unfold SameKey at h ⊢
        split at h <;> split at h <;> simpa only [hg] using h) }

/-- `UPDATE turn_members SET outcome = ... WHERE occurrence_id = ... AND memory_key = ...`. -/
def setOutcome (occurrenceId memoryKey : String) (outcome : LedgerOutcome) (s : Store) : Store :=
  { s with
    turnMembers := s.turnMembers.update
      (fun m => if m.occurrenceId = occurrenceId ∧ m.memoryKey = memoryKey then
        { m with outcome } else m)
      (by intro a b h; unfold SameKey at h ⊢; split at h <;> split at h <;> exact h) }

end Store

namespace Store

/-- The body of the loop in `commit_turn_outcomes`: one reported outcome. -/
def commitOutcome (occurrenceId : String) (strength : ℚ) (now : String) (acc : Store × ℕ)
    (report : String × LedgerOutcome) : Store × ℕ :=
  let n := acc.1.turnMembers.countWhere fun m =>
    m.occurrenceId = occurrenceId ∧ m.memoryKey = report.1
  let s := acc.1.setOutcome occurrenceId report.1 report.2
  let s :=
    if report.2 = .used ∧ 0 < n then
      s.updateMemories (fun r => r.key = report.1) (MemoryRow.reinforce strength now)
        fun _ => ⟨rfl, rfl⟩
    else s
  (s, acc.2 + n)

/-- `commit_turn_outcomes`. -/
def commitTurnOutcomes (occurrenceId : String) (outcomes : List (String × LedgerOutcome))
    (strength : ℚ) (committedAt now : String) (s : Store) : Except String (Store × ℕ) :=
  let settle : Store × ℕ :=
    let (s, changed) := outcomes.foldl (commitOutcome occurrenceId strength now) (s, 0)
    (s.updateTurnEvent occurrenceId (fun e => { e with committedAt := some committedAt })
      fun _ => rfl, changed)
  match s.turnEvent occurrenceId with
  | none => .ok settle
  | some e =>
    if e.voidedAt.isSome then
      .error s!"turn {occurrenceId} was voided (aborted before adjudication); committing outcomes for it would fabricate evidence"
    else if e.committedAt.isSome then .ok (s, 0)
    else .ok settle

/-- `void_turn`. -/
def voidTurn (occurrenceId voidedAt : String) (s : Store) : Except String (Store × Bool) :=
  match s.turnEvent occurrenceId with
  | none => .error s!"void for unknown turn {occurrenceId}"
  | some e =>
    if e.committedAt.isSome then
      .error s!"turn {occurrenceId} is already committed; adjudicated evidence must not be voided"
    else if e.voidedAt.isSome then .ok (s, false)
    else
      .ok (s.updateTurnEvent occurrenceId (fun e => { e with voidedAt := some voidedAt })
        fun _ => rfl, true)

end Store

/-- A call on the turn ledger, or a forget. -/
inductive TurnOp where
  | recordTurnDelivery (d : TurnDelivery)
  | commitTurnOutcomes (occurrenceId : String) (outcomes : List (String × LedgerOutcome))
      (strength : ℚ) (committedAt : String)
  | voidTurn (occurrenceId voidedAt : String)
  | deleteMemoryByKey (key : String)
  deriving DecidableEq

/-- A call and the clock reading it is made at. -/
structure TurnCall where
  op : TurnOp
  now : String
  deriving DecidableEq

/-- What a call leaves: a call that fails is rolled back. -/
def applyTurn (s : Store) (c : TurnCall) : Store :=
  match c.op with
  | .recordTurnDelivery d => (s.recordTurnDelivery d).toOption.getD s
  | .commitTurnOutcomes occurrenceId outcomes strength committedAt =>
    let committed := s.commitTurnOutcomes occurrenceId outcomes strength committedAt c.now
    (committed.map Prod.fst).toOption.getD s
  | .voidTurn occurrenceId voidedAt =>
    ((s.voidTurn occurrenceId voidedAt).map Prod.fst).toOption.getD s
  | .deleteMemoryByKey key => (s.deleteMemoryByKey c.now key).1

/-! ## The ledger -/

namespace Store

variable (s : Store)

/-- A turn was recorded and is neither committed nor voided. -/
def Pending (occurrenceId : String) : Prop :=
  ∃ e ∈ s.turnEvents.rows, e.occurrenceId = occurrenceId ∧ e.committedAt = none ∧ e.voidedAt = none

instance (occurrenceId : String) : Decidable (s.Pending occurrenceId) :=
  inferInstanceAs (Decidable (∃ e ∈ s.turnEvents.rows, _ ∧ _ ∧ _))

/-- The turn delivered a member under the key. -/
def Delivered (occurrenceId key : String) : Prop :=
  ∃ m ∈ s.turnMembers.rows, m.occurrenceId = occurrenceId ∧ m.memoryKey = key

instance (occurrenceId key : String) : Decidable (s.Delivered occurrenceId key) :=
  inferInstanceAs (Decidable (∃ m ∈ s.turnMembers.rows, _ ∧ _))

variable {s}

/-- A turn is recorded once. -/
theorem eq_of_occurrenceId {a b : TurnEventRow} (ha : a ∈ s.turnEvents) (hb : b ∈ s.turnEvents)
    (h : a.occurrenceId = b.occurrenceId) : a = b := Table.eq_of_clash ha hb h

theorem turnEvent_eq_some {occurrenceId : String} {e : TurnEventRow}
    (h : s.turnEvent occurrenceId = some e) :
    e ∈ s.turnEvents ∧ e.occurrenceId = occurrenceId := by
  obtain ⟨he, hocc⟩ := Table.mem_of_find?_eq_some h
  exact ⟨he, by simpa using hocc⟩

theorem turnEvent_eq_none {occurrenceId : String} (h : s.turnEvent occurrenceId = none) :
    ∀ e ∈ s.turnEvents, e.occurrenceId ≠ occurrenceId := by
  simpa using Table.find?_eq_none.1 h

end Store

/-! ## What a call can do -/

namespace Store

/-- What a delivery leaves: the turn, and members that are new, unreported and of memories
that exist. -/
structure Recorded (occurrenceId : String) (s s' : Store) : Prop where
  memories : s'.memories = s.memories
  turnEvents : s'.turnEvents = s.turnEvents
  kept : ∀ m ∈ s.turnMembers, m ∈ s'.turnMembers
  added : ∀ m ∈ s'.turnMembers, m ∈ s.turnMembers ∨
    m.occurrenceId = occurrenceId ∧ m.outcome = .unreported ∧ s.HasMemory m.memoryId ∧
      ∀ m' ∈ s.turnMembers, m'.pk ≠ m.pk

theorem Recorded.refl (occurrenceId : String) (s : Store) : Recorded occurrenceId s s :=
  ⟨rfl, rfl, fun _ h => h, fun _ h => Or.inl h⟩

theorem Recorded.trans {occurrenceId : String} {s t u : Store} (h : Recorded occurrenceId s t)
    (h' : Recorded occurrenceId t u) : Recorded occurrenceId s u where
  memories := h'.memories.trans h.memories
  turnEvents := h'.turnEvents.trans h.turnEvents
  kept m hm := h'.kept m (h.kept m hm)
  added m hm := by
    rcases h'.added m hm with hm | ⟨hocc, hout, hmem, hnew⟩
    · exact h.added m hm
    · unfold HasMemory at hmem
      rw [h.memories] at hmem
      exact Or.inr ⟨hocc, hout, hmem, fun m' hm' => hnew m' (h.kept m' hm')⟩

theorem recorded_insertTurnMember {occurrenceId : String} {s s' : Store}
    {member : ℕ × String × String} (h : s.insertTurnMember occurrenceId member = .ok s') :
    Recorded occurrenceId s s' := by
  unfold insertTurnMember at h
  dsimp only at h
  split at h
  · cases h
    exact Recorded.refl occurrenceId s
  · split at h
    · rename_i hclash hmem
      cases h
      refine ⟨rfl, rfl, fun m hm => Table.mem_insertOrIgnore_of_mem hm, fun m hm => ?_⟩
      rcases Table.mem_insertOrIgnore.1 hm with hm | ⟨rfl, -⟩
      · exact Or.inl hm
      · exact Or.inr ⟨rfl, rfl, hmem, fun m' hm' hpk => hclash ⟨m', hm', hpk⟩⟩
    · cases h

theorem recorded_recordTurnDelivery {d : TurnDelivery} {s s' : Store}
    (h : s.recordTurnDelivery d = .ok s') :
    Recorded d.occurrenceId { s with turnEvents := s.turnEvents.insertOrIgnore d.event } s' :=
  rel_of_foldlM_eq_ok (R := Recorded d.occurrenceId) (Recorded.refl _) (fun _ _ _ => Recorded.trans)
    (fun _ _ _ => recorded_insertTurnMember) h

end Store

/-- The last report of a key: the one the ledger keeps. -/
def lastReport (outcomes : List (String × LedgerOutcome)) (key : String) : Option LedgerOutcome :=
  (outcomes.filter fun o => o.1 = key).getLast?.map Prod.snd

/-- How often a report says a key was used. -/
def usedReports (outcomes : List (String × LedgerOutcome)) (key : String) : ℕ :=
  outcomes.count (key, .used)

@[simp] theorem lastReport_nil (key : String) : lastReport [] key = none := rfl

@[simp] theorem usedReports_nil (key : String) : usedReports [] key = 0 := rfl

theorem lastReport_concat (outcomes : List (String × LedgerOutcome))
    (o : String × LedgerOutcome) (key : String) :
    lastReport (outcomes ++ [o]) key = if o.1 = key then some o.2 else lastReport outcomes key := by
  by_cases h : o.1 = key <;> simp [lastReport, List.filter_append, h]

theorem usedReports_concat (outcomes : List (String × LedgerOutcome))
    (o : String × LedgerOutcome) (key : String) :
    usedReports (outcomes ++ [o]) key =
      usedReports outcomes key + if o.1 = key ∧ o.2 = .used then 1 else 0 := by
  obtain ⟨k, out⟩ := o
  simp [usedReports, List.count_append, List.count_singleton, Prod.ext_iff]

namespace Store

variable (occurrenceId : String) (outcomes : List (String × LedgerOutcome)) (strength : ℚ)
  (now : String)

/-- What a report makes of a member: the last report of its key. -/
def settleMember (m : TurnMemberRow) : TurnMemberRow :=
  if m.occurrenceId = occurrenceId then
    { m with outcome := (lastReport outcomes m.memoryKey).getD m.outcome }
  else m

/-- What a report makes of a memory: one reinforcement for every `used` of its key, when the
turn delivered it. -/
def settleMemory (s : Store) (r : MemoryRow) : MemoryRow :=
  (MemoryRow.reinforce strength now)^[
    if s.Delivered occurrenceId r.key then usedReports outcomes r.key else 0] r

/-- The store after the reported outcomes, before the turn is marked committed. -/
structure Settled (s s' : Store) : Prop where
  memories : ∀ r', r' ∈ s'.memories ↔
    ∃ r ∈ s.memories, s.settleMemory occurrenceId outcomes strength now r = r'
  turnMembers : ∀ m', m' ∈ s'.turnMembers ↔
    ∃ m ∈ s.turnMembers, settleMember occurrenceId outcomes m = m'
  turnEvents : s'.turnEvents = s.turnEvents

variable {occurrenceId outcomes strength now}

@[simp] theorem occurrenceId_settleMember (m : TurnMemberRow) :
    (settleMember occurrenceId outcomes m).occurrenceId = m.occurrenceId := by
  unfold settleMember
  split <;> rfl

@[simp] theorem memoryKey_settleMember (m : TurnMemberRow) :
    (settleMember occurrenceId outcomes m).memoryKey = m.memoryKey := by
  unfold settleMember
  split <;> rfl

theorem settleMember_concat (o : String × LedgerOutcome) (m : TurnMemberRow) :
    settleMember occurrenceId (outcomes ++ [o]) m =
      if m.occurrenceId = occurrenceId ∧ m.memoryKey = o.1 then
        { settleMember occurrenceId outcomes m with outcome := o.2 }
      else settleMember occurrenceId outcomes m := by
  unfold settleMember
  rw [lastReport_concat]
  by_cases hocc : m.occurrenceId = occurrenceId <;> by_cases hkey : m.memoryKey = o.1 <;>
    simp [hocc, hkey, Ne.symm]

@[simp] theorem id_iterate_reinforce (n : ℕ) (r : MemoryRow) :
    ((MemoryRow.reinforce strength now)^[n] r).id = r.id := by
  induction n with
  | zero => rfl
  | succ n ih => rw [Function.iterate_succ_apply']; exact ih

@[simp] theorem key_iterate_reinforce (n : ℕ) (r : MemoryRow) :
    ((MemoryRow.reinforce strength now)^[n] r).key = r.key := by
  induction n with
  | zero => rfl
  | succ n ih => rw [Function.iterate_succ_apply']; exact ih

@[simp] theorem id_settleMemory (s : Store) (r : MemoryRow) :
    (s.settleMemory occurrenceId outcomes strength now r).id = r.id := id_iterate_reinforce _ r

@[simp] theorem key_settleMemory (s : Store) (r : MemoryRow) :
    (s.settleMemory occurrenceId outcomes strength now r).key = r.key := key_iterate_reinforce _ r

theorem settleMemory_concat (s : Store) (o : String × LedgerOutcome) (r : MemoryRow) :
    s.settleMemory occurrenceId (outcomes ++ [o]) strength now r =
      if r.key = o.1 ∧ o.2 = .used ∧ s.Delivered occurrenceId o.1 then
        (s.settleMemory occurrenceId outcomes strength now r).reinforce strength now
      else s.settleMemory occurrenceId outcomes strength now r := by
  unfold settleMemory
  rw [usedReports_concat]
  by_cases hkey : r.key = o.1
  · by_cases hdel : s.Delivered occurrenceId o.1 <;> by_cases hused : o.2 = .used <;>
      simp [hkey, hdel, hused, Function.iterate_succ_apply']
  · simp [hkey, Ne.symm hkey]

theorem settled_nil (s : Store) : Settled occurrenceId [] strength now s s where
  memories r' := by simp [settleMemory]
  turnMembers m' := by simp [settleMember]
  turnEvents := rfl

/-- The members delivered under a key are those of before: a report changes their outcome
only. -/
theorem Settled.delivered_iff {s t : Store} (h : Settled occurrenceId outcomes strength now s t)
    (occ key : String) : t.Delivered occ key ↔ s.Delivered occ key := by
  constructor
  · rintro ⟨m', hm', hocc, hkey⟩
    obtain ⟨m, hm, rfl⟩ := (h.turnMembers m').1 hm'
    exact ⟨m, hm, by simpa using hocc, by simpa using hkey⟩
  · rintro ⟨m, hm, hocc, hkey⟩
    exact ⟨settleMember occurrenceId outcomes m, (h.turnMembers _).2 ⟨m, hm, rfl⟩,
      by simpa using hocc, by simpa using hkey⟩

theorem mem_turnMembers_setOutcome {s : Store} {key : String} {out : LedgerOutcome}
    {m' : TurnMemberRow} : m' ∈ (s.setOutcome occurrenceId key out).turnMembers ↔
      ∃ m ∈ s.turnMembers, (if m.occurrenceId = occurrenceId ∧ m.memoryKey = key then
        { m with outcome := out } else m) = m' := by
  simp only [setOutcome, Table.mem_update]

/-- **One reported outcome.** -/
theorem Settled.concat {s t : Store} (h : Settled occurrenceId outcomes strength now s t)
    (n : ℕ) (o : String × LedgerOutcome) :
    Settled occurrenceId (outcomes ++ [o]) strength now s
      (commitOutcome occurrenceId strength now (t, n) o).1 := by
  have hpos : (0 < t.turnMembers.countWhere fun m =>
      m.occurrenceId = occurrenceId ∧ m.memoryKey = o.1) ↔ s.Delivered occurrenceId o.1 := by
    rw [Table.countWhere_pos, ← h.delivered_iff]
    simp [Delivered]
  have hmembers : ∀ m', m' ∈ (t.setOutcome occurrenceId o.1 o.2).turnMembers ↔
      ∃ m ∈ s.turnMembers, settleMember occurrenceId (outcomes ++ [o]) m = m' := by
    intro m'
    rw [mem_turnMembers_setOutcome]
    constructor
    · rintro ⟨m₁, hm₁, rfl⟩
      obtain ⟨m, hm, rfl⟩ := (h.turnMembers m₁).1 hm₁
      exact ⟨m, hm, by simp [settleMember_concat]⟩
    · rintro ⟨m, hm, rfl⟩
      exact ⟨_, (h.turnMembers _).2 ⟨m, hm, rfl⟩, by simp [settleMember_concat]⟩
  unfold commitOutcome
  dsimp only
  by_cases hfires : o.2 = .used ∧ s.Delivered occurrenceId o.1
  · rw [if_pos ⟨hfires.1, hpos.2 hfires.2⟩]
    refine ⟨fun r' => ?_, hmembers, h.turnEvents⟩
    rw [mem_memories_updateMemories]
    constructor
    · rintro ⟨r₁, hr₁, rfl⟩
      obtain ⟨r, hr, rfl⟩ := (h.memories r₁).1 hr₁
      exact ⟨r, hr, by simp [settleMemory_concat, hfires]⟩
    · rintro ⟨r, hr, rfl⟩
      exact ⟨_, (h.memories _).2 ⟨r, hr, rfl⟩, by simp [settleMemory_concat, hfires]⟩
  · have hsame : ∀ r, s.settleMemory occurrenceId (outcomes ++ [o]) strength now r =
        s.settleMemory occurrenceId outcomes strength now r := by
      intro r
      rw [settleMemory_concat, if_neg fun h => hfires h.2]
    rw [if_neg fun h => hfires ⟨h.1, hpos.1 h.2⟩]
    refine ⟨fun r' => ?_, hmembers, h.turnEvents⟩
    simp only [hsame]
    exact h.memories r'

theorem settled_foldl (outcomes : List (String × LedgerOutcome)) (s : Store) :
    Settled occurrenceId outcomes strength now s
      (outcomes.foldl (commitOutcome occurrenceId strength now) (s, 0)).1 := by
  induction outcomes using List.reverseRecOn with
  | nil => exact settled_nil s
  | append_singleton outcomes o ih =>
    rw [List.foldl_append]
    exact ih.concat _ o

theorem mem_turnEvents_updateTurnEvent {s : Store} {g : TurnEventRow → TurnEventRow}
    {hg : ∀ e, (g e).occurrenceId = e.occurrenceId} {e' : TurnEventRow} :
    e' ∈ (s.updateTurnEvent occurrenceId g hg).turnEvents ↔
      ∃ e ∈ s.turnEvents, (if e.occurrenceId = occurrenceId then g e else e) = e' := by
  simp only [updateTurnEvent, Table.mem_update]

/-- No recorded turn of this id is committed or voided. -/
def Open (s : Store) (occurrenceId : String) : Prop :=
  ∀ e ∈ s.turnEvents, e.occurrenceId = occurrenceId → e.committedAt = none ∧ e.voidedAt = none

theorem open_of_turnEvent_eq_some {s : Store} {e : TurnEventRow}
    (h : s.turnEvent occurrenceId = some e) (hc : ¬ e.committedAt.isSome)
    (hv : ¬ e.voidedAt.isSome) : s.Open occurrenceId := by
  obtain ⟨he, hocc⟩ := turnEvent_eq_some h
  intro e' he' hocc'
  rw [eq_of_occurrenceId he' he (hocc'.trans hocc.symm)]
  exact ⟨by simpa using hc, by simpa using hv⟩

theorem not_pending_of_turnEvent_eq_some {s : Store} {e : TurnEventRow}
    (h : s.turnEvent occurrenceId = some e) (hset : e.committedAt.isSome ∨ e.voidedAt.isSome) :
    ¬ s.Pending occurrenceId := by
  obtain ⟨he, hocc⟩ := turnEvent_eq_some h
  rintro ⟨e', he', hocc', hc, hv⟩
  rw [eq_of_occurrenceId he he' (hocc.trans hocc'.symm), hc, hv] at hset
  simp at hset

end Store

/-- What a forget leaves: the rows under other keys, and the members of memories that are still
there. -/
structure Store.Forgotten (key : String) (s s' : Store) : Prop where
  memories : ∀ r, r ∈ s'.memories ↔ r ∈ s.memories ∧ r.key ≠ key
  turnMembers : ∀ m, m ∈ s'.turnMembers ↔
    m ∈ s.turnMembers ∧ ∀ r ∈ s.memories, r.key = key → r.id ≠ m.memoryId
  turnEvents : s'.turnEvents = s.turnEvents

theorem Store.forgotten_deleteMemoryByKey (now key : String) (s : Store) :
    Forgotten key s (s.deleteMemoryByKey now key).1 where
  memories _ := mem_memories_deleteMemoryByKey
  turnMembers m := by
    rw [(sameTables_deleteMemoryByKey now key s).turnMembers, mem_turnMembers_deleteMemories]
    simp
  turnEvents := (sameTables_deleteMemoryByKey now key s).turnEvents

/-- Everything a call can do. -/
inductive TurnStep (s : Store) : TurnCall → Store → Prop where
  | unchanged {c : TurnCall} (h : ∀ occurrenceId outcomes strength committedAt,
      c.op = .commitTurnOutcomes occurrenceId outcomes strength committedAt →
        ¬ s.Pending occurrenceId) : TurnStep s c s
  | recorded {d : TurnDelivery} {now : String} {s' : Store}
      (h : Store.Recorded d.occurrenceId
        { s with turnEvents := s.turnEvents.insertOrIgnore d.event } s') :
      TurnStep s ⟨.recordTurnDelivery d, now⟩ s'
  | committed {occurrenceId : String} {outcomes : List (String × LedgerOutcome)} {strength : ℚ}
      {committedAt now : String} {t : Store} (hopen : s.Open occurrenceId)
      (h : Store.Settled occurrenceId outcomes strength now s t) :
      TurnStep s ⟨.commitTurnOutcomes occurrenceId outcomes strength committedAt, now⟩
        (t.updateTurnEvent occurrenceId (fun e => { e with committedAt := some committedAt })
          fun _ => rfl)
  | voided {occurrenceId voidedAt now : String} (hopen : s.Open occurrenceId) :
      TurnStep s ⟨.voidTurn occurrenceId voidedAt, now⟩
        (s.updateTurnEvent occurrenceId (fun e => { e with voidedAt := some voidedAt })
          fun _ => rfl)
  | forgotten {key now : String} {s' : Store} (h : Store.Forgotten key s s') :
      TurnStep s ⟨.deleteMemoryByKey key, now⟩ s'

/-- **One call.** -/
theorem turnStep_applyTurn (s : Store) (c : TurnCall) : TurnStep s c (applyTurn s c) := by
  obtain ⟨op, now⟩ := c
  cases op with
  | recordTurnDelivery d =>
    simp only [applyTurn]
    cases h : s.recordTurnDelivery d with
    | error e => exact .unchanged (by simp)
    | ok s' => exact .recorded (Store.recorded_recordTurnDelivery h)
  | commitTurnOutcomes occurrenceId outcomes strength committedAt =>
    simp only [applyTurn, Store.commitTurnOutcomes]
    cases h : s.turnEvent occurrenceId with
    | none =>
      exact .committed (fun e he hocc => absurd hocc (Store.turnEvent_eq_none h e he))
        (Store.settled_foldl outcomes s)
    | some e =>
      dsimp only
      split
      · rename_i hv
        have hnot := Store.not_pending_of_turnEvent_eq_some h (Or.inr hv)
        exact .unchanged (by rintro _ _ _ _ ⟨⟩; exact hnot)
      · rename_i hv
        split
        · rename_i hc
          have hnot := Store.not_pending_of_turnEvent_eq_some h (Or.inl hc)
          exact .unchanged (by rintro _ _ _ _ ⟨⟩; exact hnot)
        · rename_i hc
          exact .committed (Store.open_of_turnEvent_eq_some h hc hv)
            (Store.settled_foldl outcomes s)
  | voidTurn occurrenceId voidedAt =>
    simp only [applyTurn, Store.voidTurn]
    cases h : s.turnEvent occurrenceId with
    | none => exact .unchanged (by simp)
    | some e =>
      dsimp only
      split
      · exact .unchanged (by simp)
      · rename_i hc
        split
        · exact .unchanged (by simp)
        · rename_i hv
          exact .voided (Store.open_of_turnEvent_eq_some h hc hv)
  | deleteMemoryByKey key => exact .forgotten (Store.forgotten_deleteMemoryByKey now key s)

end Spectral
