import Spectral.Lib.Erasure
import Spectral.Lib.Unwinding
import Spectral.Turn.Exposure

/-!
# Turns that were aborted

A turn that is voided was delivered, but nobody is to learn anything from it.

* `Store.withoutTurns` — a store without some of its turns; `applyTurn_withoutTurns` — a call about
  another turn does the same there.
* `aborted_leave_no_trace` — after any run the memories and the evidence are what they would be had
  no call ever been made about the turns that were voided.
-/

namespace Spectral

open Spectral.Lib

/-- The turn a call is about; a forget is about none. -/
def TurnOp.occurrence : TurnOp → Option String
  | .recordTurnDelivery d => some d.occurrenceId
  | .commitTurnOutcomes occurrenceId _ _ _ => some occurrenceId
  | .voidTurn occurrenceId _ => some occurrenceId
  | .deleteMemoryByKey _ => none

/-- The call is about a turn that is selected. -/
def TurnCall.about (p : String → Bool) (c : TurnCall) : Bool := c.op.occurrence.any p

namespace Store

/-- The store without the turns that are selected. -/
def withoutTurns (p : String → Bool) (s : Store) : Store :=
  { s with
    turnEvents := s.turnEvents.deleteWhere fun e => p e.occurrenceId
    turnMembers := s.turnMembers.deleteWhere fun m => p m.occurrenceId }

variable {p : String → Bool} {s s' : Store} {c : TurnCall} {occurrenceId : String}

/-! ## Calls about other turns -/

theorem updateTurnEvent_withoutTurns (s : Store) (g : TurnEventRow → TurnEventRow)
    (hg : ∀ e, (g e).occurrenceId = e.occurrenceId) :
    (s.updateTurnEvent occurrenceId g hg).withoutTurns p =
      (s.withoutTurns p).updateTurnEvent occurrenceId g hg := by
  refine congrArg (fun events => { s.withoutTurns p with turnEvents := events })
    (Table.deleteWhere_update fun e => ?_)
  split
  · rw [hg]
  · rfl

theorem setOutcome_withoutTurns (s : Store) (key : String) (out : LedgerOutcome) :
    (s.setOutcome occurrenceId key out).withoutTurns p =
      (s.withoutTurns p).setOutcome occurrenceId key out := by
  refine congrArg (fun members => { s.withoutTurns p with turnMembers := members })
    (Table.deleteWhere_update fun m => ?_)
  split <;> rfl

section Others

variable (hother : p occurrenceId = false)

include hother

theorem turnEvent_withoutTurns (s : Store) :
    (s.withoutTurns p).turnEvent occurrenceId = s.turnEvent occurrenceId := by
  refine Table.find?_deleteWhere fun e _ hocc => ?_
  rw [of_decide_eq_true hocc, hother]

theorem insertTurnMember_withoutTurns (s : Store) (member : ℕ × String × String) :
    (s.insertTurnMember occurrenceId member).map (withoutTurns p) =
      (s.withoutTurns p).insertTurnMember occurrenceId member := by
  have hstays : ∀ m ∈ s.turnMembers, SameKey TurnMemberRow.pk m
      { occurrenceId, rank := member.1, memoryId := member.2.1, memoryKey := member.2.2 } →
        p m.occurrenceId = false := by
    intro m _ hclash
    rw [show m.occurrenceId = occurrenceId from congrArg Prod.fst hclash, hother]
  have hclash : (s.withoutTurns p).turnMembers.Clashes
      { occurrenceId, rank := member.1, memoryId := member.2.1, memoryKey := member.2.2 } ↔
        s.turnMembers.Clashes
          { occurrenceId, rank := member.1, memoryId := member.2.1, memoryKey := member.2.2 } :=
    Table.clashes_deleteWhere hstays
  unfold insertTurnMember
  dsimp only
  by_cases hc : s.turnMembers.Clashes
      { occurrenceId, rank := member.1, memoryId := member.2.1, memoryKey := member.2.2 }
  · rw [if_pos hc, if_pos (hclash.2 hc)]
    rfl
  · rw [if_neg hc, if_neg (fun h => hc (hclash.1 h))]
    by_cases hmem : s.HasMemory member.2.1
    · rw [if_pos hmem, if_pos (show (s.withoutTurns p).HasMemory member.2.1 from hmem)]
      have hmembers := Table.deleteWhere_insertOrIgnore
        (p := fun m : TurnMemberRow => p m.occurrenceId) hother hstays
      exact congrArg (fun members => Except.ok { s.withoutTurns p with turnMembers := members })
        hmembers
    · rw [if_neg hmem, if_neg (show ¬ (s.withoutTurns p).HasMemory member.2.1 from hmem)]
      rfl

theorem commitOutcome_withoutTurns (strength : ℚ) (now : String) (acc : Store × ℕ)
    (report : String × LedgerOutcome) :
    commitOutcome occurrenceId strength now (acc.1.withoutTurns p, acc.2) report =
      ((commitOutcome occurrenceId strength now acc report).1.withoutTurns p,
        (commitOutcome occurrenceId strength now acc report).2) := by
  have hcount : ((acc.1.withoutTurns p).turnMembers.countWhere fun m =>
      m.occurrenceId = occurrenceId ∧ m.memoryKey = report.1) =
        acc.1.turnMembers.countWhere fun m =>
          m.occurrenceId = occurrenceId ∧ m.memoryKey = report.1 := by
    refine Table.countWhere_deleteWhere fun m _ hm => ?_
    rw [(of_decide_eq_true hm).1, hother]
  unfold commitOutcome
  dsimp only
  rw [hcount, ← setOutcome_withoutTurns]
  split <;> rfl

theorem commitTurnOutcomes_withoutTurns (outcomes : List (String × LedgerOutcome)) (strength : ℚ)
    (committedAt now : String) (s : Store) :
    (s.withoutTurns p).commitTurnOutcomes occurrenceId outcomes strength committedAt now =
      (s.commitTurnOutcomes occurrenceId outcomes strength committedAt now).map
        fun r => (r.1.withoutTurns p, r.2) := by
  have hloop : ∀ acc : Store × ℕ,
      outcomes.foldl (commitOutcome occurrenceId strength now) (acc.1.withoutTurns p, acc.2) =
        ((outcomes.foldl (commitOutcome occurrenceId strength now) acc).1.withoutTurns p,
          (outcomes.foldl (commitOutcome occurrenceId strength now) acc).2) := fun acc =>
    List.foldl_hom (fun acc : Store × ℕ => (acc.1.withoutTurns p, acc.2))
      fun acc report => commitOutcome_withoutTurns hother strength now acc report
  unfold commitTurnOutcomes
  dsimp only
  rw [turnEvent_withoutTurns hother, hloop (s, 0), ← updateTurnEvent_withoutTurns]
  cases s.turnEvent occurrenceId with
  | none => rfl
  | some e =>
    dsimp only
    split
    · rfl
    · split <;> rfl

theorem voidTurn_withoutTurns (voidedAt : String) (s : Store) :
    (s.withoutTurns p).voidTurn occurrenceId voidedAt =
      (s.voidTurn occurrenceId voidedAt).map fun r => (r.1.withoutTurns p, r.2) := by
  unfold voidTurn
  rw [turnEvent_withoutTurns hother, ← updateTurnEvent_withoutTurns]
  cases s.turnEvent occurrenceId with
  | none => rfl
  | some e =>
    dsimp only
    split
    · rfl
    · split <;> rfl

theorem recordTurnDelivery_withoutTurns {d : TurnDelivery} (hd : d.occurrenceId = occurrenceId)
    (s : Store) : (s.withoutTurns p).recordTurnDelivery d =
      (s.recordTurnDelivery d).map (withoutTurns p) := by
  subst hd
  have hloop : ∀ (members : List (ℕ × String × String)) (t : Store),
      members.foldlM (insertTurnMember d.occurrenceId) (t.withoutTurns p) =
        (members.foldlM (insertTurnMember d.occurrenceId) t).map (withoutTurns p) := by
    intro members
    induction members with
    | nil => exact fun t => rfl
    | cons member members ih =>
      intro t
      rw [List.foldlM_cons, List.foldlM_cons, ← insertTurnMember_withoutTurns hother]
      cases t.insertTurnMember d.occurrenceId member with
      | error e => rfl
      | ok t' => exact ih t'
  have hevents := Table.deleteWhere_insertOrIgnore (t := s.turnEvents) (x := d.event)
    (p := fun e : TurnEventRow => p e.occurrenceId) hother fun e _ hclash => by
      rw [show e.occurrenceId = d.occurrenceId from hclash, hother]
  have hstart : { s.withoutTurns p with
      turnEvents := (s.withoutTurns p).turnEvents.insertOrIgnore d.event } =
        ({ s with turnEvents := s.turnEvents.insertOrIgnore d.event } : Store).withoutTurns p :=
    congrArg (fun events => { s.withoutTurns p with turnEvents := events }) hevents.symm
  unfold recordTurnDelivery
  rw [hstart, hloop]

end Others

section

variable {t t' : Store} (ht : t' = t.withoutTurns p)

include ht

theorem deleteMemories_withoutTurns (q : MemoryRow → Bool) :
    t'.deleteMemories q = (t.deleteMemories q).withoutTurns p := by
  subst ht
  exact congrArg (fun members => { (t.deleteMemories q).withoutTurns p with turnMembers := members })
    (Table.deleteWhere_comm _)

theorem settleEpisode_withoutTurns (now ep : String) :
    (t'.settleEpisode now ep).1 = (t.settleEpisode now ep).1.withoutTurns p := by
  subst ht
  unfold settleEpisode
  dsimp only
  by_cases hgone : (t.episodes.countWhere fun e =>
      decide (e.id = ep) && decide (t.episodeMembers ep = 0)) = 0
  · refine (congrArg Prod.fst (if_pos hgone)).trans ?_
    rw [if_pos hgone]
    rfl
  · refine (congrArg Prod.fst (if_neg hgone)).trans ?_
    rw [if_neg hgone]
    rfl

end

theorem deleteMemoryByKey_withoutTurns (now key : String) (s : Store) :
    ((s.withoutTurns p).deleteMemoryByKey now key).1 =
      (s.deleteMemoryByKey now key).1.withoutTurns p := by
  unfold deleteMemoryByKey
  rw [show (s.withoutTurns p).memoryByKey key = s.memoryByKey key from rfl]
  cases s.memoryByKey key with
  | none => rfl
  | some row =>
    dsimp only
    cases row.episodeId with
    | none =>
      dsimp only
      exact deleteMemories_withoutTurns (by rfl) _
    | some ep =>
      dsimp only
      exact settleEpisode_withoutTurns (deleteMemories_withoutTurns (by rfl) _) now ep

/-- **A call about another turn** does the same without the turns that are selected. -/
theorem applyTurn_withoutTurns (hc : c.about p = false) (s : Store) :
    applyTurn (s.withoutTurns p) c = (applyTurn s c).withoutTurns p := by
  obtain ⟨op, now⟩ := c
  cases op with
  | recordTurnDelivery d =>
    simp only [applyTurn, recordTurnDelivery_withoutTurns hc rfl s]
    cases s.recordTurnDelivery d <;> rfl
  | commitTurnOutcomes occurrenceId outcomes strength committedAt =>
    simp only [applyTurn, commitTurnOutcomes_withoutTurns hc]
    cases s.commitTurnOutcomes occurrenceId outcomes strength committedAt now <;> rfl
  | voidTurn occurrenceId voidedAt =>
    simp only [applyTurn, voidTurn_withoutTurns hc]
    cases s.voidTurn occurrenceId voidedAt <;> rfl
  | deleteMemoryByKey key => exact deleteMemoryByKey_withoutTurns now key s

/-! ## Calls about the turns themselves -/

section Selected

variable (hsel : p occurrenceId = true)

include hsel

theorem withoutTurns_updateTurnEvent (s : Store) (g : TurnEventRow → TurnEventRow)
    (hg : ∀ e, (g e).occurrenceId = e.occurrenceId) :
    (s.updateTurnEvent occurrenceId g hg).withoutTurns p = s.withoutTurns p := by
  have hevents : ((s.updateTurnEvent occurrenceId g hg).turnEvents.deleteWhere fun e =>
      p e.occurrenceId) = s.turnEvents.deleteWhere fun e => p e.occurrenceId := by
    refine Table.deleteWhere_of_rows_eq_map rfl (fun e => ?_) fun e hstay => if_neg ?_
    · split
      · rw [hg]
      · rfl
    · rintro rfl
      rw [hsel] at hstay
      cases hstay
  exact congrArg (fun events => { s.withoutTurns p with turnEvents := events }) hevents

theorem withoutTurns_insertTurnMember {member : ℕ × String × String}
    (h : s.insertTurnMember occurrenceId member = .ok s') :
    s'.withoutTurns p = s.withoutTurns p := by
  unfold insertTurnMember at h
  dsimp only at h
  split at h
  · cases h
    rfl
  · split at h
    · cases h
      have hmembers := Table.deleteWhere_insertOrIgnore_self (t := s.turnMembers)
        (p := fun m : TurnMemberRow => p m.occurrenceId)
        (x := { occurrenceId, rank := member.1, memoryId := member.2.1, memoryKey := member.2.2 }) hsel
      exact congrArg (fun members => { s.withoutTurns p with turnMembers := members }) hmembers
    · cases h

theorem withoutTurns_setOutcome (s : Store) (key : String) (out : LedgerOutcome) :
    (s.setOutcome occurrenceId key out).withoutTurns p = s.withoutTurns p := by
  have hmembers : ((s.setOutcome occurrenceId key out).turnMembers.deleteWhere fun m =>
      p m.occurrenceId) = s.turnMembers.deleteWhere fun m => p m.occurrenceId := by
    refine Table.deleteWhere_of_rows_eq_map rfl (fun m => ?_) fun m hstay => if_neg ?_
    · split <;> rfl
    · rintro ⟨rfl, -⟩
      rw [hsel] at hstay
      cases hstay
  exact congrArg (fun members => { s.withoutTurns p with turnMembers := members }) hmembers

/-- A report on a turn that was never recorded finds no member, so it reinforces nothing. -/
theorem withoutTurns_commit_unknown (hnone : ∀ m ∈ s.turnMembers, m.occurrenceId ≠ occurrenceId)
    (outcomes : List (String × LedgerOutcome)) (strength : ℚ) (now : String) :
    (outcomes.foldl (commitOutcome occurrenceId strength now) (s, 0)).1.withoutTurns p =
      s.withoutTurns p := by
  suffices hloop : (run (commitOutcome occurrenceId strength now) (s, 0) outcomes).1.withoutTurns p =
      s.withoutTurns p ∧
        ∀ m ∈ (run (commitOutcome occurrenceId strength now) (s, 0) outcomes).1.turnMembers,
          m.occurrenceId ≠ occurrenceId from hloop.1
  refine run_invariant (I := fun acc : Store × ℕ => acc.1.withoutTurns p = s.withoutTurns p ∧
    ∀ m ∈ acc.1.turnMembers, m.occurrenceId ≠ occurrenceId) ?_ ⟨rfl, hnone⟩
  · rintro ⟨t, n⟩ report ⟨hsame, hmembers⟩
    have hcount : (t.turnMembers.countWhere fun m =>
        m.occurrenceId = occurrenceId ∧ m.memoryKey = report.1) = 0 := by
      refine List.countP_eq_zero.2 fun m hm hboth => ?_
      exact hmembers m hm (of_decide_eq_true hboth).1
    have hstep : (commitOutcome occurrenceId strength now (t, n) report).1 =
        t.setOutcome occurrenceId report.1 report.2 := by
      unfold commitOutcome
      dsimp only
      rw [hcount, if_neg (fun h => absurd h.2 (lt_irrefl 0))]
    rw [hstep]
    refine ⟨(withoutTurns_setOutcome hsel t _ _).trans hsame, fun m' hm' => ?_⟩
    obtain ⟨m, hm, rfl⟩ := mem_turnMembers_setOutcome.1 hm'
    split <;> exact hmembers m hm

end Selected

/-- The call does not adjudicate a turn that is selected. -/
def LeavesOpen (p : String → Bool) (s : Store) (c : TurnCall) : Prop :=
  ∀ occurrenceId outcomes strength committedAt,
    c.op = .commitTurnOutcomes occurrenceId outcomes strength committedAt →
      p occurrenceId = true → ¬ s.Pending occurrenceId

/-- **A call about a turn that is selected**, which it does not adjudicate, changes only that turn. -/
theorem withoutTurns_applyTurn (hs : s.LedgerOk) (hopen : s.LeavesOpen p c)
    (hc : c.about p = true) : (applyTurn s c).withoutTurns p = s.withoutTurns p := by
  obtain ⟨op, now⟩ := c
  cases op with
  | recordTurnDelivery d =>
    have hsel : p d.occurrenceId = true := hc
    simp only [applyTurn]
    cases h : s.recordTurnDelivery d with
    | error e => rfl
    | ok s' =>
      have hevents : ((s.turnEvents.insertOrIgnore d.event).deleteWhere fun e => p e.occurrenceId) =
          s.turnEvents.deleteWhere fun e => p e.occurrenceId :=
        Table.deleteWhere_insertOrIgnore_self hsel
      have hmembers : s'.withoutTurns p =
          ({ s with turnEvents := s.turnEvents.insertOrIgnore d.event } : Store).withoutTurns p :=
        rel_of_foldlM_eq_ok (R := fun t t' : Store => t'.withoutTurns p = t.withoutTurns p)
          (fun _ => rfl) (fun _ _ _ h h' => h'.trans h)
          (fun _ _ _ hstep => withoutTurns_insertTurnMember hsel hstep) h
      exact hmembers.trans
        (congrArg (fun events => { s.withoutTurns p with turnEvents := events }) hevents)
  | commitTurnOutcomes occurrenceId outcomes strength committedAt =>
    have hsel : p occurrenceId = true := hc
    have hnot := hopen occurrenceId outcomes strength committedAt rfl hsel
    simp only [applyTurn, commitTurnOutcomes]
    cases h : s.turnEvent occurrenceId with
    | none =>
      have hnone : ∀ m ∈ s.turnMembers, m.occurrenceId ≠ occurrenceId := by
        rintro m hm hocc
        obtain ⟨e, he, hocc', -⟩ := hs.adjudicated m hm
        exact turnEvent_eq_none h e he (hocc'.trans hocc)
      exact (withoutTurns_updateTurnEvent hsel _
        (fun e => { e with committedAt := some committedAt }) fun _ => rfl).trans
          (withoutTurns_commit_unknown hsel hnone outcomes strength now)
    | some e =>
      dsimp only
      split
      · rfl
      · split
        · rfl
        · rename_i hvoided hcommitted
          obtain ⟨he, hocc⟩ := turnEvent_eq_some h
          exact absurd ⟨e, he, hocc, by simpa using hcommitted, by simpa using hvoided⟩ hnot
  | voidTurn occurrenceId voidedAt =>
    have hsel : p occurrenceId = true := hc
    simp only [applyTurn, voidTurn]
    cases s.turnEvent occurrenceId with
    | none => rfl
    | some e =>
      dsimp only
      split
      · rfl
      · split
        · rfl
        · exact withoutTurns_updateTurnEvent hsel s
            (fun e => { e with voidedAt := some voidedAt }) fun _ => rfl
  | deleteMemoryByKey key => cases hc

/-- What the calls are to an observer who does not see the turns that are selected. -/
theorem unwinding_withoutTurns (p : String → Bool) :
    Unwinding applyTurn LedgerOk (LeavesOpen p) (TurnCall.about p) (withoutTurns p) where
  keeps s c hs := hs.turnStep (turnStep_applyTurn s c)
  unnoticed _ _ hs hopen hc := withoutTurns_applyTurn hs hopen hc
  respects s t c hsame hc := by
    rw [← applyTurn_withoutTurns hc, ← applyTurn_withoutTurns hc, hsame]

/-! ## Runs -/

/-- A commit of a turn that is pending takes effect. -/
theorem committed_of_pending {outcomes : List (String × LedgerOutcome)} {strength : ℚ}
    {committedAt now : String} (h : s.Pending occurrenceId) :
    (applyTurn s ⟨.commitTurnOutcomes occurrenceId outcomes strength committedAt, now⟩).Committed
      occurrenceId := by
  obtain ⟨e, he, hocc, hcom, hvoid⟩ := h
  have hfound : s.turnEvent occurrenceId = some e := Table.find?_key_eq_some.2 ⟨he, hocc⟩
  simp only [applyTurn, commitTurnOutcomes, hfound]
  rw [if_neg (by simp [hvoid]), if_neg (by simp [hcom])]
  refine ⟨{ e with committedAt := some committedAt }, ?_, hocc, rfl⟩
  show _ ∈ (updateTurnEvent occurrenceId (fun e => { e with committedAt := some committedAt })
    (fun _ => rfl) _).turnEvents
  rw [mem_turnEvents_updateTurnEvent, (settled_foldl outcomes s).turnEvents]
  exact ⟨e, he, if_pos hocc⟩

/-- In a run after which no turn that is selected is committed, none ever was. -/
theorem allSteps_leavesOpen {calls : List TurnCall}
    (hend : ∀ occ, p occ = true → ¬ (run applyTurn s calls).Committed occ) :
    AllSteps applyTurn (LeavesOpen p) s calls := by
  induction calls generalizing s with
  | nil => trivial
  | cons c calls ih =>
    refine ⟨?_, ih hend⟩
    rintro occ outcomes strength committedAt hop hsel hpending
    obtain ⟨op, now⟩ := c
    obtain rfl : op = .commitTurnOutcomes occ outcomes strength committedAt := hop
    have hlast : (run applyTurn (applyTurn s
        ⟨.commitTurnOutcomes occ outcomes strength committedAt, now⟩) calls).Committed occ :=
      run_invariant (I := fun t : Store => t.Committed occ)
        (fun t c ht => committed_applyTurn ht) (committed_of_pending hpending)
    exact hend occ hsel hlast

/-- A store in which no turn that is selected was recorded goes on without them. -/
theorem withoutTurns_run_of_visible (h : s.withoutTurns p = s) {calls : List TurnCall}
    (hcalls : ∀ c ∈ calls, c.about p = false) :
    (run applyTurn s calls).withoutTurns p = run applyTurn s calls := by
  induction calls generalizing s with
  | nil => exact h
  | cons c calls ih =>
    obtain ⟨hc, hrest⟩ := List.forall_mem_cons.1 hcalls
    exact ih (by rw [← applyTurn_withoutTurns hc, h]) hrest

/-- What is left out of the evidence anyway need not be there. -/
theorem exposures_withoutTurns (h : ∀ e ∈ s.turnEvents, p e.occurrenceId = true → e.voidedAt ≠ none) :
    (s.withoutTurns p).exposures = s.exposures := by
  rw [exposures_eq, exposures_eq]
  show (s.turnMembers.rows.filter _).filter _ = _
  rw [List.filter_filter]
  refine List.filter_congr fun m _ => ?_
  rw [Bool.eq_iff_iff, Bool.and_eq_true, decide_eq_true_iff, decide_eq_true_iff, Bool.not_eq_true']
  constructor
  · rintro ⟨⟨e, he, hrest⟩, -⟩
    exact ⟨e, List.mem_of_mem_filter he, hrest⟩
  · rintro ⟨e, he, hocc, hvoid⟩
    have hstay : p e.occurrenceId = false := by
      by_contra hsel
      exact h e he (by simpa using hsel) hvoid
    refine ⟨⟨e, List.mem_filter.2 ⟨he, by simp [hstay]⟩, hocc, hvoid⟩, ?_⟩
    exact (congrArg p hocc).symm.trans hstay

/-- The turn was first recorded in a run, and is voided after it. -/
def aborted (s : Store) (calls : List TurnCall) (occurrenceId : String) : Bool :=
  !(s.turnEvents.rows.any fun e => e.occurrenceId = occurrenceId) &&
    (run applyTurn s calls).turnEvents.rows.any fun e =>
      e.occurrenceId = occurrenceId && e.voidedAt.isSome

end Store

/-- **Aborted turns leave no trace.**  The store after a run, without the turns that were aborted in
it, is the store after the run without the calls about them; and the memories and the evidence are
the same as after that run. -/
theorem aborted_leave_no_trace (s : Store) (hs : s.LedgerOk) (calls : List TurnCall)
    (o : Shuffle (String × String)) (limit : ℕ) :
    let without := run applyTurn s (calls.filter fun c => !c.about (s.aborted calls))
    without = (run applyTurn s calls).withoutTurns (s.aborted calls) ∧
      without.memories = (run applyTurn s calls).memories ∧
        without.memoryOutcomeEvidence o limit =
          (run applyTurn s calls).memoryOutcomeEvidence o limit := by
  intro without
  set p := s.aborted calls with hp
  have hnew : ∀ e ∈ s.turnEvents, p e.occurrenceId = false := by
    intro e he
    have hthere : (s.turnEvents.rows.any fun e' => e'.occurrenceId = e.occurrenceId) = true :=
      List.any_eq_true.2 ⟨e, he, decide_eq_true rfl⟩
    rw [hp, Store.aborted, hthere]
    rfl
  have hmembers : ∀ m ∈ s.turnMembers, p m.occurrenceId = false := by
    intro m hm
    obtain ⟨e, he, hocc, -⟩ := hs.adjudicated m hm
    exact (congrArg p hocc).symm.trans (hnew e he)
  have hnone : s.withoutTurns p = s := by
    unfold Store.withoutTurns
    rw [Table.deleteWhere_eq_self hnew, Table.deleteWhere_eq_self hmembers]
  -- a turn is not both voided and committed
  have hvoided : ∀ e ∈ (run applyTurn s calls).turnEvents, p e.occurrenceId = true →
      e.voidedAt.isSome = true := by
    intro e he hsel
    obtain ⟨e', he', hrow⟩ := List.any_eq_true.1 (Bool.and_eq_true_iff.1 hsel).2
    obtain ⟨hocc, hvoid⟩ := Bool.and_eq_true_iff.1 hrow
    rwa [Store.eq_of_occurrenceId he' he (of_decide_eq_true hocc)] at hvoid
  have hopen : AllSteps applyTurn (Store.LeavesOpen p) s calls := by
    refine Store.allSteps_leavesOpen fun occ hsel hcommitted => ?_
    obtain ⟨e, he, rfl, hcom⟩ := hcommitted
    have hvoid := hvoided e he hsel
    rcases (Store.ledgerOk_run hs calls).exclusive e he with hno | hno
    · simp [hno] at hcom
    · simp [hno] at hvoid
  have hsame : without = (run applyTurn s calls).withoutTurns p :=
    (Store.withoutTurns_run_of_visible hnone (Unwinding.visible_filter _ calls)).symm.trans
      ((Store.unwinding_withoutTurns p).run_purge hs hopen).symm
  refine ⟨hsame, by rw [hsame]; rfl, ?_⟩
  have hexposures : without.exposures = (run applyTurn s calls).exposures := by
    rw [hsame, Store.exposures_withoutTurns fun e he hsel hvoid => ?_]
    have := hvoided e he hsel
    simp [hvoid] at this
  unfold Store.memoryOutcomeEvidence Store.exposuresOf
  rw [hexposures]

/-- A turn that is delivered and voided, among others. -/
theorem aborted_leave_no_trace_note :
    let calls := [deliverNote "turn-1", deliverNote "turn-2", ⟨.voidTurn "turn-1" "now", "now"⟩,
      commitNote "turn-1" [.used], commitNote "turn-2" [.used]]
    (calls.filter fun c => !c.about (ledgerStore.aborted calls)) =
        [deliverNote "turn-2", commitNote "turn-2" [.used]] ∧
      (run applyTurn ledgerStore [deliverNote "turn-2", commitNote "turn-2" [.used]]).memories =
        (run applyTurn ledgerStore calls).memories := by
  intro calls
  have hledger : ledgerStore.LedgerOk := ⟨by decide +kernel, by decide +kernel⟩
  have hkept : (calls.filter fun c => !c.about (ledgerStore.aborted calls)) =
      [deliverNote "turn-2", commitNote "turn-2" [.used]] := by decide +kernel
  refine ⟨hkept, ?_⟩
  rw [← hkept]
  exact (aborted_leave_no_trace ledgerStore hledger calls .inOrder 5).2.1

end Spectral
