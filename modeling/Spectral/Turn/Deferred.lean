import Spectral.Turn.Brain

/-!
# Deferred turn deliveries

A commit or a void that takes effect ahead of the delivery of its own turn finds no members
to adjudicate, so it awaits the delivery first, when it finds the handle.

* `TakesEffectAfterDelivery` — the contract, on a step.
* `Tracked` — the condition on a step: a lookup misses no delivery that has not finished, and
  for a commit finished well.
* `Covered` — the invariant, and `covered_step`.
* `deferred_turn_deliveries` — the runs whose steps are all tracked keep the contract.

Handles are dropped from the map when they are finished, and taken out of it by the first
call or flush that wants them; so a later lookup can miss a delivery that failed, or one that
is still running (`takesEffect_request_iff`, `commit_misses_failed_delivery`).
-/

namespace Spectral

open Spectral.Lib

/-- The write has finished, and finished well when the call is a commit. -/
def DeliveryTask.Serves (t : DeliveryTask) (verb : TurnVerb) : Prop :=
  match t.status with
  | .finished none => True
  | .finished (some _) => verb.isCommit = false
  | _ => False

instance (t : DeliveryTask) (verb : TurnVerb) : Decidable (t.Serves verb) := by
  unfold DeliveryTask.Serves
  split <;> infer_instance

/-- **The contract, on a step.**  When a commit or a void takes effect, every delivery of its
turn has finished, and a commit that succeeds follows none that failed. -/
def TakesEffectAfterDelivery (b : Brain) (a : BrainStep) : Prop :=
  match a with
  | .perform i stamp now =>
    ∀ r ∈ b.requests[i]?, r.phase = .ready →
      ∀ t ∈ b.tasks, t.delivery.occurrenceId = r.occurrenceId →
        t.isFinished ∧
          (r.verb.isCommit ∧ (r.transact stamp now b.store).isOk → t.status = .finished none)
  | _ => True

theorem DeliveryTask.serves_iff {t : DeliveryTask} {verb : TurnVerb} :
    t.Serves verb ↔ t.isFinished ∧ (verb.isCommit → t.status = .finished none) := by
  cases hs : t.status with
  | running => simp [Serves, isFinished, hs]
  | written r => simp [Serves, isFinished, hs]
  | finished r => cases r <;> simp [Serves, isFinished, hs]

instance (b : Brain) (a : BrainStep) : Decidable (TakesEffectAfterDelivery b a) := by
  unfold TakesEffectAfterDelivery
  split <;> infer_instance

namespace Brain

variable (b : Brain)

/-- A lookup for a turn misses no delivery that matters: the handle is in the map, or the
write has finished well enough for the call. -/
def Covers (occurrenceId : String) (verb : TurnVerb) : Prop :=
  ∀ p ∈ b.tasks.zipIdx, p.1.delivery.occurrenceId = occurrenceId →
    (b.pendingDelivery occurrenceId).map PendingDelivery.task = some p.2 ∨ p.1.Serves verb

instance (occurrenceId : String) (verb : TurnVerb) : Decidable (b.Covers occurrenceId verb) :=
  inferInstanceAs (Decidable (∀ p ∈ b.tasks.zipIdx, _ → _))

/-- The lookup a step makes, for a caller or for a flush. -/
def lookup : BrainStep → Option (String × TurnVerb)
  | .request occurrenceId verb => some (occurrenceId, verb)
  | .flushVoid i =>
    match b.flushes[i]? with
    | some { voiding := none, voids := occurrenceId :: _, .. } => some (occurrenceId, .voidTurn)
    | _ => none
  | _ => none

/-- The condition on a step: a lookup misses no delivery that matters, and no delivery is
spawned for a turn while a call on that turn is under way. -/
def Tracked (a : BrainStep) : Prop :=
  (∀ q ∈ b.lookup a, b.Covers q.1 q.2) ∧
    match a with
    | .recordTurnDelivery d =>
      b.asyncTurnDelivery → ∀ r ∈ b.requests, r.phase.isOpen → r.occurrenceId ≠ d.occurrenceId
    | _ => True

instance (a : BrainStep) : Decidable (b.Tracked a) := by
  unfold Tracked
  refine @instDecidableAnd _ _ inferInstance ?_
  split <;> infer_instance

/-- The invariant: a call under way awaits a delivery of its turn, or need not. -/
def Covered : Prop :=
  ∀ r ∈ b.requests, r.phase.isOpen → ∀ j t, b.tasks[j]? = some t →
    t.delivery.occurrenceId = r.occurrenceId → r.phase = .awaiting j ∨ t.Serves r.verb

/-! ## What a step does to the tasks and the calls -/

/-- The tasks of `b'` are those of `b`, and those that have finished have not changed. -/
def Progress (b b' : Brain) : Prop :=
  ∀ (j : ℕ) (t' : DeliveryTask), b'.tasks[j]? = some t' →
    ∃ t : DeliveryTask, b.tasks[j]? = some t ∧ t'.delivery = t.delivery ∧
      (t.isFinished → t'.status = t.status)

variable {b}

theorem progress_of_tasks_eq {b' : Brain} (h : b'.tasks = b.tasks) : Progress b b' := by
  intro j t' ht'
  rw [h] at ht'
  exact ⟨t', ht', rfl, fun _ => rfl⟩

theorem progress_of_modify {b' : Brain} {k : ℕ} {g : DeliveryTask → DeliveryTask}
    (h : b'.tasks = b.tasks.modify k g)
    (hg : ∀ t, b.tasks[k]? = some t →
      (g t).delivery = t.delivery ∧ (t.isFinished → (g t).status = t.status)) :
    Progress b b' := by
  intro j t' ht'
  rw [h, List.getElem?_modify] at ht'
  by_cases hj : k = j
  · subst hj
    obtain ⟨t, ht, rfl⟩ := by simpa using ht'
    exact ⟨t, ht, hg t ht⟩
  · exact ⟨t', by simpa [hj] using ht', rfl, fun _ => rfl⟩

/-- A task that has not finished may get a new status. -/
theorem progress_setStatus {b' : Brain} {k : ℕ} {t : DeliveryTask} {status : TaskStatus}
    (ht : b.tasks[k]? = some t) (hnot : t.isFinished = false)
    (h : b'.tasks = (b.setStatus k status).tasks) : Progress b b' := by
  refine progress_of_modify h fun t' ht' => ⟨rfl, fun hfin => ?_⟩
  rw [ht] at ht'
  cases ht'
  rw [hnot] at hfin
  cases hfin

theorem progress_register (k : ℕ) : Progress b (b.register k) := by
  unfold register
  split
  · exact progress_of_tasks_eq rfl
  · split
    · exact progress_of_tasks_eq rfl
    · exact progress_of_modify rfl fun t _ => ⟨rfl, fun _ => rfl⟩

theorem progress_write (k : ℕ) : Progress b (b.write k) := by
  unfold write
  cases ht : b.tasks[k]? with
  | none => exact progress_of_tasks_eq rfl
  | some t =>
    dsimp only
    split
    · rename_i hrun
      have hnot : t.isFinished = false := by rw [DeliveryTask.isFinished, hrun]
      split <;> exact progress_setStatus ht hnot rfl
    · exact progress_of_tasks_eq rfl

theorem progress_fault (k : ℕ) (f : Fault) : Progress b (b.fault k f) := by
  unfold fault
  cases ht : b.tasks[k]? with
  | none => exact progress_of_tasks_eq rfl
  | some t =>
    dsimp only
    split
    · rename_i hrun
      exact progress_setStatus ht (by rw [DeliveryTask.isFinished, hrun]) rfl
    · exact progress_of_tasks_eq rfl

theorem progress_finish (k : ℕ) : Progress b (b.finish k) := by
  unfold finish
  split
  · rename_i ht
    exact progress_setStatus ht rfl rfl
  · exact progress_of_tasks_eq rfl

/-- **One step, the tasks.**  Only a delivery adds one. -/
theorem progress_step (a : BrainStep) (ha : ∀ d, a ≠ .recordTurnDelivery d) :
    Progress b (b.step a) := by
  cases a with
  | recordTurnDelivery d => exact absurd rfl (ha d)
  | register k => exact progress_register k
  | write k => exact progress_write k
  | fault k f => exact progress_fault k f
  | finish k => exact progress_finish k
  | resume i => exact progress_of_tasks_eq (resume_same i).1
  | perform i stamp now => exact progress_of_tasks_eq (tasks_perform i stamp now)
  | flushVoid i => exact progress_of_tasks_eq (flushVoid_same i).1
  | flushVoided i => exact progress_of_tasks_eq (flushVoided_same i).1
  | drain i order => exact progress_of_tasks_eq (drain_same i order).1
  | join i => exact progress_of_tasks_eq (join_same i).1
  | _ => exact progress_of_tasks_eq rfl

/-- What a call may be after a step: as before, returned, looked up by the step, or past an
await of a delivery that went well. -/
inductive Moved (b : Brain) (a : BrainStep) (r' : TurnRequest) : Prop where
  | same (h : r' ∈ b.requests)
  | returned (h : r'.phase.isOpen = false)
  | asked {occurrenceId : String} {verb : TurnVerb}
      (hlookup : b.lookup a = some (occurrenceId, verb)) (h : r' = b.asked occurrenceId verb)
  | resumed {r : TurnRequest} {k : ℕ} {t : DeliveryTask} (hr : r ∈ b.requests)
      (hphase : r.phase = .awaiting k) (ht : b.tasks[k]? = some t)
      (hfin : t.status = .finished none) (h : r' = { r with phase := .ready })

/-- A call that moves on alone. -/
theorem mem_setPhase {i : ℕ} {r r' : TurnRequest} {phase : RequestPhase}
    (hi : b.requests[i]? = some r) (h : r' ∈ (b.setPhase i phase).requests) :
    r' ∈ b.requests ∨ r' = { r with phase } := by
  obtain ⟨j, hj⟩ := List.mem_iff_getElem?.1 h
  simp only [setPhase, List.getElem?_modify] at hj
  by_cases hij : i = j
  · subst hij
    simp [hi] at hj
    exact Or.inr hj.symm
  · simp [hij] at hj
    exact Or.inl (List.mem_of_getElem? hj)

theorem moved_resume {i : ℕ} {r' : TurnRequest} (h : r' ∈ (b.resume i).requests) :
    Moved b (.resume i) r' := by
  unfold resume at h
  split at h
  · rename_i occ verb k hi
    have hr := List.mem_of_getElem? hi
    split at h
    · rename_i d registered ht
      rcases mem_setPhase hi h with h | h
      · exact .same h
      · exact .resumed hr rfl ht rfl h
    · rcases mem_setPhase hi h with h | h
      · exact .same h
      · exact .returned (by rw [h]; rfl)
    · exact .same h
  · exact .same h

theorem moved_perform {i : ℕ} {stamp now : String} {r' : TurnRequest}
    (h : r' ∈ (b.perform i stamp now).requests) : Moved b (.perform i stamp now) r' := by
  unfold perform at h
  split at h
  · rename_i r hi
    split at h
    · split at h
      · rename_i s reply _
        rcases mem_setPhase (b := { b with store := s }) hi h with h | h
        · exact .same h
        · exact .returned (by rw [h]; rfl)
      · rcases mem_setPhase hi h with h | h
        · exact .same h
        · exact .returned (by rw [h]; rfl)
    · exact .same h
  · exact .same h

theorem moved_flushVoid {i : ℕ} {r' : TurnRequest} (h : r' ∈ (b.flushVoid i).requests) :
    Moved b (.flushVoid i) r' := by
  unfold flushVoid at h
  split at h
  · rename_i f hf
    split at h
    · rename_i occ voids hvoiding hvoids
      have hlookup : b.lookup (.flushVoid i) = some (occ, .voidTurn) := by
        obtain ⟨_, _, _, _⟩ := f
        simp only at hvoiding hvoids
        subst hvoiding hvoids
        simp [lookup, hf]
      rcases List.mem_append.1 h with h | h
      · exact .same h
      · exact .asked hlookup (List.mem_singleton.1 h)
    · exact .same h
  · exact .same h

/-- **One step, the calls.** -/
theorem moved_step {a : BrainStep} {r' : TurnRequest} (h : r' ∈ (b.step a).requests) :
    Moved b a r' := by
  cases a with
  | recordTurnDelivery d => exact .same (requests_recordTurnDelivery d ▸ h)
  | register k => exact .same ((register_same k).1 ▸ h)
  | write k => exact .same (requests_write k ▸ h)
  | fault k f => exact .same ((fault_same k f).1 ▸ h)
  | finish k => exact .same ((finish_same k).1 ▸ h)
  | request occ verb =>
    rcases List.mem_append.1 h with h | h
    · exact .same h
    · exact .asked rfl (List.mem_singleton.1 h)
  | resume i => exact moved_resume h
  | perform i stamp now => exact moved_perform h
  | flushVoid i => exact moved_flushVoid h
  | flushVoided i => exact .same ((flushVoided_same i).2.1 ▸ h)
  | drain i order => exact .same ((drain_same i order).2.1 ▸ h)
  | join i => exact .same ((join_same i).2.1 ▸ h)
  | _ => exact .same h

/-! ## The invariant -/

theorem serves_of_progress {t t' : DeliveryTask} {verb : TurnVerb} (h : t.Serves verb)
    (hkept : t.isFinished → t'.status = t.status) : t'.Serves verb := by
  rw [DeliveryTask.Serves, hkept (DeliveryTask.serves_iff.1 h).1]
  exact h

/-- A call that was just looked up is covered when its lookup was. -/
theorem covered_asked {occ : String} {verb : TurnVerb} (h : b.Covers occ verb) {j : ℕ}
    {t : DeliveryTask} (ht : b.tasks[j]? = some t) (hocc : t.delivery.occurrenceId = occ) :
    (b.asked occ verb).phase = .awaiting j ∨ t.Serves verb := by
  refine (h (t, j) (List.mem_zipIdx_iff_getElem?.2 ht) hocc).imp_left fun hpending => ?_
  obtain ⟨p, hp, rfl⟩ := Option.map_eq_some_iff.1 hpending
  simp [asked, hp]

theorem covered_recordTurnDelivery {d : TurnDelivery} (hc : b.Covered)
    (htracked : b.Tracked (.recordTurnDelivery d)) : (b.recordTurnDelivery d).Covered := by
  intro r hr hopen j t ht hocc
  rw [requests_recordTurnDelivery] at hr
  unfold recordTurnDelivery at ht
  split at ht
  · rename_i hasync
    rw [List.getElem?_append] at ht
    split at ht
    · exact hc r hr hopen j t ht hocc
    · have hnew : t = { delivery := d } := List.mem_singleton.1 (List.mem_of_getElem? ht)
      subst hnew
      exact absurd hocc.symm (htracked.2 hasync r hr hopen)
  · exact hc r hr hopen j t ht hocc

/-- **One step.**  Every call under way stays covered. -/
theorem covered_step {a : BrainStep} (hc : b.Covered) (htracked : b.Tracked a) :
    (b.step a).Covered := by
  by_cases hrec : ∃ d, a = .recordTurnDelivery d
  · obtain ⟨d, rfl⟩ := hrec
    exact covered_recordTurnDelivery hc htracked
  · intro r' hr' hopen j t' ht' hocc
    obtain ⟨t, ht, hdelivery, hkept⟩ := progress_step a (by simpa using hrec) j t' ht'
    rw [hdelivery] at hocc
    cases moved_step hr' with
    | same hr =>
      exact (hc r' hr hopen j t ht hocc).imp_right fun h => serves_of_progress h hkept
    | returned h =>
      rw [h] at hopen
      cases hopen
    | @asked occ verb hlookup h =>
      subst h
      have hcovers := htracked.1 _ hlookup
      exact (covered_asked hcovers ht hocc).imp_right fun h => serves_of_progress h hkept
    | @resumed r k t₀ hr hphase ht₀ hfin h =>
      subst h
      refine Or.inr (serves_of_progress ?_ hkept)
      rcases hc r hr (by rw [hphase]; rfl) j t ht hocc with hj | hserves
      · -- the delivery it awaited, which went well
        rw [hphase] at hj
        cases hj
        rw [ht₀] at ht
        cases ht
        simp [DeliveryTask.Serves, hfin]
      · exact hserves

theorem takesEffect_of_covered (hc : b.Covered) (a : BrainStep) : TakesEffectAfterDelivery b a := by
  unfold TakesEffectAfterDelivery
  split
  · rename_i i stamp now
    intro r hr hready t ht hocc
    obtain ⟨j, hj⟩ := List.mem_iff_getElem?.1 ht
    have hserves : t.Serves r.verb := by
      refine (hc r (List.mem_of_getElem? hr) (by rw [hready]; rfl) j t hj hocc).resolve_left ?_
      rw [hready]
      simp
    obtain ⟨hfin, hwell⟩ := DeliveryTask.serves_iff.1 hserves
    exact ⟨hfin, fun h => hwell h.1⟩
  · trivial

/-- A call that finds no handle may take effect at once; when its transaction goes through, that
keeps the contract only if the lookup missed nothing. -/
theorem takesEffect_request_iff {occ stamp now : String} {verb : TurnVerb}
    (hnone : b.pendingDelivery occ = none)
    (hok : ((b.asked occ verb).transact stamp now b.store).isOk) :
    TakesEffectAfterDelivery (b.request occ verb) (.perform b.requests.length stamp now) ↔
      b.Covers occ verb := by
  have hasked : (b.request occ verb).requests[b.requests.length]? = some (b.asked occ verb) := by
    simp [request]
  have hready : (b.asked occ verb).phase = .ready := by simp [asked, hnone]
  unfold TakesEffectAfterDelivery Covers
  dsimp only
  rw [hasked]
  constructor
  · intro h p hp hocc
    have hmem : p.1 ∈ b.tasks := (List.mem_zipIdx' hp).2 ▸ List.getElem_mem _
    obtain ⟨hfin, hwell⟩ := h _ rfl hready p.1 hmem hocc
    exact Or.inr (DeliveryTask.serves_iff.2 ⟨hfin, fun hcommit => hwell ⟨hcommit, hok⟩⟩)
  · rintro h r ⟨⟩ - t ht hocc
    obtain ⟨j, hj⟩ := List.mem_iff_getElem?.1 ht
    have hserves := (h (t, j) (List.mem_zipIdx_iff_getElem?.2 hj) hocc).resolve_left (by simp [hnone])
    obtain ⟨hfin, hwell⟩ := DeliveryTask.serves_iff.1 hserves
    exact ⟨hfin, fun h => hwell h.1⟩

end Brain

/-- **Deferred deliveries over a run.**  From any store, with nothing under way: in every
interleaving of deliveries, commits, voids and flushes whose steps are all tracked, each commit
and void takes effect after the deliveries of its turn, and no commit succeeds on a turn with a
failed one. -/
theorem deferred_turn_deliveries (s : Store) (async : Bool) (voids : List String)
    (l : List BrainStep)
    (h : AllSteps Brain.step Brain.Tracked
      { store := s, asyncTurnDelivery := async, pendingVoids := voids } l) :
    AllSteps Brain.step TakesEffectAfterDelivery
      { store := s, asyncTurnDelivery := async, pendingVoids := voids } l := by
  have hstart : Brain.Covered { store := s, asyncTurnDelivery := async, pendingVoids := voids } := by
    intro r hr
    cases hr
  exact allSteps_of_invariant
    (fun b a hc ha => ⟨Brain.takesEffect_of_covered hc a, Brain.covered_step hc ha⟩) hstart h

/-- A brain that defers deliveries, with one memory. -/
def deferringBrain : Brain := { store := ledgerStore }

/-- The delivery of one memory in a turn. -/
def deliveryOf (occurrenceId memoryId memoryKey : String) : TurnDelivery :=
  { occurrenceId, deliveryDigest := "d", policy := "default",
    deliveredAt := "2026-01-02 10:00:00", members := [(0, memoryId, memoryKey)] }

/-- The commit of a turn that used the memory. -/
def commitUsed (occurrenceId memoryKey : String) : BrainStep :=
  .request occurrenceId (.commitTurnOutcomes [(memoryKey, .used)] (1 / 10))

/-- Two turns, the first committed before its delivery is written, the second voided by a
flush. -/
def trackedSteps : List BrainStep :=
  [.recordTurnDelivery (deliveryOf "turn-1" "a1" "note"), .register 0,
    .recordTurnDelivery (deliveryOf "turn-2" "a1" "note"), .register 1,
    commitUsed "turn-1" "note", .voidTurnDeferred "turn-2", .flush, .flushVoid 0,
    .write 0, .finish 0, .resume 0,
    .perform 0 "2026-01-02T11:00:00+00:00" "2026-01-02 11:00:00",
    .write 1, .finish 1, .resume 1,
    .perform 1 "2026-01-02T11:00:01+00:00" "2026-01-02 11:00:01", .flushVoided 0, .drain 0 []]

theorem deferred_turn_deliveries_note :
    AllSteps Brain.step Brain.Tracked deferringBrain trackedSteps ∧
      AllSteps Brain.step TakesEffectAfterDelivery deferringBrain trackedSteps := by
  have htracked : AllSteps Brain.step Brain.Tracked deferringBrain trackedSteps := by
    decide +kernel
  exact ⟨htracked, deferred_turn_deliveries ledgerStore true [] trackedSteps htracked⟩

/-- The delivery of a memory that was forgotten meanwhile fails; the next delivery prunes its
handle; the commit of the first turn succeeds and changes no member. -/
theorem commit_misses_failed_delivery :
    let steps : List BrainStep :=
      [.recordTurnDelivery (deliveryOf "turn-1" "a0" "forgotten"), .register 0, .write 0,
        .finish 0, .recordTurnDelivery (deliveryOf "turn-2" "a1" "note"), .register 1,
        commitUsed "turn-1" "forgotten",
        .perform 0 "2026-01-02T11:00:00+00:00" "2026-01-02 11:00:00"]
    ¬ AllSteps Brain.step TakesEffectAfterDelivery deferringBrain steps ∧
      (run Brain.step deferringBrain steps).requests.map TurnRequest.phase =
        [.returned (.ok (.changed 0))] ∧
      (run Brain.step deferringBrain steps).store.turnEvent "turn-1" = none := by
  decide +kernel

end Spectral
