import Spectral.Turn.Ledger

/-!
# What the turn ledger is evidence of

Runs of deliveries, commits, voids and forgets, in any order and over any turns.

* `LedgerOk` — no turn is both committed and voided, and only committed turns have
  adjudicated members; every call keeps it.
* `KeepsCommitted` — what was on record for a committed turn is on record later, but for
  the members of forgotten memories.
* `Explained` — the scores are those of before, reinforced once for every turn committed
  with a member of the memory recorded `used`.

The first two hold in every run.  The third holds in the runs whose reports say `used`
once for the members they leave `used`, and for no other (`ReportsOnce`): the outcome
column keeps the last report of a key, the score keeps them all (`unexplained_note`).
-/

namespace Spectral

open Spectral.Lib

namespace Store

variable (s : Store)

/-- A turn was recorded and its outcomes committed. -/
def Committed (occurrenceId : String) : Prop :=
  ∃ e ∈ s.turnEvents, e.occurrenceId = occurrenceId ∧ e.committedAt.isSome

/-- The turn delivered a member under the key whose recorded outcome is `used`. -/
def RecordedUsed (occurrenceId key : String) : Prop :=
  ∃ m ∈ s.turnMembers.rows, m.occurrenceId = occurrenceId ∧ m.memoryKey = key ∧ m.outcome = .used

instance (occurrenceId key : String) : Decidable (s.RecordedUsed occurrenceId key) :=
  inferInstanceAs (Decidable (∃ m ∈ s.turnMembers.rows, _ ∧ _ ∧ _))

/-- A ledger the calls can have written: no turn is both committed and voided, every member
belongs to a recorded turn, and only committed turns have adjudicated members. -/
structure LedgerOk : Prop where
  exclusive : ∀ e ∈ s.turnEvents.rows, e.committedAt = none ∨ e.voidedAt = none
  adjudicated : ∀ m ∈ s.turnMembers.rows, ∃ e ∈ s.turnEvents.rows,
    e.occurrenceId = m.occurrenceId ∧ (m.outcome = .unreported ∨ e.committedAt.isSome)

variable {s s' : Store} {c : TurnCall}

/-- A turn that is committed is not open. -/
theorem ne_of_open {e : TurnEventRow} {occ : String} (hopen : s.Open occ) (he : e ∈ s.turnEvents)
    (hcom : e.committedAt.isSome) : e.occurrenceId ≠ occ := by
  intro hocc
  rw [(hopen e he hocc).1] at hcom
  simp at hcom

/-- A turn that is pending is not committed. -/
theorem not_committed_of_pending {occ : String} (h : s.Pending occ) : ¬ s.Committed occ := by
  obtain ⟨e, he, hocc, hcom, -⟩ := h
  rintro ⟨e', he', hocc', hcom'⟩
  rw [eq_of_occurrenceId he' he (hocc'.trans hocc.symm), hcom] at hcom'
  simp at hcom'

/-! ## No turn is both -/

theorem LedgerOk.recorded {d : TurnDelivery} (hs : s.LedgerOk)
    (h : Recorded d.occurrenceId { s with turnEvents := s.turnEvents.insertOrIgnore d.event } s') :
    s'.LedgerOk := by
  have hevents : ∀ e, e ∈ s'.turnEvents ↔
      e ∈ s.turnEvents ∨ (e = d.event ∧ ¬ s.turnEvents.Clashes d.event) := by
    intro e
    rw [h.turnEvents, Table.mem_insertOrIgnore]
  constructor
  · intro e he
    rcases (hevents e).1 he with he | ⟨rfl, -⟩
    · exact hs.exclusive e he
    · exact Or.inl rfl
  · intro m hm
    rcases h.added m hm with hm | ⟨hocc, hout, -, -⟩
    · obtain ⟨e, he, hrest⟩ := hs.adjudicated m hm
      exact ⟨e, (hevents e).2 (Or.inl he), hrest⟩
    · -- the turn of a new member was recorded before it, or by this call
      rcases Table.exists_clash_or_mem_insertOrIgnore s.turnEvents d.event with
        ⟨e, he, hclash⟩ | hnew
      · exact ⟨e, (hevents e).2 (Or.inl he), hclash.trans hocc.symm, Or.inl hout⟩
      · have hadded : d.event ∈ s'.turnEvents := by rw [h.turnEvents]; exact hnew
        exact ⟨d.event, hadded, hocc.symm, Or.inl hout⟩

theorem LedgerOk.committed {occ : String} {outcomes : List (String × LedgerOutcome)}
    {strength : ℚ} {now committedAt : String} {t : Store} (hs : s.LedgerOk)
    (hopen : s.Open occ) (h : Settled occ outcomes strength now s t) :
    (t.updateTurnEvent occ (fun e => { e with committedAt := some committedAt })
      fun _ => rfl).LedgerOk := by
  constructor
  · intro e' he'
    obtain ⟨e, he, rfl⟩ := mem_turnEvents_updateTurnEvent.1 he'
    rw [h.turnEvents] at he
    split
    · rename_i hocc
      exact Or.inr (hopen e he hocc).2
    · exact hs.exclusive e he
  · intro m' hm'
    obtain ⟨m, hm, rfl⟩ := (h.turnMembers m').1 hm'
    obtain ⟨e, he, hocc, hout⟩ := hs.adjudicated m hm
    rw [← h.turnEvents] at he
    refine ⟨_, mem_turnEvents_updateTurnEvent.2 ⟨e, he, rfl⟩, ?_⟩
    by_cases hturn : e.occurrenceId = occ
    · simp [hturn, ← hocc]
    · have hother : m.occurrenceId ≠ occ := fun h => hturn (hocc.trans h)
      simpa [hturn, settleMember, hother] using ⟨hocc, hout⟩

theorem LedgerOk.voided {occ voidedAt : String} (hs : s.LedgerOk) (hopen : s.Open occ) :
    (s.updateTurnEvent occ (fun e => { e with voidedAt := some voidedAt }) fun _ => rfl).LedgerOk := by
  constructor
  · intro e' he'
    obtain ⟨e, he, rfl⟩ := mem_turnEvents_updateTurnEvent.1 he'
    split
    · rename_i hocc
      exact Or.inl (hopen e he hocc).1
    · exact hs.exclusive e he
  · intro m hm
    obtain ⟨e, he, hocc, hout⟩ := hs.adjudicated m hm
    refine ⟨_, mem_turnEvents_updateTurnEvent.2 ⟨e, he, rfl⟩, ?_⟩
    split <;> exact ⟨hocc, hout⟩

theorem LedgerOk.forgotten {key : String} (hs : s.LedgerOk) (h : Forgotten key s s') :
    s'.LedgerOk := by
  constructor
  · intro e he
    exact hs.exclusive e (h.turnEvents ▸ he)
  · intro m hm
    obtain ⟨e, he, hrest⟩ := hs.adjudicated m ((h.turnMembers m).1 hm).1
    exact ⟨e, (h.turnEvents ▸ he : e ∈ s'.turnEvents), hrest⟩

/-- **One call.**  The ledger stays one the calls can have written. -/
theorem LedgerOk.turnStep (hs : s.LedgerOk) (h : TurnStep s c s') : s'.LedgerOk := by
  cases h with
  | unchanged => exact hs
  | recorded h => exact hs.recorded h
  | committed hopen h => exact hs.committed hopen h
  | voided hopen => exact hs.voided hopen
  | forgotten h => exact hs.forgotten h

/-- **One run.** -/
theorem ledgerOk_run (hs : s.LedgerOk) (calls : List TurnCall) :
    (run applyTurn s calls).LedgerOk :=
  run_invariant (fun t c ht => ht.turnStep (turnStep_applyTurn t c)) hs

/-! ## Adjudicated evidence stays -/

/-- What a later state `s` keeps of the turns committed in `t`: the turn, the outcome of each
member whose memory is not forgotten since, and no other outcome but `unreported` for members
delivered since. -/
def KeepsCommitted (t s : Store) : Prop :=
  ∀ e ∈ t.turnEvents, e.committedAt.isSome →
    e ∈ s.turnEvents ∧
    (∀ m ∈ t.turnMembers, m.occurrenceId = e.occurrenceId →
      m ∈ s.turnMembers ∨ ¬ s.HasMemory m.memoryId) ∧
    ∀ m ∈ s.turnMembers, m.occurrenceId = e.occurrenceId →
      m ∈ t.turnMembers ∨ m.outcome = .unreported ∧ ∀ m' ∈ t.turnMembers, m'.pk ≠ m.pk

theorem KeepsCommitted.refl (t : Store) : t.KeepsCommitted t :=
  fun _ he _ => ⟨he, fun _ hm _ => Or.inl hm, fun _ hm _ => Or.inl hm⟩

theorem KeepsCommitted.recorded {t : Store} {d : TurnDelivery} (hk : t.KeepsCommitted s)
    (h : Recorded d.occurrenceId { s with turnEvents := s.turnEvents.insertOrIgnore d.event } s') :
    t.KeepsCommitted s' := by
  intro e he hcom
  obtain ⟨hes, hmembers, hnew⟩ := hk e he hcom
  have hmem : ∀ id, s'.HasMemory id ↔ s.HasMemory id := by
    intro id
    unfold HasMemory
    rw [h.memories]
  refine ⟨?_, fun m hm hocc => ?_, fun m hm hocc => ?_⟩
  · rw [h.turnEvents]
    exact Table.mem_insertOrIgnore_of_mem hes
  · rw [hmem]
    exact (hmembers m hm hocc).imp_left (h.kept m)
  · rcases h.added m hm with hm | ⟨-, hout, hhas, hfresh⟩
    · exact hnew m hm hocc
    · -- a member of `t` in this place would still be there: its memory exists
      refine Or.inr ⟨hout, fun m' hm' hpk => ?_⟩
      have hocc' : m'.occurrenceId = e.occurrenceId := (congrArg Prod.fst hpk).trans hocc
      rcases hmembers m' hm' hocc' with hm's | hgone
      · exact hfresh m' hm's hpk
      · rw [show m'.memoryId = m.memoryId from congrArg Prod.snd hpk] at hgone
        exact hgone hhas

/-- A report leaves the memories there are. -/
theorem Settled.hasMemory_iff {occ : String} {outcomes : List (String × LedgerOutcome)}
    {strength : ℚ} {now : String} {t : Store} (h : Settled occ outcomes strength now s t)
    (id : String) : t.HasMemory id ↔ s.HasMemory id := by
  constructor
  · rintro ⟨r', hr', hid⟩
    obtain ⟨r, hr, rfl⟩ := (h.memories r').1 hr'
    exact ⟨r, hr, by simpa using hid⟩
  · rintro ⟨r, hr, hid⟩
    exact ⟨_, (h.memories _).2 ⟨r, hr, rfl⟩, by simpa using hid⟩

theorem KeepsCommitted.committed {t u : Store} {occ : String}
    {outcomes : List (String × LedgerOutcome)} {strength : ℚ} {now committedAt : String}
    (hk : t.KeepsCommitted s) (hopen : s.Open occ) (h : Settled occ outcomes strength now s u) :
    t.KeepsCommitted (u.updateTurnEvent occ (fun e => { e with committedAt := some committedAt })
      fun _ => rfl) := by
  intro e he hcom
  obtain ⟨hes, hmembers, hnew⟩ := hk e he hcom
  have hother := ne_of_open hopen hes hcom
  have hsame : ∀ m : TurnMemberRow, m.occurrenceId = e.occurrenceId →
      settleMember occ outcomes m = m := by
    intro m hm
    rw [settleMember, if_neg fun h => hother (hm.symm.trans h)]
  refine ⟨?_, fun m hm hocc => ?_, fun m' hm' hocc => ?_⟩
  · rw [← h.turnEvents] at hes
    exact mem_turnEvents_updateTurnEvent.2 ⟨e, hes, if_neg hother⟩
  · refine (hmembers m hm hocc).imp (fun hms => ?_) fun hgone hhas => ?_
    · exact (h.turnMembers m).2 ⟨m, hms, hsame m hocc⟩
    · exact hgone ((h.hasMemory_iff m.memoryId).1 hhas)
  · obtain ⟨m, hm, rfl⟩ := (h.turnMembers m').1 hm'
    rw [occurrenceId_settleMember] at hocc
    rw [hsame m hocc]
    exact hnew m hm hocc

theorem KeepsCommitted.voided {t : Store} {occ voidedAt : String} (hk : t.KeepsCommitted s)
    (hopen : s.Open occ) :
    t.KeepsCommitted (s.updateTurnEvent occ (fun e => { e with voidedAt := some voidedAt })
      fun _ => rfl) := by
  intro e he hcom
  obtain ⟨hes, hkept⟩ := hk e he hcom
  exact ⟨mem_turnEvents_updateTurnEvent.2 ⟨e, hes, if_neg (ne_of_open hopen hes hcom)⟩, hkept⟩

theorem KeepsCommitted.forgotten {t : Store} {key : String} (hk : t.KeepsCommitted s)
    (h : Forgotten key s s') : t.KeepsCommitted s' := by
  intro e he hcom
  obtain ⟨hes, hmembers, hnew⟩ := hk e he hcom
  refine ⟨h.turnEvents ▸ hes, fun m hm hocc => ?_, fun m hm hocc => ?_⟩
  · rcases hmembers m hm hocc with hms | hgone
    · by_cases hforgot : ∀ r ∈ s.memories, r.key = key → r.id ≠ m.memoryId
      · exact Or.inl ((h.turnMembers m).2 ⟨hms, hforgot⟩)
      · -- the member went with the memory it names
        simp only [not_forall, not_not] at hforgot
        obtain ⟨r, hr, hkey, hid⟩ := hforgot
        refine Or.inr ?_
        rintro ⟨r', hr', hid'⟩
        obtain ⟨hr's, hne⟩ := (h.memories r').1 hr'
        exact hne (eq_of_id hr's hr (hid'.trans hid.symm) ▸ hkey)
    · refine Or.inr ?_
      rintro ⟨r, hr, hid⟩
      exact hgone ⟨r, ((h.memories r).1 hr).1, hid⟩
  · exact hnew m ((h.turnMembers m).1 hm).1 hocc

/-- **One call.**  What is kept of committed turns does not change. -/
theorem KeepsCommitted.turnStep {t : Store} (hk : t.KeepsCommitted s) (h : TurnStep s c s') :
    t.KeepsCommitted s' := by
  cases h with
  | unchanged => exact hk
  | recorded h => exact hk.recorded h
  | committed hopen h => exact hk.committed hopen h
  | voided hopen => exact hk.voided hopen
  | forgotten h => exact hk.forgotten h

/-- **One run.** -/
theorem keepsCommitted_run (s : Store) (calls : List TurnCall) :
    s.KeepsCommitted (run applyTurn s calls) :=
  run_invariant (fun t c ht => ht.turnStep (turnStep_applyTurn t c)) (KeepsCommitted.refl s)

theorem committed_applyTurn {occ : String} (h : s.Committed occ) :
    (applyTurn s c).Committed occ := by
  obtain ⟨e, he, hocc, hcom⟩ := h
  have hkept := (KeepsCommitted.refl s).turnStep (turnStep_applyTurn s c) e he hcom
  exact ⟨e, hkept.1, hocc, hcom⟩

end Store

/-! ## Scores -/

/-- The reinforcement a call owes the memory under a key: one, of the strength of the commit,
when the call commits a recorded turn and leaves a member of the key recorded `used`. -/
def TurnCall.feedback (key : String) (s : Store) (c : TurnCall) : List (String × ℚ) :=
  match c.op with
  | .commitTurnOutcomes occurrenceId _ strength _ =>
    if s.Pending occurrenceId ∧ (applyTurn s c).RecordedUsed occurrenceId key then
      [(occurrenceId, strength)]
    else []
  | _ => []

/-- The reinforcements a run owes the memory under a key, by turn. -/
def feedback (key : String) : Store → List TurnCall → List (String × ℚ)
  | _, [] => []
  | s, c :: calls => c.feedback key s ++ feedback key (applyTurn s c) calls

/-- The score after the reinforcements. -/
def rescored (score : ℚ) (owed : List (String × ℚ)) : ℚ :=
  owed.foldl (fun score p => reinforced p.2 score) score

/-- The scores after a run are those of before, reinforced once for every turn the run
committed with a member of the memory recorded `used`. -/
def Store.Explained (s : Store) (calls : List TurnCall) : Prop :=
  ∀ r ∈ (run applyTurn s calls).memories.rows,
    ((feedback r.key s calls).map Prod.fst).Nodup ∧
      ∃ r₀ ∈ s.memories.rows, r₀.id = r.id ∧ r₀.key = r.key ∧
        r.signalScore = rescored r₀.signalScore (feedback r.key s calls)

instance (s : Store) (calls : List TurnCall) : Decidable (s.Explained calls) :=
  inferInstanceAs (Decidable (∀ r ∈ (run applyTurn s calls).memories.rows,
    _ ∧ ∃ r₀ ∈ s.memories.rows, _))

/-- The condition on a commit that takes effect: for every memory the turn delivered, the
report says `used` once when its last word on the key is `used`, and never otherwise. -/
def ReportsOnce (s : Store) (c : TurnCall) : Prop :=
  match c.op with
  | .commitTurnOutcomes occurrenceId outcomes _ _ =>
    s.Pending occurrenceId → ∀ r ∈ s.memories.rows, s.Delivered occurrenceId r.key →
      usedReports outcomes r.key = if lastReport outcomes r.key = some .used then 1 else 0
  | _ => True

instance (s : Store) (c : TurnCall) : Decidable (ReportsOnce s c) := by
  unfold ReportsOnce
  split <;> infer_instance

namespace Store

variable {s s' : Store} {c : TurnCall}

theorem signalScore_iterate_reinforce (strength : ℚ) (now : String) (n : ℕ) (r : MemoryRow) :
    ((MemoryRow.reinforce strength now)^[n] r).signalScore =
      (reinforced strength)^[n] r.signalScore := by
  induction n with
  | zero => rfl
  | succ n ih =>
    rw [Function.iterate_succ_apply', Function.iterate_succ_apply', ← ih]
    rfl

/-- A report leaves `used` on record exactly for the delivered keys it calls so last. -/
theorem recordedUsed_iff {occ key : String} {outcomes : List (String × LedgerOutcome)}
    {strength : ℚ} {now : String} {t : Store} (hs : s.LedgerOk) (hpending : s.Pending occ)
    (h : Settled occ outcomes strength now s t) :
    t.RecordedUsed occ key ↔ s.Delivered occ key ∧ lastReport outcomes key = some .used := by
  obtain ⟨e, he, hocc, hcom, -⟩ := hpending
  constructor
  · rintro ⟨m', hm', hmocc, hkey, hused⟩
    obtain ⟨m, hm, rfl⟩ := (h.turnMembers m').1 hm'
    rw [occurrenceId_settleMember] at hmocc
    rw [memoryKey_settleMember] at hkey
    -- before the commit every outcome of the turn is `unreported`
    obtain ⟨e', he', hocc', hout⟩ := hs.adjudicated m hm
    rw [eq_of_occurrenceId he' he (by rw [hocc', hmocc, hocc]), hcom] at hout
    refine ⟨⟨m, hm, hmocc, hkey⟩, ?_⟩
    cases hlast : lastReport outcomes key <;> simp_all [settleMember]
  · rintro ⟨⟨m, hm, hmocc, hkey⟩, hlast⟩
    refine ⟨settleMember occ outcomes m, (h.turnMembers _).2 ⟨m, hm, rfl⟩, ?_, ?_, ?_⟩
    · simpa using hmocc
    · simpa using hkey
    · simp [settleMember, hmocc, hkey, hlast]

/-- **One call, one reinforcement.**  A memory there is after a call was there before, and its
score is that of before with the reinforcement the call owes it. -/
theorem rescored_turnStep (hs : s.LedgerOk) (hc : ReportsOnce s c) {r' : MemoryRow}
    (hr' : r' ∈ (applyTurn s c).memories) :
    ∃ r ∈ s.memories, r.id = r'.id ∧ r.key = r'.key ∧
      r'.signalScore = rescored r.signalScore (c.feedback r'.key s) := by
  have hstep := turnStep_applyTurn s c
  generalize happly : applyTurn s c = s' at hr' hstep
  cases hstep with
  | unchanged hnot =>
    have hnone : c.feedback r'.key s = [] := by
      unfold TurnCall.feedback
      split
      · rename_i occ outcomes strength committedAt hop
        rw [if_neg fun h => hnot occ outcomes strength committedAt hop h.1]
      · rfl
    exact ⟨r', hr', rfl, rfl, by rw [hnone]; rfl⟩
  | recorded h =>
    rw [h.memories] at hr'
    exact ⟨r', hr', rfl, rfl, rfl⟩
  | @committed occ outcomes strength committedAt now t hopen h =>
    obtain ⟨r, hr, rfl⟩ := (h.memories r').1 hr'
    refine ⟨r, hr, by simp, by simp, ?_⟩
    rw [settleMemory, signalScore_iterate_reinforce, key_iterate_reinforce]
    unfold TurnCall.feedback
    dsimp only
    rw [happly]
    by_cases hpending : s.Pending occ
    · have hrec : t.RecordedUsed occ r.key ↔
          s.Delivered occ r.key ∧ lastReport outcomes r.key = some .used :=
        recordedUsed_iff hs hpending h
      have hused : (t.updateTurnEvent occ (fun e => { e with committedAt := some committedAt })
          fun _ => rfl).RecordedUsed occ r.key ↔
          s.Delivered occ r.key ∧ lastReport outcomes r.key = some .used := hrec
      by_cases hdel : s.Delivered occ r.key
      · have honce := hc hpending r hr hdel
        by_cases hlast : lastReport outcomes r.key = some .used <;>
          simp [hused, hdel, hlast, hpending, honce, rescored]
      · simp [hused, hdel, rescored]
    · -- no turn of this id is recorded, so none of its members are
      have hnot : ¬ s.Delivered occ r.key := by
        rintro ⟨m, hm, hocc, -⟩
        obtain ⟨e, he, hocc', -⟩ := hs.adjudicated m hm
        have hturn := hocc'.trans hocc
        exact hpending ⟨e, he, hturn, hopen e he hturn⟩
      simp [hnot, hpending, rescored]
  | voided => exact ⟨r', hr', rfl, rfl, rfl⟩
  | forgotten h =>
    exact ⟨r', ((h.memories r').1 hr').1, rfl, rfl, rfl⟩

/-- A call that owes a reinforcement for a turn commits that turn, which was pending. -/
theorem mem_feedback {key : String} {p : String × ℚ} (hp : p ∈ c.feedback key s) :
    s.Pending p.1 ∧ (applyTurn s c).Committed p.1 := by
  have hstep := turnStep_applyTurn s c
  unfold TurnCall.feedback at hp
  split at hp
  · rename_i occ outcomes strength committedAt hop
    split at hp
    · rename_i h
      obtain ⟨hpending, -⟩ := h
      rw [List.mem_singleton] at hp
      subst hp
      refine ⟨hpending, ?_⟩
      generalize applyTurn s c = s' at hstep ⊢
      cases hstep with
      | unchanged hnot => exact absurd hpending (hnot _ _ _ _ hop)
      | committed hopen h =>
        cases hop
        obtain ⟨e, he, hocc, -⟩ := hpending
        have het : e ∈ _ := h.turnEvents ▸ he
        exact ⟨_, mem_turnEvents_updateTurnEvent.2 ⟨e, het, rfl⟩, by simp [hocc]⟩
      | _ => cases hop
    · simp at hp
  · simp at hp

/-- The turns of a run's reinforcements are committed by the run, not before. -/
theorem not_committed_of_mem_feedback {key : String} {calls : List TurnCall} {p : String × ℚ}
    (hp : p ∈ feedback key s calls) : ¬ s.Committed p.1 := by
  induction calls generalizing s with
  | nil => simp [feedback] at hp
  | cons c calls ih =>
    rcases List.mem_append.1 hp with hp | hp
    · exact not_committed_of_pending (mem_feedback hp).1
    · exact fun h => ih hp (committed_applyTurn h)

/-- A turn gives a memory one reinforcement at most. -/
theorem nodup_feedback (key : String) (s : Store) (calls : List TurnCall) :
    ((feedback key s calls).map Prod.fst).Nodup := by
  induction calls generalizing s with
  | nil => simp [feedback]
  | cons c calls ih =>
    rw [feedback, List.map_append, List.nodup_append]
    refine ⟨?_, ih _, ?_⟩
    · unfold TurnCall.feedback
      split
      · split <;> simp
      · simp
    · simp only [List.mem_map]
      rintro _ ⟨p, hp, rfl⟩ _ ⟨q, hq, rfl⟩ heq
      exact not_committed_of_mem_feedback hq (heq ▸ (mem_feedback hp).2)

/-- **One run.**  The scores follow the ledger. -/
theorem explained_of_allSteps (hs : s.LedgerOk) {calls : List TurnCall}
    (hok : AllSteps applyTurn ReportsOnce s calls) : s.Explained calls := by
  intro r hr
  refine ⟨nodup_feedback r.key s calls, ?_⟩
  induction calls generalizing s with
  | nil => exact ⟨r, hr, rfl, rfl, rfl⟩
  | cons c calls ih =>
    have hledger := hs.turnStep (turnStep_applyTurn s c)
    obtain ⟨r₁, hr₁, hid₁, hkey₁, hscore₁⟩ := ih hledger hok.2 hr
    obtain ⟨r₀, hr₀, hid₀, hkey₀, hscore₀⟩ := rescored_turnStep hs hok.1 hr₁
    refine ⟨r₀, hr₀, hid₀.trans hid₁, hkey₀.trans hkey₁, ?_⟩
    rw [hscore₁, hscore₀, hkey₁, feedback, rescored, rescored, rescored, List.foldl_append]

end Store

/-- **The turn ledger over a run.**  From any ledger the calls can have written, after any
deliveries, commits, voids and forgets: no turn is both committed and voided; what was on
record for a turn when it was committed still is; and, when every commit that takes effect
reports `used` once for the memories it leaves so, every score is explained by the ledger. -/
theorem turn_ledger (s : Store) (hs : s.LedgerOk) (calls : List TurnCall) :
    (∀ e ∈ (run applyTurn s calls).turnEvents, e.committedAt = none ∨ e.voidedAt = none) ∧
      (∀ past later, calls = past ++ later →
        (run applyTurn s past).KeepsCommitted (run applyTurn s calls)) ∧
      (AllSteps applyTurn ReportsOnce s calls → s.Explained calls) := by
  refine ⟨(Store.ledgerOk_run hs calls).exclusive, ?_, Store.explained_of_allSteps hs⟩
  rintro past later rfl
  rw [run_append]
  exact Store.keepsCommitted_run _ later

/-- A store with one memory and an empty ledger. -/
def ledgerStore : Store :=
  { memories := Table.empty.insertOrIgnore
      { id := "a1", key := "note", content := "ship on monday",
        createdAt := "2026-01-01 09:00:00", updatedAt := "2026-01-01 09:00:00" } }

/-- The delivery of the memory in a turn. -/
def deliverNote (occurrenceId : String) : TurnCall :=
  ⟨.recordTurnDelivery
    { occurrenceId, deliveryDigest := "d", policy := "default",
      deliveredAt := "2026-01-02 10:00:00", members := [(0, "a1", "note")] },
    "2026-01-02 10:00:00"⟩

/-- The commit of a turn with the given report on the memory. -/
def commitNote (occurrenceId : String) (reports : List LedgerOutcome) : TurnCall :=
  ⟨.commitTurnOutcomes occurrenceId (reports.map fun out => ("note", out)) (1 / 10)
    "2026-01-02 11:00:00", "2026-01-02 11:00:00"⟩

/-- Two turns, one used and one ignored, the first committed twice. -/
def adjudicatedCalls : List TurnCall :=
  [deliverNote "turn-1", commitNote "turn-1" [.used], deliverNote "turn-2",
    commitNote "turn-1" [.used], commitNote "turn-2" [.ignored]]

theorem turn_ledger_note :
    AllSteps applyTurn ReportsOnce ledgerStore adjudicatedCalls ∧
      ledgerStore.Explained adjudicatedCalls := by
  have hledger : ledgerStore.LedgerOk := ⟨by decide +kernel, by decide +kernel⟩
  have honce : AllSteps applyTurn ReportsOnce ledgerStore adjudicatedCalls := by decide +kernel
  exact ⟨honce, (turn_ledger ledgerStore hledger adjudicatedCalls).2.2 honce⟩

/-- A report that says `used` and then `ignored` of one key: the ledger has `ignored`, the
score went up. -/
theorem unexplained_note :
    let calls := [deliverNote "turn-1", commitNote "turn-1" [.used, .ignored]]
    ¬ ledgerStore.Explained calls ∧
      (∀ m ∈ (run applyTurn ledgerStore calls).turnMembers.rows, m.outcome = .ignored) ∧
      ∃ r ∈ (run applyTurn ledgerStore calls).memories.rows, r.signalScore = 1 / 2 + 1 / 10 := by
  decide +kernel

end Spectral
