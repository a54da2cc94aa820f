import Mathlib.Data.List.MinMax
import Spectral.Lib.HashMap
import Spectral.Lib.Ranking
import Spectral.Turn.Evidence

/-!
# What the ledger says of each memory

`memory_outcome_evidence` adds up, for each memory, the turns that delivered it and what the callers
made of it.  A turn that was voided is left out.

* `memoryOutcomeEvidence` — the query.
* `evidence_exact` — after any run it counts turns, and what was used, wrong or ignored was so in a
  turn that was committed.
-/

namespace Spectral

open Spectral.Lib

/-- `MemoryOutcomeEvidence`. -/
structure MemoryOutcomeEvidence where
  memoryId : String
  memoryKey : String
  delivered : ℕ
  used : ℕ
  wrong : ℕ
  ignored : ℕ
  unreported : ℕ
  bestRank : Option ℕ
  deriving DecidableEq

/-- `delivered_never_used`. -/
def MemoryOutcomeEvidence.deliveredNeverUsed (e : MemoryOutcomeEvidence) (minDeliveries : ℕ) : Bool :=
  minDeliveries ≤ e.delivered && e.used == 0

/-- What `ORDER BY delivered DESC, memory_id ASC` sorts by. -/
def MemoryOutcomeEvidence.Before (a b : MemoryOutcomeEvidence) : Prop :=
  b.delivered < a.delivered ∨ a.delivered = b.delivered ∧ a.memoryId ≤ b.memoryId

instance : DecidableRel MemoryOutcomeEvidence.Before :=
  fun _ _ => inferInstanceAs (Decidable (_ ∨ _))

/-- What `GROUP BY m.memory_id, m.memory_key` groups by. -/
abbrev TurnMemberRow.memory (m : TurnMemberRow) : String × String := (m.memoryId, m.memoryKey)

/-- The aggregates of a group. -/
def evidenceOf (memory : String × String) (group : List TurnMemberRow) : MemoryOutcomeEvidence where
  memoryId := memory.1
  memoryKey := memory.2
  delivered := group.length
  used := group.countP fun m => m.outcome = .used
  wrong := group.countP fun m => m.outcome = .wrong
  ignored := group.countP fun m => m.outcome = .ignored
  unreported := group.countP fun m => m.outcome = .unreported
  bestRank := (group.map TurnMemberRow.rank).min?

namespace Store

variable (s : Store)

/-- The members, joined with their turns, without those of voided turns. -/
def exposures : List TurnMemberRow :=
  s.turnMembers.rows.flatMap fun m =>
    (s.turnEvents.rows.filter fun e => e.occurrenceId = m.occurrenceId ∧ e.voidedAt = none).map
      fun _ => m

/-- The members of a group. -/
def exposuresOf (memory : String × String) : List TurnMemberRow :=
  s.exposures.filter fun m => m.memory = memory

/-- `memory_outcome_evidence`.  SQLite goes through the groups in some order, which is what decides
where `ORDER BY` does not. -/
def memoryOutcomeEvidence (o : Shuffle (String × String)) (limit : ℕ) : List MemoryOutcomeEvidence :=
  sqlLimit limit
    (((o.run (s.exposures.map TurnMemberRow.memory).dedup).map fun memory =>
      evidenceOf memory (s.exposuresOf memory)).insertionSort MemoryOutcomeEvidence.Before)

/-- How many turns there are with a property that were not voided, and delivered a memory as a member
with another. -/
def turnsWith (p : TurnEventRow → Bool) (q : TurnMemberRow → Bool) (memory : String × String) : ℕ :=
  s.turnEvents.countWhere fun e => e.voidedAt = none ∧ p e ∧
    ∃ m ∈ s.turnMembers.rows, m.occurrenceId = e.occurrenceId ∧ m.memory = memory ∧ q m

/-- The members are of memories that are stored. -/
def MembersStored : Prop := ∀ m ∈ s.turnMembers, s.HasMemory m.memoryId

variable {s} {s' : Store} {c : TurnCall}

/-! ## Members and their turns -/

theorem flatMap_eq_filter {α : Type} {f : α → List α} {p : α → Bool}
    (h : ∀ a, f a = if p a then [a] else []) (l : List α) : l.flatMap f = l.filter p := by
  induction l with
  | nil => rfl
  | cons a l ih =>
    rw [List.flatMap_cons, h, ih]
    cases hp : p a with
    | true => rw [List.filter_cons_of_pos hp]; rfl
    | false => rw [List.filter_cons_of_neg (by simp [hp])]; rfl

/-- A turn is recorded once, so a member is joined with one row at most. -/
theorem exposures_eq (s : Store) :
    s.exposures = s.turnMembers.rows.filter fun m =>
      ∃ e ∈ s.turnEvents.rows, e.occurrenceId = m.occurrenceId ∧ e.voidedAt = none := by
  refine flatMap_eq_filter (fun m => ?_) _
  by_cases h : ∃ e ∈ s.turnEvents.rows, e.occurrenceId = m.occurrenceId ∧ e.voidedAt = none
  · obtain ⟨e, he, hocc, hvoid⟩ := h
    have hone : (s.turnEvents.rows.filter fun e => e.occurrenceId = m.occurrenceId ∧
        e.voidedAt = none).Perm [e] := by
      refine (List.perm_ext_iff_of_nodup (s.turnEvents.nodup_rows.filter _)
        (List.nodup_singleton e)).2 fun e' => ?_
      rw [List.mem_filter, decide_eq_true_iff, List.mem_singleton]
      constructor
      · exact fun ⟨he', hocc', _⟩ => eq_of_occurrenceId he' he (hocc'.trans hocc.symm)
      · rintro rfl
        exact ⟨he, hocc, hvoid⟩
    rw [List.perm_singleton.1 hone, if_pos (decide_eq_true ⟨e, he, hocc, hvoid⟩)]
    rfl
  · have hnone : (s.turnEvents.rows.filter fun e => e.occurrenceId = m.occurrenceId ∧
        e.voidedAt = none) = [] :=
      List.filter_eq_nil_iff.2 fun e he hboth => h ⟨e, he, of_decide_eq_true hboth⟩
    rw [hnone, if_neg (by simpa using h)]
    rfl

theorem mem_exposures {m : TurnMemberRow} :
    m ∈ s.exposures ↔ m ∈ s.turnMembers ∧
      ∃ e ∈ s.turnEvents, e.occurrenceId = m.occurrenceId ∧ e.voidedAt = none := by
  rw [exposures_eq, List.mem_filter, decide_eq_true_iff]
  rfl

theorem mem_exposuresOf {memory : String × String} {m : TurnMemberRow} :
    m ∈ s.exposuresOf memory ↔ m ∈ s.exposures ∧ m.memory = memory := by
  rw [exposuresOf, List.mem_filter, decide_eq_true_iff]

/-- The members of a group are of different turns. -/
theorem nodup_occurrenceId_exposuresOf (s : Store) (memory : String × String) :
    ((s.exposuresOf memory).map TurnMemberRow.occurrenceId).Nodup := by
  refine List.pairwise_map.2 ?_
  have hkeys : s.exposures.Pairwise fun a b => a.pk ≠ b.pk := by
    rw [exposures_eq]
    exact s.turnMembers.unique.sublist List.filter_sublist
  refine (hkeys.sublist List.filter_sublist).imp_of_mem fun ha hb hne hocc => hne ?_
  have hmem := (mem_exposuresOf.1 ha).2.trans (mem_exposuresOf.1 hb).2.symm
  exact Prod.ext hocc (congrArg Prod.fst hmem)

/-- **A group counts turns.** -/
theorem countP_exposuresOf (s : Store) (memory : String × String) (q : TurnMemberRow → Bool) :
    (s.exposuresOf memory).countP q = s.turnsWith (fun _ => true) q memory := by
  have hmembers : (((s.exposuresOf memory).filter q).map TurnMemberRow.occurrenceId).Nodup :=
    (nodup_occurrenceId_exposuresOf s memory).sublist (List.filter_sublist.map _)
  set delivering : TurnEventRow → Bool := fun e => decide (e.voidedAt = none ∧ true ∧
    ∃ m ∈ s.turnMembers.rows, m.occurrenceId = e.occurrenceId ∧ m.memory = memory ∧ q m)
  have hturns : ((s.turnEvents.rows.filter delivering).map TurnEventRow.occurrenceId).Nodup :=
    (List.pairwise_map.2 s.turnEvents.unique).sublist (List.filter_sublist.map _)
  have hperm := (List.perm_ext_iff_of_nodup hmembers hturns).2 fun occ => by
    simp only [delivering, List.mem_map, List.mem_filter, mem_exposuresOf, mem_exposures,
      decide_eq_true_iff, true_and]
    constructor
    · rintro ⟨m, ⟨⟨⟨hm, e, he, hocc, hvoid⟩, hmemory⟩, hq⟩, rfl⟩
      exact ⟨e, ⟨he, hvoid, m, hm, hocc.symm, hmemory, hq⟩, hocc⟩
    · rintro ⟨e, ⟨he, hvoid, m, hm, hocc, hmemory, hq⟩, rfl⟩
      exact ⟨m, ⟨⟨⟨hm, e, he, hocc.symm, hvoid⟩, hmemory⟩, hq⟩, hocc⟩
  have hlength := hperm.length_eq
  rw [List.length_map, List.length_map, ← List.countP_eq_length_filter,
    ← List.countP_eq_length_filter] at hlength
  exact hlength

/-! ## Rows of the answer -/

/-- Every member has one of the four outcomes. -/
theorem length_eq_outcomes (group : List TurnMemberRow) :
    group.length = group.countP (fun m => m.outcome = .used) +
      group.countP (fun m => m.outcome = .wrong) + group.countP (fun m => m.outcome = .ignored) +
        group.countP fun m => m.outcome = .unreported := by
  induction group with
  | nil => rfl
  | cons m group ih =>
    simp only [List.length_cons, List.countP_cons, ih]
    cases m.outcome <;> simp <;> omega

/-- In a ledger the calls can have written, what is adjudicated is so in a committed turn. -/
theorem LedgerOk.turnsWith_committed (hs : s.LedgerOk) {out : LedgerOutcome}
    (hout : out ≠ .unreported) (memory : String × String) :
    s.turnsWith (fun _ => true) (fun m => m.outcome = out) memory =
      s.turnsWith (fun e => e.committedAt.isSome) (fun m => m.outcome = out) memory := by
  refine List.countP_congr fun e he => ?_
  simp only [decide_eq_true_iff, true_and]
  refine and_congr_right fun _ => (and_iff_right_of_imp ?_).symm
  rintro ⟨m, hm, hocc, -, hm_out⟩
  obtain ⟨e', he', hocc', hun | hcom⟩ := hs.adjudicated m hm
  · exact absurd (hm_out.symm.trans hun) hout
  · rwa [eq_of_occurrenceId he' he (hocc'.trans hocc)] at hcom

/-- What a row of the answer says of the ledger. -/
structure Accounts (t : Store) (e : MemoryOutcomeEvidence) : Prop where
  stored : t.HasMemory e.memoryId
  exposed : 0 < e.delivered
  delivered : e.delivered = t.turnsWith (fun _ => true) (fun _ => true) (e.memoryId, e.memoryKey)
  used : e.used = t.turnsWith (fun e => e.committedAt.isSome) (fun m => m.outcome = .used)
    (e.memoryId, e.memoryKey)
  wrong : e.wrong = t.turnsWith (fun e => e.committedAt.isSome) (fun m => m.outcome = .wrong)
    (e.memoryId, e.memoryKey)
  ignored : e.ignored = t.turnsWith (fun e => e.committedAt.isSome) (fun m => m.outcome = .ignored)
    (e.memoryId, e.memoryKey)
  all : e.delivered = e.used + e.wrong + e.ignored + e.unreported
  bestRank : ∃ m ∈ t.exposuresOf (e.memoryId, e.memoryKey), e.bestRank = some m.rank ∧
    ∀ m' ∈ t.exposuresOf (e.memoryId, e.memoryKey), m.rank ≤ m'.rank

theorem accounts_evidenceOf (hs : s.LedgerOk) (hstored : s.MembersStored) {m : TurnMemberRow}
    (hm : m ∈ s.exposures) : s.Accounts (evidenceOf m.memory (s.exposuresOf m.memory)) := by
  have hgroup : m ∈ s.exposuresOf m.memory := mem_exposuresOf.2 ⟨hm, rfl⟩
  have hadjudicated : ∀ out : LedgerOutcome, out ≠ .unreported →
      (s.exposuresOf m.memory).countP (fun m => m.outcome = out) =
        s.turnsWith (fun e => e.committedAt.isSome) (fun m => m.outcome = out) m.memory :=
    fun out hout => (countP_exposuresOf s m.memory _).trans (hs.turnsWith_committed hout m.memory)
  refine ⟨hstored m (mem_exposures.1 hm).1, List.length_pos_of_mem hgroup, ?_,
    hadjudicated .used (by decide), hadjudicated .wrong (by decide),
    hadjudicated .ignored (by decide), length_eq_outcomes _, ?_⟩
  · rw [← countP_exposuresOf]
    exact (congrFun List.countP_true _).symm
  · cases hmin : ((s.exposuresOf m.memory).map TurnMemberRow.rank).min? with
    | none =>
      rw [List.min?_eq_none_iff, List.map_eq_nil_iff] at hmin
      rw [hmin] at hgroup
      exact absurd hgroup List.not_mem_nil
    | some rank =>
      obtain ⟨hmem, hle⟩ := List.min?_eq_some_iff.1 hmin
      obtain ⟨best, hbest, rfl⟩ := List.mem_map.1 hmem
      exact ⟨best, hbest, hmin, fun m' hm' => hle _ (List.mem_map_of_mem hm')⟩

theorem mem_memoryOutcomeEvidence {o : Shuffle (String × String)} {limit : ℕ}
    {e : MemoryOutcomeEvidence} (he : e ∈ s.memoryOutcomeEvidence o limit) :
    ∃ m ∈ s.exposures, evidenceOf m.memory (s.exposuresOf m.memory) = e := by
  have hmem := (List.mem_insertionSort _).1 (mem_of_mem_sqlLimit he)
  obtain ⟨memory, hgroup, rfl⟩ := List.mem_map.1 hmem
  obtain ⟨m, hm, rfl⟩ := List.mem_map.1 (List.mem_dedup.1 ((o.perm _).mem_iff.1 hgroup))
  exact ⟨m, hm, rfl⟩

/-- A group is listed, unless the list is full. -/
theorem listed_or_full (o : Shuffle (String × String)) (limit : ℕ) {m : TurnMemberRow}
    (hm : m ∈ s.exposures) :
    evidenceOf m.memory (s.exposuresOf m.memory) ∈ s.memoryOutcomeEvidence o limit ∨
      limit ≤ (s.memoryOutcomeEvidence o limit).length := by
  by_cases hfull : limit ≤ (s.memoryOutcomeEvidence o limit).length
  · exact Or.inr hfull
  · refine Or.inl ?_
    have hroom := (length_sqlLimit_lt_iff limit _).1 (not_le.1 hfull)
    rw [memoryOutcomeEvidence, sqlLimit_eq_self hroom, List.mem_insertionSort]
    refine List.mem_map_of_mem ((o.perm _).mem_iff.2 (List.mem_dedup.2 ?_))
    exact List.mem_map_of_mem hm

theorem pairwise_memoryOutcomeEvidence (s : Store) (o : Shuffle (String × String)) (limit : ℕ) :
    (s.memoryOutcomeEvidence o limit).Pairwise fun a b =>
      a.Before b ∧ (a.memoryId, a.memoryKey) ≠ (b.memoryId, b.memoryKey) := by
  have htotal : Std.Total MemoryOutcomeEvidence.Before :=
    total_then MemoryOutcomeEvidence.delivered (total_key MemoryOutcomeEvidence.memoryId)
  have htrans : IsTrans MemoryOutcomeEvidence MemoryOutcomeEvidence.Before :=
    isTrans_then MemoryOutcomeEvidence.delivered (isTrans_key MemoryOutcomeEvidence.memoryId)
  set rows := (o.run (s.exposures.map TurnMemberRow.memory).dedup).map fun memory =>
    evidenceOf memory (s.exposuresOf memory) with hrows
  have hdistinct : rows.Pairwise fun a b =>
      (a.memoryId, a.memoryKey) ≠ (b.memoryId, b.memoryKey) := by
    rw [hrows, List.pairwise_map]
    exact (o.perm _).nodup_iff.2 (List.nodup_dedup _)
  have hboth := (List.pairwise_insertionSort MemoryOutcomeEvidence.Before rows).and
    ((List.perm_insertionSort _ rows).symm.pairwise hdistinct fun h => h.symm)
  show (sqlLimit limit (rows.insertionSort MemoryOutcomeEvidence.Before)).Pairwise _
  unfold sqlLimit
  split
  · exact hboth.sublist (List.take_sublist _ _)
  · exact hboth

/-! ## Every run -/

theorem memoryId_settleMember (occurrenceId : String) (outcomes : List (String × LedgerOutcome))
    (m : TurnMemberRow) : (settleMember occurrenceId outcomes m).memoryId = m.memoryId := by
  unfold settleMember
  split <;> rfl

theorem MembersStored.turnStep (hs : s.MembersStored) (h : TurnStep s c s') : s'.MembersStored := by
  intro m' hm'
  cases h with
  | unchanged => exact hs m' hm'
  | recorded h =>
    unfold HasMemory
    rw [h.memories]
    exact (h.added m' hm').elim (hs m') fun hnew => hnew.2.2.1
  | committed hopen h =>
    obtain ⟨m, hm, rfl⟩ := (h.turnMembers m').1 hm'
    rw [memoryId_settleMember]
    exact (h.hasMemory_iff _).2 (hs m hm)
  | voided => exact hs m' hm'
  | forgotten h =>
    obtain ⟨hm, hkept⟩ := (h.turnMembers m').1 hm'
    obtain ⟨r, hr, hid⟩ := hs m' hm
    exact ⟨r, (h.memories r).2 ⟨hr, fun hkey => hkept r hr hkey hid⟩, hid⟩

theorem membersStored_run (hs : s.MembersStored) (calls : List TurnCall) :
    (run applyTurn s calls).MembersStored :=
  run_invariant (fun t c ht => ht.turnStep (turnStep_applyTurn t c)) hs

/-- **The answer after any run.**  Each row is of a memory that is stored and counts the turns that
delivered it and were not voided; what it says was used, wrong or ignored was so in a turn that was
committed, and the rest was not reported.  The rows are in order, each memory has one, and none is
missing unless the list is full. -/
theorem evidence_exact (s : Store) (hs : s.LedgerOk) (hstored : s.MembersStored)
    (calls : List TurnCall) (o : Shuffle (String × String)) (limit : ℕ) :
    let t := run applyTurn s calls
    (∀ e ∈ t.memoryOutcomeEvidence o limit, t.Accounts e) ∧
      ((t.memoryOutcomeEvidence o limit).Pairwise fun a b =>
        a.Before b ∧ (a.memoryId, a.memoryKey) ≠ (b.memoryId, b.memoryKey)) ∧
      ∀ m ∈ t.turnMembers, ∀ e ∈ t.turnEvents, e.occurrenceId = m.occurrenceId → e.voidedAt = none →
        (∃ row ∈ t.memoryOutcomeEvidence o limit,
          (row.memoryId, row.memoryKey) = (m.memoryId, m.memoryKey)) ∨
            limit ≤ (t.memoryOutcomeEvidence o limit).length := by
  intro t
  refine ⟨fun e he => ?_, pairwise_memoryOutcomeEvidence t o limit, fun m hm e he hocc hvoid => ?_⟩
  · obtain ⟨m, hm, rfl⟩ := mem_memoryOutcomeEvidence he
    exact accounts_evidenceOf (ledgerOk_run hs calls) (membersStored_run hstored calls) hm
  · have hexposed : m ∈ t.exposures := mem_exposures.2 ⟨hm, e, he, hocc, hvoid⟩
    exact (listed_or_full o limit hexposed).imp_left fun hlisted => ⟨_, hlisted, rfl⟩

end Store

/-- The turn of a note that was used, and one that ignored it. -/
theorem evidence_exact_note :
    (run applyTurn ledgerStore adjudicatedCalls).memoryOutcomeEvidence .inOrder 5 =
        [⟨"a1", "note", 2, 1, 0, 1, 0, some 0⟩] ∧
      (run applyTurn ledgerStore adjudicatedCalls).Accounts ⟨"a1", "note", 2, 1, 0, 1, 0, some 0⟩ := by
  have hledger : ledgerStore.LedgerOk := ⟨by decide +kernel, by decide +kernel⟩
  have hstored : ledgerStore.MembersStored := fun m hm => absurd hm List.not_mem_nil
  have hlist : (run applyTurn ledgerStore adjudicatedCalls).memoryOutcomeEvidence .inOrder 5 =
      [⟨"a1", "note", 2, 1, 0, 1, 0, some 0⟩] := by decide +kernel
  refine ⟨hlist, (Store.evidence_exact ledgerStore hledger hstored adjudicatedCalls .inOrder 5).1 _ ?_⟩
  rw [hlist]
  exact List.mem_singleton_self _

end Spectral
