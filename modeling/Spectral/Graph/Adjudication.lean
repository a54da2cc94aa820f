import Spectral.Graph.Staleness

/-!
# Adjudication

A pass asks an adjudicator about each candidate and retires what its verdict supersedes, if the verdict
keeps an object of the candidate and clears the threshold.  Confidences are floats: a comparison with
one that is not a number is false.

* `applyAdjudications` — the pass, with its report.
* `Judged` — the invariant of the loop: which rows are live, and what the report has counted;
  `judged_adjudicateOne` is one candidate.
* `exists_applyAdjudications` — over a brain that can be written to, the pass returns.
* `Accountable` — what a pass is meant to be: the report adds up, slots only lose objects, none is
  emptied, and a verdict that clears the threshold stands behind every loss.
* `adjudications_accountable_iff` — it is that exactly if no verdict whose confidence is not a number
  retires anything.
-/

namespace Spectral

open Spectral.Lib

/-- An `f64`, as far as it is compared. -/
inductive F64 where
  | nan
  | negInf
  | finite (q : ℚ)
  | posInf
  deriving DecidableEq

namespace F64

/-- `<`: false when either side is not a number. -/
def lt : F64 → F64 → Bool
  | .nan, _ | _, .nan => false
  | .finite a, .finite b => decide (a < b)
  | .negInf, .negInf | .posInf, .posInf => false
  | .negInf, _ | _, .posInf => true
  | .posInf, _ | _, .negInf => false

/-- `>=`: false when either side is not a number. -/
def ge (x y : F64) : Bool := decide (x ≠ .nan) && decide (y ≠ .nan) && !x.lt y

/-- Of numbers, those that are not less are at least as great. -/
theorem ge_finite_iff {x : F64} {q : ℚ} :
    x.ge (.finite q) = true ↔ x.lt (.finite q) = false ∧ x ≠ .nan := by
  cases x <;> simp [ge, lt]

end F64

/-- `Adjudication`. -/
inductive Adjudication where
  | allHold
  | supersedes (keep : EntityId) (confidence : F64)
  | unknown

/-- `SupersessionReport`. -/
structure SupersessionReport where
  considered : ℕ := 0
  applied : ℕ := 0
  retired : ℕ := 0
  belowThreshold : ℕ := 0
  leftAlone : ℕ := 0
  invalidVerdicts : ℕ := 0
  errors : List String := []
  deriving DecidableEq

/-- What a pass is called with: the adjudicator, which is asked about each candidate once, the time it
is asked at, the threshold, and the agent that retirements are attributed to. -/
structure AdjudicationPass (ι : Type) where
  adjudicate : SupersessionCandidate ι → Except String Adjudication
  now : SupersessionCandidate ι → ι
  minConfidence : F64
  agent : String

section

variable {ι : Type} [LinearOrder ι] (clock : Clock ι)

namespace AssertingBrain

variable (b : AssertingBrain ι) (pass : AdjudicationPass ι)

/-- `Brain::retire_conflicting_objects`. -/
def retireConflictingObjects (g : GraphStore ι) (c : SupersessionCandidate ι) (keep : EntityId) :
    Except AssertError (GraphStore ι × ℕ) :=
  if b.readOnly = true then .error (.readOnly "retire_conflicting_objects")
  else .ok (g.retireConflictingObjects clock c.slot.subject c.slot.predicate keep pass.agent
    (pass.now c))

/-- One turn of the loop. -/
def adjudicateOne (acc : GraphStore ι × SupersessionReport) (c : SupersessionCandidate ι) :
    Except AssertError (GraphStore ι × SupersessionReport) :=
  let (g, report) := acc
  match pass.adjudicate c with
  | .error e =>
    .ok (g, { report with errors := report.errors ++
      [s!"{c.subjectCanonical}/{c.slot.predicate}: {e}"] })
  | .ok .allHold | .ok .unknown => .ok (g, { report with leftAlone := report.leftAlone + 1 })
  | .ok (.supersedes keep confidence) =>
    if ¬ ∃ o ∈ c.objects, o.object = keep then
      .ok (g, { report with invalidVerdicts := report.invalidVerdicts + 1 })
    else if confidence.lt pass.minConfidence = true then
      .ok (g, { report with belowThreshold := report.belowThreshold + 1 })
    else do
      let (g, retired) ← b.retireConflictingObjects clock pass g c keep
      .ok (g, { report with applied := report.applied + 1, retired := report.retired + retired })

/-- `apply_adjudications`. -/
def applyAdjudications (limit : ℕ) : Except AssertError (GraphStore ι × SupersessionReport) :=
  let candidates := b.detectCandidates clock limit
  candidates.foldlM (b.adjudicateOne clock pass) (b.store, { considered := candidates.length })

end AssertingBrain

end

/-! ## One candidate -/

section

variable {ι : Type}

namespace AdjudicationPass

variable (pass : AdjudicationPass ι) (c : SupersessionCandidate ι)

/-- The object that the verdict about the candidate keeps, if it gets past the gates: it is one of the
candidate's, and the confidence is not below the threshold. -/
def keeps : Option EntityId :=
  match pass.adjudicate c with
  | .ok (.supersedes keep confidence) =>
    if (∃ o ∈ c.objects, o.object = keep) ∧ confidence.lt pass.minConfidence = false then some keep
    else none
  | _ => none

/-- The verdict about the candidate retires the row. -/
def Condemns (r : TripleRow ι) : Prop :=
  ∃ keep ∈ pass.keeps c, GraphStore.Contradicts c.slot.subject c.slot.predicate keep r

instance (r : TripleRow ι) : Decidable (pass.Condemns c r) :=
  inferInstanceAs (Decidable (∃ keep ∈ pass.keeps c, _))

variable {pass c}

theorem keeps_eq_some {keep : EntityId} : pass.keeps c = some keep ↔
    ∃ confidence, pass.adjudicate c = .ok (.supersedes keep confidence) ∧
      (∃ o ∈ c.objects, o.object = keep) ∧ confidence.lt pass.minConfidence = false := by
  unfold keeps
  constructor
  · intro h
    split at h
    · rename_i keep' confidence hverdict
      split at h
      · rename_i hgates
        cases h
        exact ⟨confidence, hverdict, hgates⟩
      · cases h
    · cases h
  · rintro ⟨confidence, hverdict, hgates⟩
    rw [hverdict]
    exact if_pos hgates

theorem Condemns.slot_eq {r : TripleRow ι} (h : pass.Condemns c r) : r.triple.slot = c.slot := by
  obtain ⟨keep, -, hc⟩ := h
  exact Triple.slot_eq_iff.2 hc.1

end AdjudicationPass

/-- A row after the verdicts about some candidates: the same triple, and live if it was and none of them
retires it. -/
structure AfterVerdicts (pass : AdjudicationPass ι) (asked : List (SupersessionCandidate ι))
    (f : TripleRow ι → TripleRow ι) : Prop where
  triple : ∀ r, (f r).triple = r.triple
  live : ∀ r, (f r).Live ↔ r.Live ∧ ∀ c ∈ asked, ¬ pass.Condemns c r

/-- The rows of `g₀` have been through the verdicts about the candidates `asked` so far; the report has
counted these verdicts and the rows they retire. -/
structure Judged (pass : AdjudicationPass ι) (g₀ : GraphStore ι)
    (asked : List (SupersessionCandidate ι)) (acc : GraphStore ι × SupersessionReport) : Prop where
  rows : ∃ f, AfterVerdicts pass asked f ∧ acc.1.triples = g₀.triples.map f
  counted : acc.2.applied + acc.2.belowThreshold + acc.2.leftAlone + acc.2.invalidVerdicts +
    acc.2.errors.length = asked.length
  retired : acc.2.retired = g₀.triples.countP fun r => r.Live ∧ ∃ c ∈ asked, pass.Condemns c r

section

variable [LinearOrder ι] {clock : Clock ι} {b : AssertingBrain ι} {pass : AdjudicationPass ι}
  {g₀ : GraphStore ι} {asked : List (SupersessionCandidate ι)} {c : SupersessionCandidate ι}
  {acc acc' : GraphStore ι × SupersessionReport}

/-- **A verdict that keeps nothing** changes no row. -/
theorem Judged.leave (h : Judged pass g₀ asked acc) (hkeeps : pass.keeps c = none)
    (hone : b.adjudicateOne clock pass acc c = .ok acc') : Judged pass g₀ (asked ++ [c]) acc' := by
  have hspares : ∀ r, ¬ pass.Condemns c r := by
    rintro r ⟨keep, hkeep, -⟩
    rw [hkeeps] at hkeep
    cases hkeep
  have hafter : acc'.1 = acc.1 ∧ acc'.2.retired = acc.2.retired ∧
      acc'.2.applied + acc'.2.belowThreshold + acc'.2.leftAlone + acc'.2.invalidVerdicts +
        acc'.2.errors.length = asked.length + 1 := by
    have hcounted := h.counted
    unfold AdjudicationPass.keeps at hkeeps
    unfold AssertingBrain.adjudicateOne at hone
    dsimp only at hone
    split at hone
    · cases hone
      exact ⟨rfl, rfl, by simp only [List.length_append, List.length_singleton]; omega⟩
    · cases hone
      exact ⟨rfl, rfl, by dsimp only; omega⟩
    · cases hone
      exact ⟨rfl, rfl, by dsimp only; omega⟩
    · rename_i keep confidence hverdict
      rw [hverdict] at hkeeps
      dsimp only at hkeeps
      split at hone
      · cases hone
        exact ⟨rfl, rfl, by dsimp only; omega⟩
      · rename_i hin
        split at hone
        · cases hone
          exact ⟨rfl, rfl, by dsimp only; omega⟩
        · rename_i hlt
          rw [if_pos ⟨not_not.1 hin, by simpa using hlt⟩] at hkeeps
          cases hkeeps
  obtain ⟨hstore, hretired, hcounted⟩ := hafter
  obtain ⟨f, hf, hrows⟩ := h.rows
  refine ⟨⟨f, ⟨hf.triple, fun r => (hf.live r).trans ?_⟩, hstore ▸ hrows⟩,
    by rw [hcounted, List.length_append, List.length_singleton], ?_⟩
  · simp [hspares, or_imp, forall_and]
  · rw [hretired, h.retired]
    simp [hspares, or_and_right, exists_or]

omit [LinearOrder ι] in
/-- What an `UPDATE` leaves live. -/
theorem live_retired {fromId toId : EntityId} {predicate stamp : String} {n : ℕ}
    {agent : Option String} {r : TripleRow ι} :
    (GraphStore.retired fromId predicate toId stamp n agent r).Live ↔
      r.Live ∧ ¬ GraphStore.Contradicts fromId predicate toId r := by
  unfold GraphStore.retired
  split
  · rename_i hc
    exact iff_of_false nofun fun h => h.2 hc
  · rename_i hc
    exact (and_iff_left hc).symm

omit [LinearOrder ι] in
/-- What a verdict that keeps an object retires: the other live objects of the slot. -/
theorem condemns_iff_of_keeps {keep : EntityId} (hkeeps : pass.keeps c = some keep)
    {r : TripleRow ι} :
    pass.Condemns c r ↔ GraphStore.Contradicts c.slot.subject c.slot.predicate keep r := by
  unfold AdjudicationPass.Condemns
  rw [hkeeps]
  simp

omit [LinearOrder ι] in
/-- What one more candidate retires is counted beside what the others do, when it was live and none of
the others retires it. -/
theorem countP_condemned_concat
    (hlive : ∀ r, pass.Condemns c r → r.Live ∧ ∀ c' ∈ asked, ¬ pass.Condemns c' r) :
    (g₀.triples.countP fun r => r.Live ∧ ∃ c' ∈ asked ++ [c], pass.Condemns c' r) =
      (g₀.triples.countP fun r => r.Live ∧ ∃ c' ∈ asked, pass.Condemns c' r) +
        g₀.triples.countP fun r => decide (pass.Condemns c r) := by
  rw [List.countP_eq_countP_filter_add g₀.triples
    (fun r => decide (r.Live ∧ ∃ c' ∈ asked ++ [c], pass.Condemns c' r))
    (fun r => decide (pass.Condemns c r)), List.countP_filter, List.countP_filter, add_comm]
  refine congrArg₂ (· + ·) (List.countP_congr fun r _ => ?_) (List.countP_congr fun r _ => ?_)
  · simp only [Bool.and_eq_true, Bool.not_eq_true', decide_eq_true_eq, decide_eq_false_iff_not,
      List.mem_append, List.mem_singleton]
    constructor
    · rintro ⟨⟨hr, c', hc' | rfl, hcond⟩, hnot⟩
      · exact ⟨hr, c', hc', hcond⟩
      · exact absurd hcond hnot
    · rintro ⟨hr, c', hc', hcond⟩
      exact ⟨⟨hr, c', Or.inl hc', hcond⟩, fun hr => (hlive r hr).2 c' hc' hcond⟩
  · simp only [Bool.and_eq_true, decide_eq_true_eq, List.mem_append, List.mem_singleton]
    exact ⟨And.right, fun hr => ⟨⟨(hlive r hr).1, c, Or.inr rfl, hr⟩, hr⟩⟩

/-- What a verdict that keeps an object does, when the object is live. -/
theorem eq_retired_of_adjudicateOne {keep : EntityId} {i : ℕ} (hkeeps : pass.keeps c = some keep)
    (hi : acc.1.triples.findIdx? (fun r => decide (r.triple.edge =
      (c.slot.subject, keep, c.slot.predicate) ∧ r.Live)) = some i)
    (hone : b.adjudicateOne clock pass acc c = .ok acc') :
    acc' = ((acc.1.retireOthers c.slot.subject c.slot.predicate keep
      (clock.toRfc3339 (pass.now c)) (i + 1) (some pass.agent)).1,
        { acc.2 with
          applied := acc.2.applied + 1
          retired := acc.2.retired + acc.1.triples.countP fun r =>
            GraphStore.Contradicts c.slot.subject c.slot.predicate keep r }) := by
  obtain ⟨confidence, hverdict, hin, hgate⟩ := AdjudicationPass.keeps_eq_some.1 hkeeps
  have hretire : acc.1.retireConflictingObjects clock c.slot.subject c.slot.predicate keep pass.agent
      (pass.now c) = acc.1.retireOthers c.slot.subject c.slot.predicate keep
        (clock.toRfc3339 (pass.now c)) (i + 1) (some pass.agent) := by
    unfold GraphStore.retireConflictingObjects
    rw [hi]
  unfold AssertingBrain.adjudicateOne at hone
  dsimp only at hone
  rw [hverdict] at hone
  dsimp only at hone
  rw [if_neg (not_not.2 hin), if_neg (by simp [hgate])] at hone
  unfold AssertingBrain.retireConflictingObjects at hone
  split at hone
  · cases hone
  · rw [hretire] at hone
    exact (Except.ok.inj hone).symm

/-- **A verdict that keeps an object** of a slot that was not asked about yet. -/
theorem Judged.retire (h : Judged pass g₀ asked acc) {keep : EntityId}
    (hkeeps : pass.keeps c = some keep) (hfresh : ∀ c' ∈ asked, c'.slot ≠ c.slot)
    (hkeep : keep ∈ g₀.liveObjects c.slot.subject c.slot.predicate)
    (hone : b.adjudicateOne clock pass acc c = .ok acc') : Judged pass g₀ (asked ++ [c]) acc' := by
  obtain ⟨f, hf, hrows⟩ := h.rows
  -- the rows of the slot went through the verdicts so far as they were
  have hspared : ∀ r : TripleRow ι, r.triple.slot = c.slot → ∀ c' ∈ asked, ¬ pass.Condemns c' r :=
    fun r hr c' hc' hcondemns => hfresh c' hc' (hcondemns.slot_eq.symm.trans hr)
  have hcontradicts : ∀ r, GraphStore.Contradicts c.slot.subject c.slot.predicate keep (f r) ↔
      pass.Condemns c r := by
    intro r
    rw [condemns_iff_of_keeps hkeeps]
    unfold GraphStore.Contradicts
    rw [hf.triple, hf.live]
    exact and_congr_right fun hslot => and_congr_right fun _ =>
      and_iff_left (hspared r (Triple.slot_eq_iff.2 hslot))
  -- the object that is kept is still live
  obtain ⟨i, hi⟩ : ∃ i, acc.1.triples.findIdx? (fun r => decide (r.triple.edge =
      (c.slot.subject, keep, c.slot.predicate) ∧ r.Live)) = some i := by
    obtain ⟨r, hr, hslot, hlive, rfl⟩ := GraphStore.mem_liveObjects.1 hkeep
    refine Option.isSome_iff_exists.1 (List.findIdx?_isSome.trans (List.any_eq_true.2 ⟨f r, ?_, ?_⟩))
    · rw [hrows]
      exact List.mem_map_of_mem hr
    · refine decide_eq_true ⟨?_, (hf.live r).2 ⟨hlive, hspared r (Triple.slot_eq_iff.2 hslot)⟩⟩
      rw [hf.triple, Triple.edge, hslot.1, hslot.2]
  rw [eq_retired_of_adjudicateOne hkeeps hi hone]
  refine ⟨⟨fun r => GraphStore.retired c.slot.subject c.slot.predicate keep
    (clock.toRfc3339 (pass.now c)) (i + 1) (some pass.agent) (f r), ⟨fun r => ?_, fun r => ?_⟩, ?_⟩,
      ?_, ?_⟩
  · rw [GraphStore.retired_triple, hf.triple]
  · rw [live_retired, hf.live, hcontradicts]
    simp [or_imp, forall_and, and_assoc]
  · rw [GraphStore.triples_retireOthers, hrows, List.map_map]
    rfl
  · have hcounted := h.counted
    rw [List.length_append, List.length_singleton]
    dsimp only
    omega
  · have hnew : acc.1.triples.countP (fun r => decide (GraphStore.Contradicts c.slot.subject
        c.slot.predicate keep r)) = g₀.triples.countP fun r => decide (pass.Condemns c r) := by
      rw [hrows, List.countP_map]
      exact List.countP_congr fun r _ => by simp [hcontradicts]
    have hlive : ∀ r, pass.Condemns c r → r.Live ∧ ∀ c' ∈ asked, ¬ pass.Condemns c' r :=
      fun r hr => ⟨((condemns_iff_of_keeps hkeeps).1 hr).2.2, hspared r hr.slot_eq⟩
    dsimp only
    rw [hnew, h.retired, countP_condemned_concat hlive]

/-- **One candidate**, of a slot that was not asked about yet. -/
theorem judged_adjudicateOne (h : Judged pass g₀ asked acc) (hfresh : ∀ c' ∈ asked, c'.slot ≠ c.slot)
    (hlive : ∀ x ∈ c.objects, x.object ∈ g₀.liveObjects c.slot.subject c.slot.predicate)
    (hone : b.adjudicateOne clock pass acc c = .ok acc') : Judged pass g₀ (asked ++ [c]) acc' := by
  cases hkeeps : pass.keeps c with
  | none => exact h.leave hkeeps hone
  | some keep =>
    obtain ⟨-, -, ⟨x, hx, rfl⟩, -⟩ := AdjudicationPass.keeps_eq_some.1 hkeeps
    exact h.retire hkeeps hfresh (hlive x hx) hone

/-- **The loop**, over candidates of different slots. -/
theorem judged_foldlM {cs : List (SupersessionCandidate ι)} (h : Judged pass g₀ asked acc)
    (hslots : ((asked ++ cs).map SupersessionCandidate.slot).Nodup)
    (hlive : ∀ c ∈ cs, ∀ x ∈ c.objects, x.object ∈ g₀.liveObjects c.slot.subject c.slot.predicate)
    (hloop : cs.foldlM (b.adjudicateOne clock pass) acc = .ok acc') :
    Judged pass g₀ (asked ++ cs) acc' := by
  induction cs generalizing asked acc with
  | nil =>
    cases hloop
    rwa [List.append_nil]
  | cons c cs ih =>
    rw [List.foldlM_cons] at hloop
    cases hone : b.adjudicateOne clock pass acc c with
    | error e =>
      rw [hone] at hloop
      cases hloop
    | ok acc₁ =>
      rw [hone] at hloop
      have hfresh : ∀ c' ∈ asked, c'.slot ≠ c.slot := by
        rw [List.map_append, List.map_cons] at hslots
        intro c' hc' heq
        exact (List.nodup_append.1 hslots).2.2 _ (List.mem_map_of_mem hc') _ List.mem_cons_self heq
      have hjudged := judged_adjudicateOne h hfresh (hlive c List.mem_cons_self) hone
      rw [List.append_cons] at hslots ⊢
      exact ih hjudged hslots (fun c' hc' => hlive c' (List.mem_cons_of_mem c hc')) hloop

/-- A verdict leaves the number of candidates as it is. -/
theorem considered_adjudicateOne (hone : b.adjudicateOne clock pass acc c = .ok acc') :
    acc'.2.considered = acc.2.considered := by
  unfold AssertingBrain.adjudicateOne AssertingBrain.retireConflictingObjects at hone
  dsimp only at hone
  split at hone
  · cases hone
    rfl
  · cases hone
    rfl
  · cases hone
    rfl
  · split at hone
    · cases hone
      rfl
    · split at hone
      · cases hone
        rfl
      · split at hone
        · cases hone
        · cases hone
          rfl

end

/-! ## What the slots hold -/

section

variable {b : AssertingBrain ι} {pass : AdjudicationPass ι} {g : GraphStore ι}
  {report : SupersessionReport}

/-- The object is live in the slot. -/
def GraphStore.Holds (g : GraphStore ι) (slot : Slot) (o : EntityId) : Prop :=
  o ∈ g.liveObjects slot.subject slot.predicate

theorem GraphStore.holds_iff {slot : Slot} {o : EntityId} :
    g.Holds slot o ↔ ∃ r ∈ g.triples, r.triple.slot = slot ∧ r.Live ∧ r.triple.toId = o := by
  unfold GraphStore.Holds
  rw [GraphStore.mem_liveObjects]
  exact exists_congr fun r => and_congr_right fun _ => and_congr_left' Triple.slot_eq_iff.symm

namespace Judged

variable {asked : List (SupersessionCandidate ι)} (h : Judged pass b.store asked (g, report))

include h

/-- What a slot holds afterwards. -/
theorem holds_iff {slot : Slot} {o : EntityId} : g.Holds slot o ↔
    ∃ r ∈ b.store.triples, r.triple.slot = slot ∧ r.Live ∧ r.triple.toId = o ∧
      ∀ c ∈ asked, ¬ pass.Condemns c r := by
  obtain ⟨f, hf, hrows⟩ := h.rows
  rw [GraphStore.holds_iff, show g.triples = _ from hrows]
  simp only [List.mem_map, exists_exists_and_eq_and, hf.triple, hf.live]
  exact exists_congr fun r => by tauto

/-- No slot is emptied: of the candidate's objects, one is kept. -/
theorem exists_holds (hslots : (asked.map SupersessionCandidate.slot).Nodup)
    (hlive : ∀ c ∈ asked, ∀ x ∈ c.objects, b.store.Holds c.slot x.object) {slot : Slot}
    (hslot : ∃ o, b.store.Holds slot o) : ∃ o, g.Holds slot o := by
  have hof : ∀ {r : TripleRow ι}, r.triple.slot = slot → ∀ {c}, c ∈ asked → pass.Condemns c r →
      c.slot = slot := fun hr _ _ hc => hc.slot_eq.symm.trans hr
  by_cases hcondemned : ∃ c ∈ asked, c.slot = slot ∧ ∃ keep, pass.keeps c = some keep
  · obtain ⟨c, hc, rfl, keep, hkeeps⟩ := hcondemned
    obtain ⟨-, -, ⟨x, hx, rfl⟩, -⟩ := AdjudicationPass.keeps_eq_some.1 hkeeps
    obtain ⟨r, hr, hslot, hlive, hto⟩ := GraphStore.holds_iff.1 (hlive c hc x hx)
    refine ⟨x.object, h.holds_iff.2 ⟨r, hr, hslot, hlive, hto, fun c' hc' hcond => ?_⟩⟩
    obtain rfl : c' = c := List.inj_on_of_nodup_map hslots hc' hc (hof hslot hc' hcond)
    obtain ⟨keep, hkeep, -, hne, -⟩ := hcond
    rw [hkeeps] at hkeep
    cases hkeep
    exact hne hto
  · obtain ⟨o, ho⟩ := hslot
    obtain ⟨r, hr, hslot, hlive, hto⟩ := GraphStore.holds_iff.1 ho
    refine ⟨o, h.holds_iff.2 ⟨r, hr, hslot, hlive, hto, fun c hc hcond => hcondemned ?_⟩⟩
    obtain ⟨keep, hkeep, -⟩ := id hcond
    exact ⟨c, hc, hof hslot hc hcond, keep, hkeep⟩

/-- The report counts the rows that were live and no longer are. -/
theorem retired_eq : report.retired =
    (b.store.triples.zip g.triples).countP fun p => p.1.Live ∧ ¬ p.2.Live := by
  obtain ⟨f, hf, hrows⟩ := h.rows
  have hzip : b.store.triples.zip g.triples = b.store.triples.map fun r => (r, f r) := by
    rw [show g.triples = _ from hrows]
    exact List.map_prod_left_eq_zip.symm
  rw [show report.retired = _ from h.retired, hzip, List.countP_map]
  refine List.countP_congr fun r _ => ?_
  simp only [Function.comp_apply, decide_eq_true_eq, hf.live]
  exact and_congr_right fun hlive => by simp [hlive]

end Judged

end

/-! ## The pass -/

section

variable [LinearOrder ι] {clock : Clock ι} {b : AssertingBrain ι} {pass : AdjudicationPass ι}
  {limit : ℕ} {g : GraphStore ι} {report : SupersessionReport}

/-- Candidates are of different slots. -/
theorem nodup_slots_detectCandidates :
    ((b.detectCandidates clock limit).map SupersessionCandidate.slot).Nodup := by
  rw [AssertingBrain.slots_detectCandidates]
  exact (GraphStore.nodup_crowdedSlots.sublist (List.take_sublist _ _)).filter _

variable (clock pass limit) in
/-- A pass over a brain that can be written to returns. -/
theorem exists_applyAdjudications (hwritable : b.readOnly = false) :
    ∃ g report, b.applyAdjudications clock pass limit = .ok (g, report) := by
  have hone : ∀ acc c, ∃ acc', b.adjudicateOne clock pass acc c = .ok acc' := by
    intro acc c
    unfold AssertingBrain.adjudicateOne AssertingBrain.retireConflictingObjects
    dsimp only
    split
    · exact ⟨_, rfl⟩
    · exact ⟨_, rfl⟩
    · exact ⟨_, rfl⟩
    · split
      · exact ⟨_, rfl⟩
      · split
        · exact ⟨_, rfl⟩
        · rw [hwritable]
          exact ⟨_, rfl⟩
  have hloop : ∀ (cs : List (SupersessionCandidate ι)) acc,
      ∃ acc', cs.foldlM (b.adjudicateOne clock pass) acc = .ok acc' := by
    intro cs
    induction cs with
    | nil => exact fun acc => ⟨acc, rfl⟩
    | cons c cs ih =>
      intro acc
      obtain ⟨acc₁, hacc⟩ := hone acc c
      rw [List.foldlM_cons, hacc]
      exact ih acc₁
  obtain ⟨⟨g, report⟩, h⟩ := hloop (b.detectCandidates clock limit)
    (b.store, { considered := (b.detectCandidates clock limit).length })
  exact ⟨g, report, h⟩

/-- **The pass**: its rows have been through the verdicts about all candidates. -/
theorem judged_applyAdjudications (h : b.applyAdjudications clock pass limit = .ok (g, report)) :
    Judged pass b.store (b.detectCandidates clock limit) (g, report) := by
  have hstart : Judged pass b.store [] (b.store, ({
      considered := (b.detectCandidates clock limit).length } : SupersessionReport)) :=
    ⟨⟨id, ⟨fun _ => rfl, fun r => by simp⟩, (List.map_id _).symm⟩, rfl, by simp⟩
  exact judged_foldlM hstart nodup_slots_detectCandidates
    (fun c hc x hx => (AssertingBrain.mem_objects_candidate hc).1 ⟨x, hx, rfl⟩) h

theorem considered_applyAdjudications
    (h : b.applyAdjudications clock pass limit = .ok (g, report)) :
    report.considered = (b.detectCandidates clock limit).length :=
  rel_of_foldlM_eq_ok
    (R := fun acc acc' : GraphStore ι × SupersessionReport => acc'.2.considered = acc.2.considered)
    (fun _ => rfl) (fun _ _ _ h h' => h'.trans h) (fun _ _ _ => considered_adjudicateOne) h

/-- The adjudicator has said that the object supersedes the others of the candidate, with enough
confidence, and the object is one of the candidate's. -/
def AdjudicationPass.Backs (pass : AdjudicationPass ι) (c : SupersessionCandidate ι) : Prop :=
  ∃ keep confidence, pass.adjudicate c = .ok (.supersedes keep confidence) ∧
    confidence.ge pass.minConfidence = true ∧ ∃ x ∈ c.objects, x.object = keep

variable (clock b pass limit g report) in
/-- What a pass is meant to be. -/
structure Accountable : Prop where
  considered : report.considered = report.applied + report.belowThreshold + report.leftAlone +
    report.invalidVerdicts + report.errors.length
  shrinks : ∀ slot o, g.Holds slot o → b.store.Holds slot o
  nonempty : ∀ slot, (∃ o, b.store.Holds slot o) → ∃ o, g.Holds slot o
  backed : ∀ slot o, b.store.Holds slot o → ¬ g.Holds slot o →
    ∃ c ∈ b.detectCandidates clock limit, c.slot = slot ∧ pass.Backs c
  rows : g.triples.map TripleRow.triple = b.store.triples.map TripleRow.triple
  retired : report.retired =
    (b.store.triples.zip g.triples).countP fun p => p.1.Live ∧ ¬ p.2.Live

variable (clock b pass limit) in
/-- No verdict whose confidence is not a number retires anything: if it keeps an object of the candidate,
the candidate has no other object. -/
def NansIdle : Prop :=
  ∀ c ∈ b.detectCandidates clock limit, ∀ keep, pass.adjudicate c = .ok (.supersedes keep .nan) →
    (∃ x ∈ c.objects, x.object = keep) → ∀ x ∈ c.objects, x.object = keep

/-- **A pass** is what it is meant to be exactly if no verdict whose confidence is not a number retires
anything. -/
theorem adjudications_accountable_iff (clock : Clock ι) (b : AssertingBrain ι)
    (pass : AdjudicationPass ι) (limit : ℕ) (g : GraphStore ι) (report : SupersessionReport) (q : ℚ)
    (hmin : pass.minConfidence = .finite q)
    (hok : b.applyAdjudications clock pass limit = .ok (g, report)) :
    Accountable clock b pass limit g report ↔ NansIdle clock b pass limit := by
  have hjudged := judged_applyAdjudications hok
  have hslots : ((b.detectCandidates clock limit).map SupersessionCandidate.slot).Nodup :=
    nodup_slots_detectCandidates
  have hobjects : ∀ c ∈ b.detectCandidates clock limit, ∀ o,
      (∃ x ∈ c.objects, x.object = o) ↔ b.store.Holds c.slot o :=
    fun c hc o => AssertingBrain.mem_objects_candidate hc
  constructor
  · intro h c hc keep hverdict hin x hx
    by_contra hne
    have hkeeps : pass.keeps c = some keep :=
      AdjudicationPass.keeps_eq_some.2 ⟨.nan, hverdict, hin, by rw [hmin]; rfl⟩
    -- the slot has lost the other object, so something backs that; it can only be this verdict
    have hheld : b.store.Holds c.slot x.object := (hobjects c hc _).1 ⟨x, hx, rfl⟩
    have hlost : ¬ g.Holds c.slot x.object := by
      rw [hjudged.holds_iff]
      rintro ⟨r, -, hslot, hlive, hto, hspared⟩
      exact hspared c hc ⟨keep, hkeeps, Triple.slot_eq_iff.1 hslot, hto ▸ hne, hlive⟩
    obtain ⟨c', hc', hslot, keep', confidence, hverdict', hge, -⟩ := h.backed _ _ hheld hlost
    obtain rfl : c' = c := List.inj_on_of_nodup_map hslots hc' hc hslot
    rw [hverdict] at hverdict'
    cases hverdict'
    rw [hmin] at hge
    cases hge
  · intro h
    obtain ⟨f, hf, hrows⟩ := hjudged.rows
    refine ⟨?_, ?_, ?_, ?_, ?_, hjudged.retired_eq⟩
    · rw [considered_applyAdjudications hok]
      exact hjudged.counted.symm
    · intro slot o ho
      obtain ⟨r, hr, hslot, hlive, hto, -⟩ := hjudged.holds_iff.1 ho
      exact GraphStore.holds_iff.2 ⟨r, hr, hslot, hlive, hto⟩
    · exact fun slot => hjudged.exists_holds hslots fun c hc x hx => (hobjects c hc _).1 ⟨x, hx, rfl⟩
    · intro slot o hheld hlost
      obtain ⟨r, hr, hslot, hlive, hto⟩ := GraphStore.holds_iff.1 hheld
      have hcondemned : ∃ c ∈ b.detectCandidates clock limit, pass.Condemns c r := by
        by_contra hnone
        push Not at hnone
        exact hlost (hjudged.holds_iff.2 ⟨r, hr, hslot, hlive, hto, hnone⟩)
      obtain ⟨c, hc, hcond⟩ := hcondemned
      have hcslot : c.slot = slot := hcond.slot_eq.symm.trans hslot
      obtain ⟨keep, hkeeps, -, hne, -⟩ := hcond
      obtain ⟨confidence, hverdict, hin, hgate⟩ := AdjudicationPass.keeps_eq_some.1 hkeeps
      refine ⟨c, hc, hcslot, keep, confidence, hverdict, ?_, hin⟩
      rw [hmin] at hgate ⊢
      refine F64.ge_finite_iff.2 ⟨hgate, ?_⟩
      rintro rfl
      -- the candidate has the lost object as well
      obtain ⟨x, hx, rfl⟩ := (hobjects c hc o).2 (hcslot ▸ hheld)
      exact hne (hto.trans (h c hc keep hverdict hin x hx))
    · rw [show g.triples = _ from hrows, List.map_map]
      exact List.map_congr_left fun r _ => hf.triple r

end

end

/-! ## Two cities -/

/-- Two cities are said to be where she lives. -/
def twoCities : AssertingBrain (Fin 5) :=
  plainBrain (run (GraphStore.call newYear) GraphStore.empty
    [.upsertEntity (place 0), .upsertEntity (place 1), .upsertEntity (place 2),
      .insertTriple (livesIn 1 (day 0)), .insertTriple (livesIn 2 (day 1))])

/-- A pass with an adjudicator that always keeps the second city, as sure as it says. -/
def keepsSecond (confidence : F64) : AdjudicationPass (Fin 5) :=
  { adjudicate := fun _ => .ok (.supersedes (Env.bytesOf 32 2) confidence)
    now := fun _ => day 2, minConfidence := .finite (1 / 2), agent := "librarian" }

/-- A verdict that is sure enough. -/
theorem accountable_sure : ∃ g report,
    twoCities.applyAdjudications newYear (keepsSecond (.finite 1)) 8 = .ok (g, report) ∧
      Accountable newYear twoCities (keepsSecond (.finite 1)) 8 g report := by
  obtain ⟨g, report, hok⟩ := exists_applyAdjudications (b := twoCities) newYear
    (keepsSecond (.finite 1)) 8 rfl
  refine ⟨g, report, hok, (adjudications_accountable_iff newYear twoCities (keepsSecond (.finite 1)) 8 g
    report (1 / 2) rfl hok).2 fun c _ keep hverdict => ?_⟩
  cases hverdict

/-- A verdict that is not sure how sure it is retires a city. -/
theorem retired_unsure : ∃ g report,
    twoCities.applyAdjudications newYear (keepsSecond .nan) 8 = .ok (g, report) ∧
      ¬ Accountable newYear twoCities (keepsSecond .nan) 8 g report := by
  obtain ⟨g, report, hok⟩ := exists_applyAdjudications (b := twoCities) newYear
    (keepsSecond .nan) 8 rfl
  refine ⟨g, report, hok, fun h => ?_⟩
  have hasked : ∃ c ∈ twoCities.detectCandidates newYear 8,
      c.slot = ⟨Env.bytesOf 32 0, "lives_in"⟩ ∧
        (keepsSecond .nan).keeps c = some (Env.bytesOf 32 2) := by decide +kernel
  have hheld : twoCities.store.Holds ⟨Env.bytesOf 32 0, "lives_in"⟩ (Env.bytesOf 32 1) := by
    unfold GraphStore.Holds
    decide +kernel
  have hlost : ¬ g.Holds ⟨Env.bytesOf 32 0, "lives_in"⟩ (Env.bytesOf 32 1) := by
    rw [(judged_applyAdjudications hok).holds_iff]
    rintro ⟨r, -, hslot, hlive, hto, hspared⟩
    obtain ⟨c, hc, hcslot, hkeeps⟩ := hasked
    refine hspared c hc ⟨_, hkeeps, Triple.slot_eq_iff.1 (hslot.trans hcslot.symm), ?_, hlive⟩
    rw [hto]
    decide +kernel
  obtain ⟨c, -, -, keep, confidence, hverdict, hge, -⟩ := h.backed _ _ hheld hlost
  cases hverdict
  cases hge

end Spectral
