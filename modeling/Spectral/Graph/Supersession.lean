import Mathlib.Data.String.Basic
import Spectral.Lib.Run
import Spectral.Lib.Span
import Spectral.Graph.Store

/-!
# Supersession

A predicate can be functional: a subject has one object for it at a time.  An insert then retires
what it contradicts: the retired row gets an end of its validity, and the row id of the assertion
that replaced it.  An undo reinstates what an assertion retired, and retires the assertion.

* `insertTripleSupersedingBy`, `retireConflictingObjects`, `undoSupersession` — the operations.
* `Functional` — a slot has at most one object that is live, and at most one at every instant.
* `KeepsFunctional` — which operations keep it so; `functional_iff` — in the runs all of whose
  operations are of this kind the slot is functional throughout, and in no others.

Instants are stored as text, and the ends of validity are compared as text.
-/

namespace Spectral

open Spectral.Lib

/-- Instants that are ordered like the text `to_rfc3339` writes for them. -/
structure Clock (ι : Type) [LinearOrder ι] where
  toRfc3339 : ι → String
  strictMono : StrictMono toRfc3339

namespace TripleRow

variable {ι : Type}

/-- `valid_to IS NULL`. -/
def Live (r : TripleRow ι) : Prop := r.validTo = none

instance (r : TripleRow ι) : Decidable r.Live := inferInstanceAs (Decidable (r.validTo = none))

/-- Retired at some time, by a row and an agent. -/
def retire (stamp : String) (rowid : ℕ) (agent : Option String) (r : TripleRow ι) : TripleRow ι :=
  { r with validTo := some stamp, supersededBy := some rowid, supersededByAgent := agent }

/-- Live again. -/
def reinstate (r : TripleRow ι) : TripleRow ι :=
  { r with validTo := none, supersededBy := none, supersededByAgent := none }

end TripleRow

/-- A slot is a subject and a predicate. -/
def Triple.InSlot {ι : Type} (fromId : EntityId) (predicate : String) (t : Triple ι) : Prop :=
  t.fromId = fromId ∧ t.predicate = predicate

instance {ι : Type} (fromId : EntityId) (predicate : String) (t : Triple ι) :
    Decidable (t.InSlot fromId predicate) :=
  inferInstanceAs (Decidable (t.fromId = fromId ∧ t.predicate = predicate))

namespace GraphStore

variable {ι : Type}

/-! ## Operations -/

/-- An `UPDATE` of the columns of supersession, of every row by its row id. -/
def updateTriples (f : ℕ → TripleRow ι → TripleRow ι) (hf : ∀ rowid r, (f rowid r).triple = r.triple)
    (g : GraphStore ι) : GraphStore ι :=
  { g with
    triples := g.triples.mapIdx fun i r => f (i + 1) r
    endpoints := by
      intro r hr
      obtain ⟨i, hi, rfl⟩ := List.mem_mapIdx.1 hr
      rw [hf]
      exact g.endpoints _ (List.getElem_mem hi) }

/-- The rows that contradict an object of a slot: live ones with another object. -/
def Contradicts (fromId : EntityId) (predicate : String) (toId : EntityId) (r : TripleRow ι) : Prop :=
  r.triple.InSlot fromId predicate ∧ r.triple.toId ≠ toId ∧ r.Live

instance (fromId : EntityId) (predicate : String) (toId : EntityId) (r : TripleRow ι) :
    Decidable (Contradicts fromId predicate toId r) :=
  inferInstanceAs (Decidable (r.triple.InSlot fromId predicate ∧ r.triple.toId ≠ toId ∧ r.Live))

/-- The row after the `UPDATE` that retires what contradicts an object. -/
def retired (fromId : EntityId) (predicate : String) (toId : EntityId) (stamp : String) (rowid : ℕ)
    (agent : Option String) (r : TripleRow ι) : TripleRow ι :=
  if Contradicts fromId predicate toId r then r.retire stamp rowid agent else r

@[simp] theorem retired_triple (fromId : EntityId) (predicate : String) (toId : EntityId)
    (stamp : String) (rowid : ℕ) (agent : Option String) (r : TripleRow ι) :
    (retired fromId predicate toId stamp rowid agent r).triple = r.triple := by
  unfold retired
  split <;> rfl

/-- The `UPDATE` that retires what contradicts an object. -/
def retireOthers (fromId : EntityId) (predicate : String) (toId : EntityId) (stamp : String)
    (rowid : ℕ) (agent : Option String) (g : GraphStore ι) : GraphStore ι × ℕ :=
  (g.updateTriples (fun _ => retired fromId predicate toId stamp rowid agent)
    fun _ => retired_triple fromId predicate toId stamp rowid agent,
   g.triples.countP fun r => Contradicts fromId predicate toId r)

/-- The rows after an `UPDATE` that retires what contradicts an object. -/
theorem triples_retireOthers (g : GraphStore ι) (fromId : EntityId) (predicate : String)
    (toId : EntityId) (stamp : String) (rowid : ℕ) (agent : Option String) :
    (g.retireOthers fromId predicate toId stamp rowid agent).1.triples =
      g.triples.map (retired fromId predicate toId stamp rowid agent) := by
  refine List.ext_getElem? fun i => ?_
  simp [retireOthers, updateTriples]

/-- The first `UPDATE` of an undo: what the row `n` retired is live again. -/
def reinstateRow (n : ℕ) (r : TripleRow ι) : TripleRow ι :=
  if r.supersededBy = some n then r.reinstate else r

/-- The second `UPDATE` of an undo: the row `n` is retired. -/
def retireRow (n : ℕ) (stamp : String) (rowid : ℕ) (r : TripleRow ι) : TripleRow ι :=
  if rowid = n ∧ r.Live then { r with validTo := some stamp } else r

/-- Both of them. -/
def undoRow (n : ℕ) (stamp : String) (rowid : ℕ) (r : TripleRow ι) : TripleRow ι :=
  retireRow n stamp rowid (reinstateRow n r)

@[simp] theorem reinstateRow_triple (n : ℕ) (r : TripleRow ι) : (reinstateRow n r).triple = r.triple := by
  unfold reinstateRow
  split <;> rfl

@[simp] theorem retireRow_triple (n : ℕ) (stamp : String) (rowid : ℕ) (r : TripleRow ι) :
    (retireRow n stamp rowid r).triple = r.triple := by
  unfold retireRow
  split <;> rfl

@[simp] theorem undoRow_triple (n : ℕ) (stamp : String) (rowid : ℕ) (r : TripleRow ι) :
    (undoRow n stamp rowid r).triple = r.triple := by
  simp [undoRow]

section

variable [LinearOrder ι] (clock : Clock ι)

/-- `insert_triple_superseding_by`.  When an end of the triple is missing nothing is inserted, and
`last_insert_rowid` is that of an earlier insert on the connection. -/
def insertTripleSupersedingBy (t : Triple ι) (agent : Option String) (lastInsertRowid : ℕ)
    (g : GraphStore ι) : GraphStore ι × ℕ :=
  if ∃ r ∈ g.triples, r.triple.edge = t.edge ∧ r.Live then (g, 0)
  else
    let newRowid := if g.HasEndpoints t then g.triples.length + 1 else lastInsertRowid
    (g.insertTriple t).retireOthers t.fromId t.predicate t.toId (clock.toRfc3339 t.assertedAt)
      newRowid agent

/-- `insert_triple_superseding`. -/
def insertTripleSuperseding (t : Triple ι) (lastInsertRowid : ℕ) (g : GraphStore ι) :
    GraphStore ι × ℕ :=
  g.insertTripleSupersedingBy clock t none lastInsertRowid

/-- `retire_conflicting_objects`. -/
def retireConflictingObjects (fromId : EntityId) (predicate : String) (keep : EntityId)
    (agent : String) (now : ι) (g : GraphStore ι) : GraphStore ι × ℕ :=
  match g.triples.findIdx? fun r => r.triple.edge = (fromId, keep, predicate) ∧ r.Live with
  | none => (g, 0)
  | some i => g.retireOthers fromId predicate keep (clock.toRfc3339 now) (i + 1) (some agent)

/-- `undo_supersession`: the number of rows that are live again. -/
def undoSupersession (n : ℕ) (now : ι) (g : GraphStore ι) : GraphStore ι × ℕ :=
  let reinstated := g.triples.countP fun r => r.supersededBy = some n
  if 0 < reinstated then
    (g.updateTriples (undoRow n (clock.toRfc3339 now)) (undoRow_triple n _), reinstated)
  else (g, 0)

/-- `find_triples_as_of`. -/
def findTriplesAsOf (g : GraphStore ι) (fromId toId : Option EntityId) (predicate : Option String)
    (asOf : ι) : List (Triple ι) :=
  ((g.findTriplesIncludingSuperseded fromId toId predicate).filter fun r =>
    decide (r.1.assertedAt ≤ asOf) && r.2.all fun v => decide (clock.toRfc3339 asOf < v)).map Prod.fst

end

end GraphStore

/-! ## Functional slots -/

namespace GraphStore

variable {ι : Type} {fromId : EntityId} {predicate : String} {g : GraphStore ι}

theorem matchesPattern_slot {t : Triple ι} :
    matchesPattern (some fromId) none (some predicate) t = true ↔
      t.InSlot fromId predicate := by
  simp only [matchesPattern, Triple.InSlot, Option.all_some, Option.all_none, Bool.and_true,
    Bool.and_eq_true, decide_eq_true_eq]
  rw [@eq_comm _ fromId, @eq_comm _ predicate]

theorem mem_findTriples {t : Triple ι} :
    t ∈ g.findTriples (some fromId) none (some predicate) ↔
      ∃ r ∈ g.triples, r.triple.InSlot fromId predicate ∧ r.Live ∧ r.triple = t := by
  simp only [findTriples, findTriplesIncludingSuperseded, List.mem_map, List.mem_filter,
    matchesPattern_slot, Option.isNone_iff_eq_none]
  constructor
  · rintro ⟨-, ⟨⟨r, ⟨hr, hslot⟩, rfl⟩, hlive⟩, rfl⟩
    exact ⟨r, hr, hslot, hlive, rfl⟩
  · rintro ⟨r, hr, hslot, hlive, rfl⟩
    exact ⟨_, ⟨⟨r, ⟨hr, hslot⟩, rfl⟩, hlive⟩, rfl⟩

end GraphStore

/-- No two different objects. -/
def OneObject {ι : Type} (ts : List (Triple ι)) : Prop := ∀ t ∈ ts, ∀ t' ∈ ts, t.toId = t'.toId

section

variable {ι : Type} [LinearOrder ι] (clock : Clock ι)

/-- When a row is valid. -/
def TripleRow.span (r : TripleRow ι) : Span String := ⟨clock.toRfc3339 r.triple.assertedAt, r.validTo⟩

namespace GraphStore

/-- A slot has at most one live object, and at most one at every instant. -/
structure Functional (fromId : EntityId) (predicate : String) (g : GraphStore ι) : Prop where
  live : OneObject (g.findTriples (some fromId) none (some predicate))
  asOf : ∀ t, OneObject (g.findTriplesAsOf clock (some fromId) none (some predicate) t)

variable {clock} {fromId : EntityId} {predicate : String} {g : GraphStore ι}

theorem mem_findTriplesAsOf {t : Triple ι} {asOf : ι} :
    t ∈ g.findTriplesAsOf clock (some fromId) none (some predicate) asOf ↔
      ∃ r ∈ g.triples, r.triple.InSlot fromId predicate ∧ (r.span clock).Holds (clock.toRfc3339 asOf) ∧
        r.triple = t := by
  have hholds : ∀ r : TripleRow ι, (r.span clock).Holds (clock.toRfc3339 asOf) ↔
      r.triple.assertedAt ≤ asOf ∧ ∀ v, r.validTo = some v → clock.toRfc3339 asOf < v := by
    intro r
    simp only [Span.Holds, TripleRow.span, clock.strictMono.le_iff_le]
  simp only [findTriplesAsOf, findTriplesIncludingSuperseded, List.mem_map, List.mem_filter,
    matchesPattern_slot, hholds, Bool.and_eq_true, decide_eq_true_eq, Option.all_eq_true]
  constructor
  · rintro ⟨-, ⟨⟨r, ⟨hr, hslot⟩, rfl⟩, hspan⟩, rfl⟩
    exact ⟨r, hr, hslot, hspan, rfl⟩
  · rintro ⟨r, hr, hslot, hspan, rfl⟩
    exact ⟨_, ⟨⟨r, ⟨hr, hslot⟩, rfl⟩, hspan⟩, rfl⟩

/-- Rows of the slot with different objects are never valid together. -/
def Apart (clock : Clock ι) (fromId : EntityId) (predicate : String) (rows : List (TripleRow ι)) :
    Prop :=
  ∀ r ∈ rows, ∀ r' ∈ rows, r.triple.InSlot fromId predicate → r'.triple.InSlot fromId predicate →
    r.triple.toId ≠ r'.triple.toId → ¬ (r.span clock).Meets (r'.span clock)

theorem functional_iff_apart :
    g.Functional clock fromId predicate ↔ Apart clock fromId predicate g.triples := by
  constructor
  · intro h r hr r' hr' hslot hslot' hne hmeets
    -- both are shown at the later of the two instants
    have hmax : max (r.span clock).start (r'.span clock).start =
        clock.toRfc3339 (max r.triple.assertedAt r'.triple.assertedAt) :=
      (clock.strictMono.monotone.map_max).symm
    rw [Span.Meets, hmax] at hmeets
    exact hne (h.asOf _ _ (mem_findTriplesAsOf.2 ⟨r, hr, hslot, hmeets.1, rfl⟩) _
      (mem_findTriplesAsOf.2 ⟨r', hr', hslot', hmeets.2, rfl⟩))
  · intro h
    refine ⟨fun t ht t' ht' => ?_, fun asOf t ht t' ht' => ?_⟩
    · obtain ⟨r, hr, hslot, hlive, rfl⟩ := mem_findTriples.1 ht
      obtain ⟨r', hr', hslot', hlive', rfl⟩ := mem_findTriples.1 ht'
      by_contra hne
      exact h r hr r' hr' hslot hslot' hne (Span.meets_of_open hlive hlive')
    · obtain ⟨r, hr, hslot, hholds, rfl⟩ := mem_findTriplesAsOf.1 ht
      obtain ⟨r', hr', hslot', hholds', rfl⟩ := mem_findTriplesAsOf.1 ht'
      by_contra hne
      exact h r hr r' hr' hslot hslot' hne (Span.meets_iff_exists.2 ⟨_, hholds, hholds'⟩)

/-! ### Changes of the rows -/

/-- One more row. -/
theorem apart_concat {rows : List (TripleRow ι)} {new : TripleRow ι} :
    Apart clock fromId predicate (rows ++ [new]) ↔
      Apart clock fromId predicate rows ∧ (new.triple.InSlot fromId predicate →
        ∀ r ∈ rows, r.triple.InSlot fromId predicate → r.triple.toId ≠ new.triple.toId →
          ¬ (r.span clock).Meets (new.span clock)) := by
  simp only [Apart, List.mem_append, List.mem_singleton]
  constructor
  · intro h
    exact ⟨fun r hr r' hr' => h r (Or.inl hr) r' (Or.inl hr'),
      fun hnew r hr hslot => h r (Or.inl hr) new (Or.inr rfl) hslot hnew⟩
  · rintro ⟨hrows, hnew⟩ r hr r' hr' hslot hslot' hne
    rcases hr with hr | rfl <;> rcases hr' with hr' | rfl
    · exact hrows r hr r' hr' hslot hslot' hne
    · exact hnew hslot' r hr hslot hne
    · exact fun hmeets => hnew hslot r' hr' hslot' (Ne.symm hne) hmeets.symm
    · exact absurd rfl hne

/-- An update that makes no row valid for longer. -/
theorem Apart.map {rows : List (TripleRow ι)} (h : Apart clock fromId predicate rows)
    {f : TripleRow ι → TripleRow ι} (hf : ∀ r, (f r).triple = r.triple)
    (hshrink : ∀ r x, ((f r).span clock).Holds x → (r.span clock).Holds x) :
    Apart clock fromId predicate (rows.map f) := by
  intro r hr r' hr' hslot hslot' hne hmeets
  obtain ⟨old, hold, rfl⟩ := List.mem_map.1 hr
  obtain ⟨old', hold', rfl⟩ := List.mem_map.1 hr'
  rw [hf] at hslot hslot' hne
  rw [hf] at hne
  exact h old hold old' hold' hslot hslot' hne (hmeets.mono (hshrink old) (hshrink old'))

/-- What retires a live row makes it valid for shorter. -/
theorem holds_of_holds_retire {r : TripleRow ι} {stamp : String} {rowid : ℕ} {agent : Option String}
    (hlive : r.Live) {x : String} (h : ((r.retire stamp rowid agent).span clock).Holds x) :
    (r.span clock).Holds x :=
  ⟨h.1, fun v hv => by rw [TripleRow.span, hlive] at hv; cases hv⟩

theorem holds_of_holds_retired {toId : EntityId} {stamp : String} {rowid : ℕ} {agent : Option String}
    {r : TripleRow ι} {x : String}
    (h : ((retired fromId predicate toId stamp rowid agent r).span clock).Holds x) :
    (r.span clock).Holds x := by
  unfold retired at h
  split at h
  case isTrue hc => exact holds_of_holds_retire hc.2.2 h
  case isFalse => exact h

/-! ## Runs -/

end GraphStore

/-- A call on the triples of the store. -/
inductive GraphCall (ι : Type) where
  | upsertEntity (entity : Entity ι)
  | insertTriple (t : Triple ι)
  | insertTripleSuperseding (t : Triple ι) (agent : Option String) (lastInsertRowid : ℕ)
  | retireConflictingObjects (fromId : EntityId) (predicate : String) (keep : EntityId)
      (agent : String) (now : ι)
  | undoSupersession (n : ℕ) (now : ι)

namespace GraphStore

/-- What a call leaves. -/
def call (clock : Clock ι) (g : GraphStore ι) : GraphCall ι → GraphStore ι
  | .upsertEntity entity => g.upsertEntity entity
  | .insertTriple t => g.insertTriple t
  | .insertTripleSuperseding t agent lastInsertRowid =>
    (g.insertTripleSupersedingBy clock t agent lastInsertRowid).1
  | .retireConflictingObjects fromId predicate keep agent now =>
    (g.retireConflictingObjects clock fromId predicate keep agent now).1
  | .undoSupersession n now => (g.undoSupersession clock n now).1

/-- The row ended at the later of the two assertions, or before; a live one may be retired yet. -/
def EndedBy (clock : Clock ι) (t : Triple ι) (r : TripleRow ι) : Prop :=
  ∀ stop, r.validTo = some stop →
    stop ≤ max (clock.toRfc3339 r.triple.assertedAt) (clock.toRfc3339 t.assertedAt)

/-- When a row is valid once the row `n` is undone: what `n` retired has no end, and `n` itself ends
now, if it has not ended yet. -/
def spanOnUndo (clock : Clock ι) (n : ℕ) (now : ι) (rowid : ℕ) (r : TripleRow ι) : Span String where
  start := clock.toRfc3339 r.triple.assertedAt
  stop :=
    if rowid = n ∧ (r.Live ∨ r.supersededBy = some n) then some (clock.toRfc3339 now)
    else if r.supersededBy = some n then none
    else r.validTo

/-- The calls that leave a functional slot functional.

* An insert that adds a row to the slot: the rows with other objects must have ended when the later
  of the two assertions was made.  A superseding insert does this itself for live rows.
* An undo: what it reinstates must not be valid together with a row of another object. -/
def KeepsFunctional (clock : Clock ι) (fromId : EntityId) (predicate : String) (g : GraphStore ι) :
    GraphCall ι → Prop
  | .upsertEntity _ | .retireConflictingObjects .. => True
  | .insertTriple t => t.InSlot fromId predicate → g.HasEndpoints t →
    ∀ r ∈ g.triples, r.triple.InSlot fromId predicate → r.triple.toId ≠ t.toId →
      ¬ r.Live ∧ EndedBy clock t r
  | .insertTripleSuperseding t _ _ => t.InSlot fromId predicate → g.HasEndpoints t →
    (¬ ∃ r ∈ g.triples, r.triple.edge = t.edge ∧ r.Live) →
    ∀ r ∈ g.triples, r.triple.InSlot fromId predicate → r.triple.toId ≠ t.toId → EndedBy clock t r
  | .undoSupersession n now => ∀ i j r r', g.triples[i]? = some r → g.triples[j]? = some r' →
    r.supersededBy = some n → r.triple.InSlot fromId predicate → r'.triple.InSlot fromId predicate →
    r.triple.toId ≠ r'.triple.toId →
      ¬ (spanOnUndo clock n now (i + 1) r).Meets (spanOnUndo clock n now (j + 1) r')

/-! ### One call -/

variable {clock} {fromId : EntityId} {predicate : String} {g : GraphStore ι}

/-- A row that has just been inserted is open. -/
theorem not_meets_new_iff {t : Triple ι} {r : TripleRow ι} :
    ¬ (r.span clock).Meets (TripleRow.span clock { triple := t }) ↔ ¬ r.Live ∧ EndedBy clock t r := by
  cases hstop : r.validTo with
  | none =>
    have hmeets : (r.span clock).Meets (TripleRow.span clock { triple := t }) :=
      Span.meets_of_open hstop rfl
    exact iff_of_false (not_not_intro hmeets) fun h => h.1 hstop
  | some stop =>
    have hmeets : (r.span clock).Meets (TripleRow.span clock { triple := t }) ↔ _ :=
      Span.meets_open_iff hstop rfl
    have hlive : ¬ r.Live := by simp [TripleRow.Live, hstop]
    rw [hmeets, not_lt, and_iff_right hlive]
    exact ⟨fun h stop' hstop' => Option.some.inj (hstop.symm.trans hstop') ▸ h, fun h => h stop hstop⟩

/-- A row of the slot after a superseding insert of another object. -/
theorem not_meets_retired_iff {t : Triple ι} {r : TripleRow ι} {rowid : ℕ} {agent : Option String}
    (ht : t.InSlot fromId predicate) (hslot : r.triple.InSlot fromId predicate)
    (hne : r.triple.toId ≠ t.toId) :
    ¬ ((retired t.fromId t.predicate t.toId (clock.toRfc3339 t.assertedAt) rowid agent r).span
      clock).Meets (TripleRow.span clock { triple := t }) ↔ EndedBy clock t r := by
  by_cases hlive : r.Live
  · have hcontradicts : Contradicts t.fromId t.predicate t.toId r :=
      ⟨⟨hslot.1.trans ht.1.symm, hslot.2.trans ht.2.symm⟩, hne, hlive⟩
    rw [retired, if_pos hcontradicts]
    refine iff_of_true (Span.not_meets_of_stop_le rfl le_rfl) fun stop hstop => ?_
    rw [hlive] at hstop
    cases hstop
  · rw [retired, if_neg fun h => hlive h.2.2, not_meets_new_iff, and_iff_right hlive]

theorem apart_insertTriple_iff (h : Apart clock fromId predicate g.triples) {t : Triple ι} :
    Apart clock fromId predicate (g.insertTriple t).triples ↔
      KeepsFunctional clock fromId predicate g (.insertTriple t) := by
  rw [triples_insertTriple]
  by_cases hends : g.HasEndpoints t
  · rw [if_pos hends, apart_concat, and_iff_right h]
    simp only [KeepsFunctional, hends, forall_const, not_meets_new_iff]
  · rw [if_neg hends]
    exact iff_of_true h fun _ hends' => absurd hends' hends

theorem apart_retireOthers (h : Apart clock fromId predicate g.triples)
    (from' : EntityId) (predicate' : String) (toId : EntityId) (stamp : String) (rowid : ℕ)
    (agent : Option String) :
    Apart clock fromId predicate
      (g.retireOthers from' predicate' toId stamp rowid agent).1.triples := by
  rw [triples_retireOthers]
  exact h.map (retired_triple _ _ _ _ _ _) fun _ _ => holds_of_holds_retired

/-- The rows after a superseding insert that finds its entities: what it contradicts is retired by
the new row. -/
theorem triples_supersede {t : Triple ι} (agent : Option String) (last : ℕ)
    (hends : g.HasEndpoints t) (hnew : ¬ ∃ r ∈ g.triples, r.triple.edge = t.edge ∧ r.Live) :
    (g.insertTripleSupersedingBy clock t agent last).1.triples =
      (g.triples.map (retired t.fromId t.predicate t.toId (clock.toRfc3339 t.assertedAt)
        (g.triples.length + 1) agent)) ++ [{ triple := t }] := by
  have hself : ∀ stamp n, retired t.fromId t.predicate t.toId stamp n agent { triple := t } =
      { triple := t } := fun _ _ => if_neg fun hc => hc.2.1 rfl
  rw [insertTripleSupersedingBy, if_neg hnew]
  simp only [triples_retireOthers, triples_insertTriple, if_pos hends, List.map_append,
    List.map_cons, List.map_nil, hself]

theorem apart_superseding_iff (h : Apart clock fromId predicate g.triples) {t : Triple ι}
    {agent : Option String} {lastInsertRowid : ℕ} :
    Apart clock fromId predicate
        (g.insertTripleSupersedingBy clock t agent lastInsertRowid).1.triples ↔
      KeepsFunctional clock fromId predicate g (.insertTripleSuperseding t agent lastInsertRowid) := by
  by_cases halready : ∃ r ∈ g.triples, r.triple.edge = t.edge ∧ r.Live
  · rw [insertTripleSupersedingBy, if_pos halready]
    exact iff_of_true h fun _ _ hnot => absurd halready hnot
  by_cases hends : g.HasEndpoints t
  · rw [triples_supersede agent lastInsertRowid hends halready, apart_concat,
      and_iff_right (h.map (retired_triple _ _ _ _ _ _) fun _ _ => holds_of_holds_retired)]
    simp only [KeepsFunctional, hends, halready, not_false_eq_true, forall_const]
    refine forall_congr' fun ht => ⟨fun hapart r hr hslot hne => ?_, fun hended r' hr' hslot hne => ?_⟩
    · exact (not_meets_retired_iff ht hslot hne).1
        (hapart _ (List.mem_map_of_mem hr) (by simpa using hslot) (by simpa using hne))
    · obtain ⟨old, hold, rfl⟩ := List.mem_map.1 hr'
      rw [retired_triple] at hslot hne
      exact (not_meets_retired_iff ht hslot hne).2 (hended old hold hslot hne)
  · rw [insertTripleSupersedingBy, if_neg halready]
    have hsame : g.insertTriple t = g := dif_neg hends
    rw [hsame]
    exact iff_of_true (apart_retireOthers h _ _ _ _ _ _) fun _ hends' => absurd hends' hends

theorem span_undoRow (n : ℕ) (now : ι) (rowid : ℕ) (r : TripleRow ι) :
    (undoRow n (clock.toRfc3339 now) rowid r).span clock = spanOnUndo clock n now rowid r := by
  by_cases hby : r.supersededBy = some n <;> by_cases hrow : rowid = n <;>
    by_cases hlive : r.validTo = none <;>
      simp [undoRow, reinstateRow, retireRow, TripleRow.span, spanOnUndo, TripleRow.reinstate,
        TripleRow.Live, hby, hrow, hlive]

/-- What an undo does not reinstate is not valid for longer. -/
theorem holds_of_holds_undo {n : ℕ} {now : ι} {rowid : ℕ} {r : TripleRow ι}
    (hnot : r.supersededBy ≠ some n) {x : String} (h : (spanOnUndo clock n now rowid r).Holds x) :
    (r.span clock).Holds x := by
  refine ⟨h.1, fun stop hstop => h.2 stop ?_⟩
  have hlive : ¬ r.Live := fun hlive => by
    rw [TripleRow.span, hlive] at hstop
    cases hstop
  simp only [spanOnUndo, hlive, hnot, or_self, and_false, ↓reduceIte]
  exact hstop

theorem apart_undo_iff (h : Apart clock fromId predicate g.triples) {n : ℕ} {now : ι} :
    Apart clock fromId predicate (g.undoSupersession clock n now).1.triples ↔
      KeepsFunctional clock fromId predicate g (.undoSupersession n now) := by
  unfold undoSupersession
  by_cases hcount : 0 < g.triples.countP fun r => r.supersededBy = some n
  · simp only [hcount, ↓reduceIte]
    constructor
    · intro hapart i j r r' hr hr' _ hslot hslot' hne
      obtain ⟨hi, rfl⟩ := List.getElem?_eq_some_iff.1 hr
      obtain ⟨hj, rfl⟩ := List.getElem?_eq_some_iff.1 hr'
      have hmeets := hapart _ (List.mem_mapIdx.2 ⟨i, hi, rfl⟩) _ (List.mem_mapIdx.2 ⟨j, hj, rfl⟩)
        (by simpa using hslot) (by simpa using hslot') (by simpa using hne)
      rwa [span_undoRow, span_undoRow] at hmeets
    · intro hkeeps r hr r' hr' hslot hslot' hne hmeets
      obtain ⟨i, hi, rfl⟩ := List.mem_mapIdx.1 hr
      obtain ⟨j, hj, rfl⟩ := List.mem_mapIdx.1 hr'
      rw [undoRow_triple] at hslot hslot'
      rw [undoRow_triple, undoRow_triple] at hne
      rw [span_undoRow, span_undoRow] at hmeets
      by_cases hby : g.triples[i].supersededBy = some n
      · exact hkeeps i j _ _ (List.getElem?_eq_getElem hi) (List.getElem?_eq_getElem hj) hby hslot
          hslot' hne hmeets
      by_cases hby' : g.triples[j].supersededBy = some n
      · exact hkeeps j i _ _ (List.getElem?_eq_getElem hj) (List.getElem?_eq_getElem hi) hby' hslot'
          hslot (Ne.symm hne) hmeets.symm
      · exact h _ (List.getElem_mem hi) _ (List.getElem_mem hj) hslot hslot' hne
          (hmeets.mono (fun _ => holds_of_holds_undo hby) fun _ => holds_of_holds_undo hby')
  · simp only [hcount, ↓reduceIte]
    refine iff_of_true h fun i _ r _ hr _ hby _ _ _ => ?_
    obtain ⟨hi, rfl⟩ := List.getElem?_eq_some_iff.1 hr
    exact absurd (List.countP_pos_iff.2 ⟨_, List.getElem_mem hi, by simpa using hby⟩) hcount

/-- A call leaves a functional slot functional exactly when it is of one of these kinds. -/
theorem functional_call_iff (h : g.Functional clock fromId predicate) (c : GraphCall ι) :
    (g.call clock c).Functional clock fromId predicate ↔
      KeepsFunctional clock fromId predicate g c := by
  rw [functional_iff_apart] at h ⊢
  cases c with
  | upsertEntity entity => exact iff_of_true h trivial
  | insertTriple t => exact apart_insertTriple_iff h
  | insertTripleSuperseding t agent lastInsertRowid => exact apart_superseding_iff h
  | retireConflictingObjects from' predicate' keep agent now =>
    refine iff_of_true ?_ trivial
    show Apart clock fromId predicate (g.retireConflictingObjects clock from' predicate' keep agent now).1.triples
    unfold retireConflictingObjects
    split
    · exact h
    · exact apart_retireOthers h _ _ _ _ _ _
  | undoSupersession n now => exact apart_undo_iff h

/-- A slot is functional throughout a run exactly when every call of the run keeps it so. -/
theorem functional_iff (clock : Clock ι) (fromId : EntityId) (predicate : String)
    (calls : List (GraphCall ι)) :
    AllSteps (call clock) (KeepsFunctional clock fromId predicate) GraphStore.empty calls ↔
      ∀ past, past <+: calls →
        OneObject ((run (call clock) GraphStore.empty past).findTriples (some fromId) none
          (some predicate)) ∧
        ∀ t, OneObject ((run (call clock) GraphStore.empty past).findTriplesAsOf clock (some fromId)
          none (some predicate) t) := by
  have hempty : (GraphStore.empty : GraphStore ι).Functional clock fromId predicate :=
    functional_iff_apart.2 fun r hr => absurd hr List.not_mem_nil
  rw [allSteps_iff_forall_past (I := fun g => g.Functional clock fromId predicate)
    (fun g c h => functional_call_iff h c) hempty]
  exact forall₂_congr fun past _ => ⟨fun h => ⟨h.live, h.asOf⟩, fun h => ⟨h.1, h.2⟩⟩

end GraphStore

end

/-! ## Where she lives -/

/-- The first days of a year. -/
def newYear : Clock (Fin 5) where
  toRfc3339 day := "2026-01-0".push (Char.ofNat (49 + day)) ++ "T00:00:00+00:00"
  strictMono := by decide +kernel

/-- An entity of the example, by a number for its id. -/
def place (n : ℕ) : Entity (Fin 5) :=
  { id := Env.bytesOf 32 n, entityType := "city", canonical := "", visibility := .pub
    createdAt := 0, updatedAt := 0 }

/-- A day of the new year. -/
def day (n : ℕ) : Fin 5 := Fin.ofNat 5 n

/-- That she lives there. -/
def livesIn (n : ℕ) (assertedAt : Fin 5) : Triple (Fin 5) :=
  { fromId := Env.bytesOf 32 0, toId := Env.bytesOf 32 n, predicate := "lives_in", confidence := 1
    sourceDocId := none, sourceBrainId := Vector.replicate 32 0, assertedAt, visibility := .pub }

/-- She moves twice, and the first move is undone. -/
def moves : List (GraphCall (Fin 5)) :=
  [.upsertEntity (place 0), .upsertEntity (place 1), .upsertEntity (place 2), .upsertEntity (place 3),
    .insertTripleSuperseding (livesIn 1 0) none 0, .insertTripleSuperseding (livesIn 2 1) none 0,
    .insertTripleSuperseding (livesIn 3 2) none 0, .undoSupersession 2 3]

/-- Two cities are live: the undo reinstates the first one beside the third. -/
theorem two_homes :
    ¬ OneObject ((run (GraphStore.call newYear) GraphStore.empty moves).findTriples
      (some (Env.bytesOf 32 0)) none (some "lives_in")) := by
  have hlive : (run (GraphStore.call newYear) GraphStore.empty moves).findTriples
      (some (Env.bytesOf 32 0)) none (some "lives_in") = [livesIn 1 0, livesIn 3 2] := by
    decide +kernel
  rw [hlive]
  intro h
  exact absurd (h (livesIn 1 0) (by simp) (livesIn 3 2) (by simp)) (by decide +kernel)

end Spectral
