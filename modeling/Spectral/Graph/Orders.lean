import Mathlib.Logic.Nontrivial.Basic
import Spectral.Graph.Assert
import Spectral.Graph.Lockstep

/-!
# Assertions in another order

An assertion writes the rows of both entities that it joins anew, with its own visibility and time,
and adds a triple.  Between assertions that share no entity the order does not matter; of those
that share one the last decides what its row says.

* `Records` — what the store of a strict brain has after assertions were made.
* `alike_of_projections` — orders that agree at each entity leave stores that are walked alike.
* `orderFree_iff` — whose order does not matter: assertions of which no two name an entity.
-/

namespace Spectral

open Spectral.Lib

variable {ι : Type}

/-- The arguments of a call of `assert`. -/
structure Assertion where
  subject : String
  predicate : String
  object : String
  confidence : ℚ := 1
  visibility : Visibility
  deriving DecidableEq

/-! ## A strict brain -/

section

variable (env : Env) (lib : TextLibrary) (o : PredicateOntology)

/-- The entities an assertion joins; none, if it is refused. -/
def PredicateOntology.joins (a : Assertion) : Option (MatchedMention × MatchedMention) :=
  match o.predicates.find? fun p => p.name = a.predicate,
    lib.resolveOne env o.toOntology a.subject, lib.resolveOne env o.toOntology a.object with
  | some p, some subject, some object =>
    if subject.entityType ∈ p.domain ∧ object.entityType ∈ p.range then some (subject, object)
    else none
  | _, _, _ => none

/-- The entities an assertion names, if it goes through. -/
def PredicateOntology.endsOf (a : Assertion) : List EntityId :=
  match o.joins env lib a with
  | some (subject, object) => [subject.entityId, object.entityId]
  | none => []

/-- No entity is named by both. -/
def PredicateOntology.Apart (a a' : Assertion) : Prop :=
  ∀ id ∈ o.endsOf env lib a, id ∉ o.endsOf env lib a'

instance (a a' : Assertion) : Decidable (o.Apart env lib a a') :=
  inferInstanceAs (Decidable (∀ id ∈ o.endsOf env lib a, id ∉ o.endsOf env lib a'))

end

/-- An assertion and the time it is made at. -/
abbrev TimedAssertion (ι : Type) := Assertion × ι

/-- The rest of the arguments. -/
def TimedAssertion.args (x : TimedAssertion ι) : AssertArgs ι :=
  { confidence := x.1.confidence, visibility := x.1.visibility, now := x.2 }

/-- The triple of an assertion. -/
def TimedAssertion.edge (brainId : Bytes32) (x : TimedAssertion ι)
    (ends : MatchedMention × MatchedMention) : Triple ι :=
  { fromId := ends.1.entityId, toId := ends.2.entityId, predicate := x.1.predicate
    confidence := x.1.confidence, sourceDocId := none, sourceBrainId := brainId, assertedAt := x.2
    visibility := x.1.visibility }

namespace AssertingBrain

/-- `assert`, at a time. -/
def assertAt [LinearOrder ι] (env : Env) (lib : TextLibrary) (clock : Clock ι) (b : AssertingBrain ι)
    (x : TimedAssertion ι) : AssertingBrain ι :=
  (b.assert env lib clock x.args x.1.subject x.1.predicate x.1.object).1

/-- A brain that only knows its ontology, and whose predicates are not functional. -/
structure Strict (o : PredicateOntology) (b : AssertingBrain ι) : Prop where
  ontology : b.ontology = o
  entityPolicy : b.entityPolicy = .strict
  readOnly : b.readOnly = false
  runtimeEntities : b.runtimeEntities = []

variable {env : Env} {lib : TextLibrary} {o : PredicateOntology} {b : AssertingBrain ι}

/-- A mention is an entity of the ontology, or none. -/
theorem Strict.resolveWith (h : b.Strict o) (args : AssertArgs ι) (mention : String)
    (newType : Except AssertError String) :
    b.resolveWith env lib args mention newType =
      (b, match lib.resolveOne env o.toOntology mention with
        | some m => .ok m
        | none => .error (.unresolvedMention mention (lib.findNearest o.toOntology mention))) := by
  have hlookup : b.lookup env lib mention = lib.resolveOne env o.toOntology mention := by
    simp [lookup, resolveFromRuntime, h.runtimeEntities, h.ontology]
  unfold AssertingBrain.resolveWith
  rw [hlookup, h.entityPolicy, h.ontology]
  cases lib.resolveOne env o.toOntology mention <;> rfl

variable [LinearOrder ι] {clock : Clock ι}

/-- Both rows are written, then the triple. -/
def joined (b : AssertingBrain ι) (x : TimedAssertion ι) (ends : MatchedMention × MatchedMention) :
    GraphStore ι :=
  ((b.store.upsertEntity (endRow x.args ends.1)).upsertEntity (endRow x.args ends.2)).insertTriple
    (x.edge b.brainId ends)

/-- **An assertion.** -/
theorem Strict.assertAt (h : b.Strict o)
    (hplain : ∀ p ∈ o.predicates, p.singleValued = false ∧ p.singleValuedFor = [])
    (x : TimedAssertion ι) :
    b.assertAt env lib clock x =
      match o.joins env lib x.1 with
      | none => b
      | some ends => { b with store := b.joined x ends } := by
  obtain rfl := h.ontology
  unfold AssertingBrain.assertAt AssertingBrain.assert AssertingBrain.declared
    PredicateOntology.joins
  rw [if_neg (by simp [h.readOnly])]
  cases hp : b.ontology.predicates.find? fun p => p.name = x.1.predicate with
  | none => rfl
  | some p =>
    dsimp only
    unfold resolveBoth
    rw [h.resolveWith]
    cases hs : lib.resolveOne env b.ontology.toOntology x.1.subject with
    | none => rfl
    | some s =>
      dsimp only
      rw [h.resolveWith]
      cases ho : lib.resolveOne env b.ontology.toOntology x.1.object with
      | none => rfl
      | some ob =>
        have hmap : (Except.ok ob : Except AssertError MatchedMention).map (fun o => (s, o)) =
            .ok (s, ob) := rfl
        have hsingle : b.ontology.predicateIsSingleValued x.1.predicate s.entityType = false := by
          rw [PredicateOntology.predicateIsSingleValued, List.any_eq_false]
          intro q hq
          obtain ⟨hvalued, hvaluedFor⟩ := hplain q hq
          simp [hvalued, hvaluedFor]
        simp only [hmap]
        unfold checkTypes
        by_cases hd : s.entityType ∈ p.domain
        · by_cases hr : ob.entityType ∈ p.range
          · simp only [hd, hr, not_true, if_false, and_self, if_true]
            unfold writeTripleWithDoc
            simp only [hsingle, Bool.false_eq_true, if_false]
            rfl
          · simp [hd, hr]
        · simp [hd]

end AssertingBrain

/-! ## What the store has -/

namespace GraphStore

variable {g : GraphStore ι} {e : Entity ι}

/-- A row after an upsert: one of another entity, or the new one. -/
theorem of_mem_upsertEntity {a : Entity ι} (h : a ∈ (g.upsertEntity e).entities) :
    (a ∈ g.entities ∧ a.id ≠ e.id) ∨
      (a.id = e.id ∧ a.visibility = e.visibility ∧ a.createdAt = e.createdAt) := by
  rcases mem_upsertEntity.1 h with hold | ⟨old, -, -, rfl⟩ | ⟨-, rfl⟩
  · exact Or.inl hold
  · exact Or.inr ⟨rfl, rfl, rfl⟩
  · exact Or.inr ⟨rfl, rfl, rfl⟩

theorem exists_id_upsertEntity {id : EntityId} :
    (∃ a ∈ (g.upsertEntity e).entities, a.id = id) ↔ (∃ a ∈ g.entities, a.id = id) ∨ e.id = id := by
  have hkey : ∀ old : Entity ι, old.id = ({ e with description := none } : Entity ι).id →
      ({ e with description := old.description } : Entity ι).id =
        ({ e with description := none } : Entity ι).id := fun _ _ => rfl
  exact @Table.exists_key_upsert _ _ _ Entity.id _ _ hkey g.entities id

end GraphStore

namespace AssertingBrain

variable {b : AssertingBrain ι} {x : TimedAssertion ι} {subject object : MatchedMention}

theorem hasEndpoints_upserts :
    ((b.store.upsertEntity (endRow x.args subject)).upsertEntity
      (endRow x.args object)).HasEndpoints (x.edge b.brainId (subject, object)) :=
  ⟨GraphStore.exists_id_upsertEntity.2 (Or.inl (GraphStore.exists_id_upsertEntity.2 (Or.inr rfl))),
    GraphStore.exists_id_upsertEntity.2 (Or.inr rfl)⟩

theorem stored_joined :
    (b.joined x (subject, object)).stored = b.store.stored ++ [x.edge b.brainId (subject, object)] := by
  unfold joined GraphStore.stored
  rw [GraphStore.triples_insertTriple, if_pos hasEndpoints_upserts, List.map_append]
  rfl

theorem entities_joined : (b.joined x (subject, object)).entities =
    ((b.store.upsertEntity (endRow x.args subject)).upsertEntity
      (endRow x.args object)).entities := by
  unfold joined GraphStore.insertTriple
  rw [dif_pos hasEndpoints_upserts]

/-- A row after an assertion: one that is not named, or one that the assertion wrote. -/
theorem of_mem_joined {e : Entity ι} (h : e ∈ (b.joined x (subject, object)).entities) :
    (e ∈ b.store.entities ∧ e.id ∉ [subject.entityId, object.entityId]) ∨
      (e.id ∈ [subject.entityId, object.entityId] ∧ e.visibility = x.1.visibility ∧
        e.createdAt = x.2) := by
  rw [entities_joined] at h
  rcases GraphStore.of_mem_upsertEntity h with ⟨h, hobject⟩ | ⟨hobject, hrow⟩
  · rcases GraphStore.of_mem_upsertEntity h with ⟨h, hsubject⟩ | ⟨hsubject, hrow⟩
    · refine Or.inl ⟨h, fun hmem => ?_⟩
      rcases List.mem_cons.1 hmem with heq | hmem
      · exact hsubject heq
      · exact hobject (List.mem_singleton.1 hmem)
    · exact Or.inr ⟨List.mem_cons.2 (Or.inl hsubject), hrow⟩
  · exact Or.inr ⟨List.mem_cons_of_mem _ (List.mem_singleton.2 hobject), hrow⟩

theorem exists_id_joined {id : EntityId} :
    (∃ e ∈ (b.joined x (subject, object)).entities, e.id = id) ↔
      (∃ e ∈ b.store.entities, e.id = id) ∨ id ∈ [subject.entityId, object.entityId] := by
  rw [entities_joined, GraphStore.exists_id_upsertEntity, GraphStore.exists_id_upsertEntity, or_assoc]
  refine or_congr_right ?_
  rw [List.mem_cons, List.mem_singleton]
  exact or_congr eq_comm eq_comm

end AssertingBrain

section

variable (env : Env) (lib : TextLibrary) (o : PredicateOntology) (brainId : Bytes32)

/-- The triple of an assertion that goes through. -/
def tripleOf (x : TimedAssertion ι) : Option (Triple ι) :=
  (o.joins env lib x.1).map (x.edge brainId)

/-- The assertions that name an entity. -/
def naming (r : List (TimedAssertion ι)) (id : EntityId) : List (TimedAssertion ι) :=
  r.filter fun x => decide (id ∈ o.endsOf env lib x.1)

/-- The store after assertions were made: of an entity it has what the last of those that name it
wrote, and of every one that went through the triple. -/
structure Records (r : List (TimedAssertion ι)) (g : GraphStore ι) : Prop where
  entities : ∀ e ∈ g.entities, ∃ x, (naming env lib o r e.id).getLast? = some x ∧
    e.visibility = x.1.visibility ∧ e.createdAt = x.2
  named : ∀ x ∈ r, ∀ id ∈ o.endsOf env lib x.1, ∃ e ∈ g.entities, e.id = id
  stored : g.stored = r.filterMap (tripleOf env lib o brainId)

variable {env lib o brainId} {r r' : List (TimedAssertion ι)} {g g' : GraphStore ι}

theorem endsOf_of_joins {a : Assertion} {subject object : MatchedMention}
    (h : o.joins env lib a = some (subject, object)) :
    o.endsOf env lib a = [subject.entityId, object.entityId] := by
  rw [PredicateOntology.endsOf, h]

theorem endsOf_eq_nil {a : Assertion} (h : o.joins env lib a = none) : o.endsOf env lib a = [] := by
  rw [PredicateOntology.endsOf, h]

theorem naming_append (r r' : List (TimedAssertion ι)) (id : EntityId) :
    naming env lib o (r ++ r') id = naming env lib o r id ++ naming env lib o r' id :=
  List.filter_append ..

/-- The last assertion that names an entity. -/
theorem naming_concat_of_mem {x : TimedAssertion ι} {id : EntityId} (h : id ∈ o.endsOf env lib x.1) :
    naming env lib o (r ++ [x]) id = naming env lib o r id ++ [x] := by
  rw [naming_append]
  simp [naming, h]

theorem naming_concat_of_notMem {x : TimedAssertion ι} {id : EntityId}
    (h : id ∉ o.endsOf env lib x.1) :
    naming env lib o (r ++ [x]) id = naming env lib o r id := by
  rw [naming_append]
  simp [naming, h]

end

namespace AssertingBrain

variable {env : Env} {lib : TextLibrary} {o : PredicateOntology} {b : AssertingBrain ι}
  {r : List (TimedAssertion ι)} [LinearOrder ι] {clock : Clock ι}

/-- **One more assertion.** -/
theorem records_assertAt (hstrict : b.Strict o)
    (hplain : ∀ p ∈ o.predicates, p.singleValued = false ∧ p.singleValuedFor = [])
    (h : Records env lib o b.brainId r b.store) (x : TimedAssertion ι) :
    (b.assertAt env lib clock x).Strict o ∧ (b.assertAt env lib clock x).brainId = b.brainId ∧
      Records env lib o b.brainId (r ++ [x]) (b.assertAt env lib clock x).store := by
  rw [hstrict.assertAt hplain]
  cases hjoins : o.joins env lib x.1 with
  | none =>
    have hends := endsOf_eq_nil hjoins
    refine ⟨hstrict, rfl, ?_, ?_, ?_⟩
    · intro e he
      rw [naming_concat_of_notMem (by simp [hends])]
      exact h.entities e he
    · intro y hy id hid
      rcases List.mem_append.1 hy with hy | hy
      · exact h.named y hy id hid
      · rw [List.mem_singleton.1 hy, hends] at hid
        exact absurd hid List.not_mem_nil
    · rw [List.filterMap_append, h.stored]
      simp [tripleOf, hjoins]
  | some ends =>
    obtain ⟨subject, object⟩ := ends
    have hends := endsOf_of_joins hjoins
    refine ⟨⟨hstrict.ontology, hstrict.entityPolicy, hstrict.readOnly, hstrict.runtimeEntities⟩, rfl,
      ?_, ?_, ?_⟩
    · intro e he
      rcases of_mem_joined he with ⟨he, hid⟩ | ⟨hid, hrow⟩
      · rw [← hends] at hid
        rw [naming_concat_of_notMem hid]
        exact h.entities e he
      · rw [← hends] at hid
        rw [naming_concat_of_mem hid]
        exact ⟨x, List.getLast?_concat, hrow⟩
    · intro y hy id hid
      refine exists_id_joined.2 ?_
      rcases List.mem_append.1 hy with hy | hy
      · exact Or.inl (h.named y hy id hid)
      · rw [List.mem_singleton.1 hy, hends] at hid
        exact Or.inr hid
    · show (b.joined x (subject, object)).stored = _
      rw [stored_joined, List.filterMap_append, h.stored]
      simp [tripleOf, hjoins]

/-- The brain after assertions. -/
def afterAssertions (env : Env) (lib : TextLibrary) (clock : Clock ι) (o : PredicateOntology)
    (brainId : Bytes32) (memories : Store) (r : List (TimedAssertion ι)) : AssertingBrain ι :=
  run (assertAt env lib clock) (opened o .strict false brainId memories) r

/-- **Any assertions.** -/
theorem records_afterAssertions (brainId : Bytes32) (memories : Store)
    (hplain : ∀ p ∈ o.predicates, p.singleValued = false ∧ p.singleValuedFor = [])
    (r : List (TimedAssertion ι)) :
    Records env lib o brainId r (afterAssertions env lib clock o brainId memories r).store := by
  have hrun : (afterAssertions env lib clock o brainId memories r).Strict o ∧
      (afterAssertions env lib clock o brainId memories r).brainId = brainId ∧
        Records env lib o brainId r (afterAssertions env lib clock o brainId memories r).store := by
    refine run_history
      (I := fun past (b : AssertingBrain ι) =>
        b.Strict o ∧ b.brainId = brainId ∧ Records env lib o brainId past b.store)
      (fun past b x ⟨hstrict, hbrain, h⟩ => ?_) ⟨⟨rfl, rfl, rfl, rfl⟩, rfl, ?_⟩
    · subst hbrain
      exact records_assertAt hstrict hplain h x
    · exact ⟨fun e he => absurd he (Table.not_mem_empty e), nofun, rfl⟩
  exact hrun.2.2

end AssertingBrain

/-! ## Orders that agree at each entity -/

section

variable {env : Env} {lib : TextLibrary} {o : PredicateOntology} {brainId : Bytes32}
  {r r' : List (TimedAssertion ι)} {g g' : GraphStore ι}

/-- Two timed assertions are the same but for the time. -/
def SameAssertion (x y : TimedAssertion ι) : Prop := x.1 = y.1

theorem forall₂_of_map_fst (h : r.map Prod.fst = r'.map Prod.fst) :
    List.Forall₂ SameAssertion r r' := by
  induction r generalizing r' with
  | nil =>
    rw [List.map_nil, eq_comm, List.map_eq_nil_iff] at h
    rw [h]
    exact .nil
  | cons x r ih =>
    obtain ⟨y, r'', rfl, hxy, hrest⟩ := List.map_eq_cons_iff.1 h.symm
    exact .cons hxy.symm (ih hrest.symm)

/-- The triples at an entity come from the assertions that name it. -/
theorem findTriplesDirected_eq (h : Records env lib o brainId r g) (id : EntityId) (outgoing : Bool) :
    g.findTriplesDirected id outgoing =
      ((naming env lib o r id).filterMap (tripleOf env lib o brainId)).filter
        fun t => decide (t.near outgoing = id) := by
  show g.stored.filter _ = _
  rw [h.stored]
  clear h
  induction r with
  | nil => rfl
  | cons x r ih =>
    unfold naming at ih ⊢
    cases hjoins : o.joins env lib x.1 with
    | none =>
      have hends := endsOf_eq_nil hjoins
      have hno : tripleOf env lib o brainId x = none := by simp [tripleOf, hjoins]
      rw [List.filterMap_cons_none hno, List.filter_cons_of_neg (by simp [hends])]
      exact ih
    | some ends =>
      have hends := endsOf_of_joins hjoins
      have htriple : tripleOf env lib o brainId x = some (x.edge brainId ends) := by
        simp [tripleOf, hjoins]
      rw [List.filterMap_cons_some htriple]
      by_cases hmem : id ∈ o.endsOf env lib x.1
      · rw [List.filter_cons_of_pos (p := fun x : TimedAssertion ι =>
          decide (id ∈ o.endsOf env lib x.1)) (by simpa using hmem),
          List.filterMap_cons_some htriple, List.filter_cons, List.filter_cons, ih]
      · have hnear : (x.edge brainId ends).near outgoing ≠ id := fun heq => by
          refine hmem ?_
          rw [hends, ← heq]
          cases outgoing <;> simp [Triple.near, TimedAssertion.edge]
        rw [List.filter_cons_of_neg (p := fun x : TimedAssertion ι =>
          decide (id ∈ o.endsOf env lib x.1)) (by simpa using hmem),
          List.filter_cons_of_neg (by simpa using hnear)]
        exact ih

theorem alike_tripleOf {x y : TimedAssertion ι} (h : SameAssertion x y) :
    Option.Rel Triple.Alike (tripleOf env lib o brainId x) (tripleOf env lib o brainId y) := by
  obtain ⟨a, now⟩ := x
  obtain ⟨a', now'⟩ := y
  obtain rfl : a = a' := h
  unfold tripleOf
  cases o.joins env lib a with
  | none => exact .none
  | some ends => exact .some ⟨rfl, rfl⟩

/-- **Orders that agree at each entity** leave stores that are walked alike: of assertions that
share no entity it does not matter which is made first. -/
theorem alike_of_projections (h : Records env lib o brainId r g) (h' : Records env lib o brainId r' g')
    (hproj : ∀ id, (naming env lib o r id).map Prod.fst = (naming env lib o r' id).map Prod.fst) :
    g.Alike g' where
  entities := by
    have hlast : ∀ {r r' : List (TimedAssertion ι)} {id : EntityId} {x : TimedAssertion ι},
        (naming env lib o r id).map Prod.fst = (naming env lib o r' id).map Prod.fst →
        (naming env lib o r id).getLast? = some x →
        ∃ y, (naming env lib o r' id).getLast? = some y ∧ y.1 = x.1 := by
      intro r r' id x hsame hx
      have hmap := congrArg List.getLast? hsame
      rw [List.getLast?_map, List.getLast?_map, hx, Option.map_some, eq_comm,
        Option.map_eq_some_iff] at hmap
      exact hmap
    have hstored : ∀ {r r' : List (TimedAssertion ι)} {g g' : GraphStore ι} {e : Entity ι},
        Records env lib o brainId r g → Records env lib o brainId r' g' →
        (∀ id, (naming env lib o r id).map Prod.fst = (naming env lib o r' id).map Prod.fst) →
        e ∈ g.entities → ∃ e' ∈ g'.entities, e'.id = e.id ∧ e'.visibility = e.visibility := by
      intro r r' g g' e h h' hproj he
      obtain ⟨x, hx, hvisible, -⟩ := h.entities e he
      obtain ⟨y, hy, hxy⟩ := hlast (hproj e.id) hx
      obtain ⟨hyr, hyid⟩ := List.mem_filter.1 (List.mem_of_getLast? hy)
      obtain ⟨e', he', hid⟩ := h'.named y hyr e.id (of_decide_eq_true hyid)
      obtain ⟨z, hz, hvisible', -⟩ := h'.entities e' he'
      rw [hid, hy] at hz
      cases hz
      exact ⟨e', he', hid, by rw [hvisible', hvisible, hxy]⟩
    intro id
    cases hget : g.getEntity id with
    | none =>
      cases hget' : g'.getEntity id with
      | none => exact .none
      | some e' =>
        obtain ⟨row', hrow', rfl, -⟩ := g'.getEntity_eq_some.1 hget'
        obtain ⟨e, he, hid, -⟩ := hstored h' h (fun id => (hproj id).symm) hrow'
        have hsome : g.getEntity row'.id = some e.fromRow :=
          g.getEntity_eq_some.2 ⟨e, he, hid, rfl⟩
        rw [hget] at hsome
        cases hsome
    | some e =>
      obtain ⟨row, hrow, rfl, rfl⟩ := g.getEntity_eq_some.1 hget
      obtain ⟨e', he', hid, hvisible⟩ := hstored h h' hproj hrow
      rw [g'.getEntity_eq_some.2 ⟨e', he', hid, rfl⟩]
      exact .some ⟨hid.symm, hvisible.symm⟩
  triples := by
    intro id outgoing
    rw [findTriplesDirected_eq h, findTriplesDirected_eq h']
    refine List.rel_filter (fun t t' ht => ?_)
      (List.rel_filterMap (fun x y hxy => alike_tripleOf hxy) (forall₂_of_map_fst (hproj id)))
    show decide (t.near outgoing = id) = true ↔ decide (t'.near outgoing = id) = true
    rw [Triple.near_eq_of_edge ht.edge]

end

/-! ## Every order -/

/-- An order in which the assertions are made, by a clock that does not run backwards. -/
structure OrderOf [LinearOrder ι] (assertions : List Assertion) (r : List (TimedAssertion ι)) : Prop where
  assertions : (r.map Prod.fst).Perm assertions
  clock : (r.map Prod.snd).Pairwise (· ≤ ·)

section

variable [LinearOrder ι] (env : Env) (lib : TextLibrary) (clock : Clock ι) (o : PredicateOntology)
  (brainId : Bytes32) (memories : Store)

/-- The store after an order. -/
def graphAfter (r : List (TimedAssertion ι)) : GraphStore ι :=
  (AssertingBrain.afterAssertions env lib clock o brainId memories r).store

/-- What a context is told about a query after an order. -/
def toldAfter (r : List (TimedAssertion ι)) (query : String) (v : Visibility) : Neighborhood ι :=
  (GraphBrain.recallGraph env lib ⟨o.toOntology, graphAfter env lib clock o brainId memories r⟩ query
    v).neighborhood

/-- The order does not matter: a recall finds the same entities and the same triples after any two
orders; the ends of a triple that a context may see it may see too; and an entity is as old as the
first assertion that names it. -/
structure OrderFree (assertions : List Assertion) : Prop where
  recalls : ∀ r r' : List (TimedAssertion ι), OrderOf assertions r → OrderOf assertions r' →
    ∀ query v,
      (∀ id, (∃ e ∈ (toldAfter env lib clock o brainId memories r query v).entities, e.id = id) ↔
        ∃ e ∈ (toldAfter env lib clock o brainId memories r' query v).entities, e.id = id) ∧
      ∀ edge, (∃ t ∈ (toldAfter env lib clock o brainId memories r query v).triples, t.edge = edge) ↔
        ∃ t ∈ (toldAfter env lib clock o brainId memories r' query v).triples, t.edge = edge
  admissible : ∀ r : List (TimedAssertion ι), OrderOf assertions r →
    ∀ t ∈ (graphAfter env lib clock o brainId memories r).stored, ∀ v, t.visibility.allows v = true →
      ∀ e ∈ (graphAfter env lib clock o brainId memories r).entities,
        e.id = t.fromId ∨ e.id = t.toId → e.visibility.allows v = true
  createdAt : ∀ r : List (TimedAssertion ι), OrderOf assertions r →
    ∀ e ∈ (graphAfter env lib clock o brainId memories r).entities,
      ∀ x ∈ (naming env lib o r e.id).head?, e.createdAt = x.2

variable {env lib clock o brainId memories} {assertions : List Assertion}
  {r r' : List (TimedAssertion ι)}

omit [LinearOrder ι] in
theorem map_fst_naming (r : List (TimedAssertion ι)) (id : EntityId) :
    (naming env lib o r id).map Prod.fst =
      (r.map Prod.fst).filter fun a => decide (id ∈ o.endsOf env lib a) := by
  rw [List.filter_map]
  rfl

omit [LinearOrder ι] in
/-- An entity is named once at most. -/
theorem length_naming_le_one (hapart : assertions.Pairwise (o.Apart env lib)) (id : EntityId) :
    (assertions.filter fun a => decide (id ∈ o.endsOf env lib a)).length ≤ 1 := by
  have hfilter := hapart.filter fun a => decide (id ∈ o.endsOf env lib a)
  have hmem : ∀ a ∈ assertions.filter fun a => decide (id ∈ o.endsOf env lib a),
      id ∈ o.endsOf env lib a := fun a ha => of_decide_eq_true (List.mem_filter.1 ha).2
  match hlist : assertions.filter fun a => decide (id ∈ o.endsOf env lib a) with
  | [] => simp
  | [_] => simp
  | a :: a' :: rest =>
    rw [hlist] at hfilter hmem
    have hdisjoint := (List.pairwise_cons.1 hfilter).1 a' List.mem_cons_self
    exact absurd (hmem a' (List.mem_cons_of_mem _ List.mem_cons_self))
      (hdisjoint id (hmem a List.mem_cons_self))

theorem OrderOf.length_naming_le_one (h : OrderOf assertions r)
    (hapart : assertions.Pairwise (o.Apart env lib)) (id : EntityId) :
    (naming env lib o r id).length ≤ 1 := by
  rw [← List.length_map Prod.fst, map_fst_naming,
    (h.assertions.filter fun a => decide (id ∈ o.endsOf env lib a)).length_eq]
  exact Spectral.length_naming_le_one hapart id

/-- So any two orders agree at it. -/
theorem OrderOf.projections (h : OrderOf assertions r) (h' : OrderOf assertions r')
    (hapart : assertions.Pairwise (o.Apart env lib)) (id : EntityId) :
    (naming env lib o r id).map Prod.fst = (naming env lib o r' id).map Prod.fst := by
  have hlength : ((naming env lib o r id).map Prod.fst).length ≤ 1 := by
    rw [List.length_map]
    exact h.length_naming_le_one hapart id
  have hperm : ((naming env lib o r id).map Prod.fst).Perm
      ((naming env lib o r' id).map Prod.fst) := by
    rw [map_fst_naming, map_fst_naming]
    exact (h.assertions.trans h'.assertions.symm).filter _
  match hlist : (naming env lib o r id).map Prod.fst with
  | [] =>
    rw [hlist] at hperm
    exact (List.nil_perm.1 hperm).symm
  | [a] =>
    rw [hlist] at hperm
    exact List.singleton_perm.1 hperm
  | _ :: _ :: _ =>
    rw [hlist] at hlength
    simp at hlength

/-- Assertions of which no two name an entity. -/
theorem orderFree_of_apart
    (hplain : ∀ p ∈ o.predicates, p.singleValued = false ∧ p.singleValuedFor = [])
    (hapart : assertions.Pairwise (o.Apart env lib)) :
    OrderFree env lib clock o brainId memories assertions := by
  have hrecords : ∀ r : List (TimedAssertion ι),
      Records env lib o brainId r (graphAfter env lib clock o brainId memories r) := fun r =>
    AssertingBrain.records_afterAssertions brainId memories hplain r
  -- the only assertion that names an entity
  have honly : ∀ (r : List (TimedAssertion ι)), OrderOf assertions r → ∀ {id : EntityId}
      {x y : TimedAssertion ι}, (naming env lib o r id).getLast? = some x →
      y ∈ naming env lib o r id → y = x := by
    intro r hr id x y hx hy
    have hlength := hr.length_naming_le_one hapart id
    match hlist : naming env lib o r id with
    | [] =>
      rw [hlist] at hy
      exact absurd hy List.not_mem_nil
    | [z] =>
      rw [hlist] at hx hy
      rw [List.mem_singleton.1 hy]
      exact Option.some.inj hx
    | _ :: _ :: _ =>
      rw [hlist] at hlength
      simp at hlength
  refine ⟨fun r r' hr hr' query v => ?_, fun r hr t ht v htv e he hend => ?_, fun r hr e he x hx => ?_⟩
  · have halike := alike_of_projections (hrecords r) (hrecords r') (hr.projections hr' hapart)
    obtain ⟨hentities, htriples⟩ := alike_recallGraph env lib o.toOntology halike query v
    have hids := List.forall₂_eq_eq_eq ▸ List.rel_map (fun a b hab => Entity.Alike.id hab) hentities
    have hedges := List.forall₂_eq_eq_eq ▸ List.rel_map (fun a b hab => Triple.Alike.edge hab) htriples
    refine ⟨fun id => ?_, fun edge => ?_⟩
    · rw [← List.mem_map, ← List.mem_map]
      exact iff_of_eq (congrArg (id ∈ ·) hids)
    · rw [← List.mem_map, ← List.mem_map]
      exact iff_of_eq (congrArg (edge ∈ ·) hedges)
  · rw [(hrecords r).stored] at ht
    obtain ⟨y, hy, hty⟩ := List.mem_filterMap.1 ht
    obtain ⟨ends, hjoins, rfl⟩ := Option.map_eq_some_iff.1 hty
    have hnames : e.id ∈ o.endsOf env lib y.1 := by
      rw [endsOf_of_joins hjoins]
      rcases hend with hend | hend
      · exact List.mem_cons.2 (Or.inl hend)
      · exact List.mem_cons_of_mem _ (List.mem_singleton.2 hend)
    obtain ⟨x, hx, hvisible, -⟩ := (hrecords r).entities e he
    rw [hvisible, ← honly r hr hx (List.mem_filter.2 ⟨hy, decide_eq_true hnames⟩)]
    exact htv
  · obtain ⟨y, hy, -, htime⟩ := (hrecords r).entities e he
    rw [htime, honly r hr hy (List.mem_of_mem_head? hx)]

/-- The first assertions at one time, and the rest at a later one. -/
def madeAt (assertions : List Assertion) (n : ℕ) (earlier later : ι) : List (TimedAssertion ι) :=
  (assertions.take n).map (fun a => (a, earlier)) ++ (assertions.drop n).map fun a => (a, later)

theorem orderOf_madeAt (assertions : List Assertion) (n : ℕ) {earlier later : ι}
    (h : earlier ≤ later) : OrderOf assertions (madeAt assertions n earlier later) where
  assertions := by
    simp [madeAt, Function.comp_def]
  clock := by
    unfold madeAt
    rw [List.map_append, List.map_map, List.map_map]
    refine List.pairwise_append.2 ⟨?_, ?_, ?_⟩
    · exact List.pairwise_map.2 (List.pairwise_of_forall fun _ _ => le_refl _)
    · exact List.pairwise_map.2 (List.pairwise_of_forall fun _ _ => le_refl _)
    · intro a ha b hb
      obtain ⟨_, -, rfl⟩ := List.mem_map.1 ha
      obtain ⟨_, -, rfl⟩ := List.mem_map.1 hb
      exact h

/-- Two assertions that name an entity: its row is as old as the second one. -/
theorem apart_of_orderFree [Nontrivial ι]
    (hplain : ∀ p ∈ o.predicates, p.singleValued = false ∧ p.singleValuedFor = [])
    (h : OrderFree env lib clock o brainId memories assertions) :
    assertions.Pairwise (o.Apart env lib) := by
  refine List.pairwise_iff_getElem.2 fun i j hi hj hij id hid hid' => ?_
  obtain ⟨earlier, later, hlt⟩ := exists_pair_lt ι
  have hrecords : Records env lib o brainId (madeAt assertions (i + 1) earlier later)
      (graphAfter env lib clock o brainId memories (madeAt assertions (i + 1) earlier later)) :=
    AssertingBrain.records_afterAssertions brainId memories hplain _
  have hfirst : assertions[i] ∈ assertions.take (i + 1) :=
    List.mem_take_iff_getElem.2 ⟨i, by omega, rfl⟩
  have hsecond : assertions[j] ∈ assertions.drop (i + 1) :=
    List.mem_drop_iff_getElem.2 ⟨j - (i + 1), by omega, by congr 1; omega⟩
  have hfirst' : (assertions[i], earlier) ∈
      naming env lib o ((assertions.take (i + 1)).map fun a => (a, earlier)) id :=
    List.mem_filter.2 ⟨List.mem_map_of_mem hfirst, decide_eq_true hid⟩
  have hsecond' : (assertions[j], later) ∈
      naming env lib o ((assertions.drop (i + 1)).map fun a => (a, later)) id :=
    List.mem_filter.2 ⟨List.mem_map_of_mem hsecond, decide_eq_true hid'⟩
  obtain ⟨e, he, rfl⟩ := hrecords.named (assertions[i], earlier)
    (List.mem_append_left _ (List.mem_map_of_mem hfirst)) id hid
  obtain ⟨y, hy, -, htime⟩ := hrecords.entities e he
  -- the first assertion that names the entity is one of the earlier ones
  have hold : e.createdAt = earlier := by
    obtain ⟨x, hx⟩ := Option.isSome_iff_exists.1
      (List.isSome_head?.2 (List.ne_nil_of_mem hfirst'))
    have hxr : x ∈ (naming env lib o (madeAt assertions (i + 1) earlier later) e.id).head? := by
      unfold madeAt
      rw [naming_append, List.head?_append, hx]
      rfl
    rw [h.createdAt _ (orderOf_madeAt assertions (i + 1) hlt.le) e he x hxr]
    obtain ⟨_, -, rfl⟩ := List.mem_map.1 (List.mem_filter.1 (List.mem_of_mem_head? hx)).1
    rfl
  -- and the last one of the later ones
  have hnew : e.createdAt = later := by
    rw [htime]
    obtain ⟨x, hx⟩ := Option.isSome_iff_exists.1
      (List.getLast?_isSome.2 (List.ne_nil_of_mem hsecond'))
    unfold madeAt at hy
    rw [naming_append, List.getLast?_append, hx] at hy
    cases hy
    obtain ⟨_, -, rfl⟩ := List.mem_map.1 (List.mem_filter.1 (List.mem_of_getLast? hx)).1
    rfl
  exact absurd (hold.symm.trans hnew) hlt.ne

/-- **Whose order does not matter**: assertions of which no two that go through name an entity. -/
theorem orderFree_iff (env : Env) (lib : TextLibrary) (clock : Clock ι) (o : PredicateOntology)
    (brainId : Bytes32) (memories : Store)
    (hplain : ∀ p ∈ o.predicates, p.singleValued = false ∧ p.singleValuedFor = []) [Nontrivial ι]
    (assertions : List Assertion) :
    OrderFree env lib clock o brainId memories assertions ↔
      assertions.Pairwise (o.Apart env lib) :=
  ⟨apart_of_orderFree hplain, orderFree_of_apart hplain⟩

end

/-! ## An entity that two assertions name -/

/-- Whether somebody knows somebody. -/
def knows : OntologyPredicate := { name := "knows", domain := ["person"], range := ["person"] }

theorem nodup_knows : ([knows].map OntologyPredicate.name).Nodup := by decide

/-- Four people, and who knows whom. -/
def fourPeople : PredicateOntology where
  entities :=
    [{ entityType := "person", canonical := "ada", visibility := .pub },
      { entityType := "person", canonical := "bob", visibility := .pub },
      { entityType := "person", canonical := "eve", visibility := .pub },
      { entityType := "person", canonical := "kim", visibility := .pub }]
  named := by decide
  canonicalsPerType := by decide
  predicates := [knows]
  predicateNames := nodup_knows
  knownTypes := by decide

/-- Their ids are 1 to 4. -/
def fourPeopleEnv : Env := .ofRecords
  [(entitySalt ++ utf8 "person" ++ utf8 ":" ++ utf8 "ada", 1),
    (entitySalt ++ utf8 "person" ++ utf8 ":" ++ utf8 "bob", 2),
    (entitySalt ++ utf8 "person" ++ utf8 ":" ++ utf8 "eve", 3),
    (entitySalt ++ utf8 "person" ++ utf8 ":" ++ utf8 "kim", 4)] []

/-- Ada knows Bob, publicly. -/
def adaKnowsBob : Assertion :=
  { subject := "ada", predicate := "knows", object := "bob", visibility := .pub }

/-- Ada knows Eve, privately. -/
def adaKnowsEve : Assertion :=
  { subject := "ada", predicate := "knows", object := "eve", visibility := .priv }

/-- Eve knows Kim, privately. -/
def eveKnowsKim : Assertion :=
  { subject := "eve", predicate := "knows", object := "kim", visibility := .priv }

theorem orderFree_iff_strangers :
    OrderFree fourPeopleEnv .plain newYear fourPeople (Env.bytesOf 32 0) {}
      [adaKnowsBob, eveKnowsKim] := by
  have hplain : ∀ p ∈ fourPeople.predicates, p.singleValued = false ∧ p.singleValuedFor = [] := by
    decide
  have hapart : [adaKnowsBob, eveKnowsKim].Pairwise (fourPeople.Apart fourPeopleEnv .plain) := by
    decide +kernel
  exact (orderFree_iff fourPeopleEnv .plain newYear fourPeople (Env.bytesOf 32 0) {} hplain _).2 hapart

/-- Made second, the private assertion hides Ada, who is an end of a public triple; and her row is
as old as the second assertion. -/
theorem second_assertion_hides_ada :
    ((toldAfter fourPeopleEnv .plain newYear fourPeople (Env.bytesOf 32 0) {}
        [(adaKnowsBob, day 0), (adaKnowsEve, day 1)] "ada" .pub).entities.map Entity.canonical) =
      ["bob"] ∧
    ((toldAfter fourPeopleEnv .plain newYear fourPeople (Env.bytesOf 32 0) {}
        [(adaKnowsBob, day 0), (adaKnowsEve, day 1)] "ada" .pub).triples.map Triple.visibility) =
      [.pub] ∧
    ((toldAfter fourPeopleEnv .plain newYear fourPeople (Env.bytesOf 32 0) {}
        [(adaKnowsEve, day 0), (adaKnowsBob, day 1)] "ada" .pub).entities.map Entity.canonical) =
      ["ada", "bob"] ∧
    (((graphAfter fourPeopleEnv .plain newYear fourPeople (Env.bytesOf 32 0) {}
        [(adaKnowsBob, day 0), (adaKnowsEve, day 1)]).entities.rows.map fun e =>
          (e.canonical, e.createdAt)) = [("ada", day 1), ("bob", day 0), ("eve", day 1)]) := by
  decide +kernel

end Spectral
