import Spectral.Lib.Run
import Spectral.Graph.Interference
import Spectral.Graph.Supersession

/-!
# Assertions

An assertion resolves two mentions to entities, creating them if the policy allows, and writes a
triple between them.  Which types a predicate may join is declared in the ontology.

* `assert` — the types are those of the entities that were found.
* `assertTyped`, `assertTypedFrom` — the caller names two types.  They are what is checked against
  the predicate, and what an entity that has to be created gets; an entity that is found keeps its
  own.
* `TypeSafe` — every triple joins entities of types its predicate allows; `typeSafe_assertions`
  says which runs keep it.
-/

namespace Spectral

open Spectral.Lib

/-- `OntologyPredicate`. -/
structure OntologyPredicate where
  name : String
  /-- The types allowed as subject. -/
  domain : List String
  /-- The types allowed as object. -/
  range : List String
  singleValued : Bool := false
  singleValuedFor : List String := []
  deriving DecidableEq

/-- `Ontology`, with its predicates: what `validate` checks of them. -/
structure PredicateOntology extends Ontology where
  predicates : List OntologyPredicate
  predicateNames : (predicates.map OntologyPredicate.name).Nodup
  knownTypes : ∀ p ∈ predicates, ∀ t ∈ p.domain ++ p.range, ∃ e ∈ entities, e.entityType = t

/-- `EntityPolicy`. -/
inductive EntityPolicy where
  | strict
  | autoCreate
  | autoCreateWithCanonicalizer (f : String → String)

/-- The errors of an assertion. -/
inductive AssertError where
  | readOnly (op : String)
  | ontology (message : String)
  | schema (message : String)
  | unresolvedMention (mention : String) (nearest : Option String)
  | invalidPredicate (predicate subjectType objectType : String)
  | ambiguousEntityType (mention predicate : String) (allowed : List String)
  /-- The ontology file could not be rewritten. -/
  | file (message : String)
  deriving DecidableEq

/-- What an assertion comes with: the arguments beside the mentions, the clock, the row id the
connection inserted last, and how the ontology file takes an entity. -/
structure AssertArgs (ι : Type) where
  confidence : ℚ := 1
  visibility : Visibility := .priv
  now : ι
  lastInsertRowid : ℕ := 0
  file : OntologyEntity → Option AssertError := fun _ => none

/-- `AssertResult`. -/
structure AssertResult where
  tripleWritten : Bool
  subject : MatchedMention
  predicate : String
  object : MatchedMention
  superseded : ℕ

/-- What assertions read and write of a brain. -/
structure AssertingBrain (ι : Type) where
  ontology : PredicateOntology
  entityPolicy : EntityPolicy := .strict
  readOnly : Bool := false
  brainId : Bytes32
  memories : Store
  runtimeEntities : List OntologyEntity := []
  store : GraphStore ι

/-! ## Resolving a mention -/

/-- `infer_single_type`. -/
def inferSingleType (mention : String) (allowedTypes : Option (List String)) (predicate : String) :
    Except AssertError String :=
  match allowedTypes with
  | none => .error (.ontology s!"predicate '{predicate}' not found in ontology")
  | some [] => .error (.ontology s!"predicate '{predicate}' has no valid types")
  | some [single] => .ok single
  | some types => .error (.ambiguousEntityType mention predicate types)

/-- `NEAREST_THRESHOLD`. -/
def nearestThreshold : ℚ := 1 / 2

namespace TextLibrary

variable (lib : TextLibrary)

/-- The entity has the name, up to case; its canonical name is one of its aliases. -/
def isNamed (mention : String) (e : OntologyEntity) : Bool :=
  (e.canonical :: e.aliases).any fun name => lib.toLowercase name = lib.toLowercase mention

/-- `resolve_one`. -/
def resolveOne (env : Env) (o : Ontology) (mention : String) : Option MatchedMention :=
  match o.entities.find? (lib.isNamed mention) with
  | some e => some (env.matched mention e .exact)
  | none =>
    let (score, entity) := lib.bestFuzzyMatch o mention
    if defaultFuzzyThreshold ≤ score then
      entity.map fun e => env.matched mention e (.fuzzy score)
    else none

/-- `find_nearest`: the canonical name. -/
def findNearest (o : Ontology) (mention : String) : Option String :=
  let (score, entity) := lib.bestFuzzyMatch o mention
  if nearestThreshold ≤ score then entity.map OntologyEntity.canonical else none

end TextLibrary

/-- `eq_ignore_ascii_case`. -/
def eqIgnoreAsciiCase (a b : String) : Bool := a.toList.map Char.toLower = b.toList.map Char.toLower

/-- An alias added to an entity, unless it has it. -/
def OntologyEntity.withAlias (e : OntologyEntity) (name : String) : OntologyEntity :=
  if e.aliases.any fun a => eqIgnoreAsciiCase a name then e
  else { e with aliases := e.aliases ++ [name] }

/-- `predicate_is_single_valued`. -/
def PredicateOntology.predicateIsSingleValued (o : PredicateOntology) (predicate subjectType : String) :
    Bool :=
  o.predicates.any fun p => decide (p.name = predicate) &&
    (decide (subjectType ∈ p.singleValuedFor) ||
      p.singleValued && (p.domain.isEmpty || decide (subjectType ∈ p.domain)))

namespace AssertingBrain

variable {ι : Type}

section

variable (env : Env) (lib : TextLibrary) (b : AssertingBrain ι)

/-- The definition of a predicate. -/
def declared (predicate : String) : Option OntologyPredicate :=
  b.ontology.predicates.find? fun p => p.name = predicate

/-- `resolve_from_runtime`. -/
def resolveFromRuntime (mention : String) : Option MatchedMention :=
  (b.runtimeEntities.find? (lib.isNamed mention)).map fun e => env.matched mention e .exact

/-- An entity of the ontology, or else one that was created. -/
def lookup (mention : String) : Option MatchedMention :=
  (lib.resolveOne env b.ontology.toOntology mention).or (b.resolveFromRuntime env lib mention)

/-- `ensure_alias`: of the first created entity with the name and the type. -/
def ensureAlias (canonical entityType name : String) : AssertingBrain ι :=
  { b with
    runtimeEntities :=
      match b.runtimeEntities.findIdx? fun e => e.canonical = canonical ∧ e.entityType = entityType with
      | some i => b.runtimeEntities.modify i fun e => e.withAlias name
      | none => b.runtimeEntities }

/-- `auto_create_entity`. -/
def autoCreateEntity (args : AssertArgs ι) (canonical mention entityType : String) :
    AssertingBrain ι × Except AssertError MatchedMention :=
  let entity : OntologyEntity :=
    { entityType, canonical, aliases := if mention ≠ canonical then [mention] else []
      visibility := args.visibility }
  match args.file entity with
  | some e => (b, .error e)
  | none => ({ b with runtimeEntities := b.runtimeEntities ++ [entity] },
      .ok (env.matched mention entity .exact))

/-- A mention resolved, or an entity created for it; `newType` is the type it gets then. -/
def resolveWith (args : AssertArgs ι) (mention : String) (newType : Except AssertError String) :
    AssertingBrain ι × Except AssertError MatchedMention :=
  match b.lookup env lib mention with
  | some m => (b, .ok m)
  | none =>
    match b.entityPolicy with
    | .strict =>
      (b, .error (.unresolvedMention mention (lib.findNearest b.ontology.toOntology mention)))
    | .autoCreate =>
      match newType with
      | .error e => (b, .error e)
      | .ok entityType => b.autoCreateEntity env args mention mention entityType
    | .autoCreateWithCanonicalizer f =>
      match b.lookup env lib (f mention) with
      | some m => (b.ensureAlias m.canonical m.entityType mention, .ok m)
      | none =>
        match newType with
        | .error e => (b, .error e)
        | .ok entityType => b.autoCreateEntity env args (f mention) mention entityType

/-- `resolve_or_create`. -/
def resolveOrCreate (args : AssertArgs ι) (mention : String) (allowedTypes : Option (List String))
    (predicate : String) : AssertingBrain ι × Except AssertError MatchedMention :=
  b.resolveWith env lib args mention (inferSingleType mention allowedTypes predicate)

/-- `resolve_or_create_typed`. -/
def resolveOrCreateTyped (args : AssertArgs ι) (mention entityType : String) :
    AssertingBrain ι × Except AssertError MatchedMention :=
  b.resolveWith env lib args mention (.ok entityType)

/-! ## Writing a triple -/

/-- The row of an entity that is an end of a triple. -/
def endRow (args : AssertArgs ι) (m : MatchedMention) : Entity ι :=
  { id := m.entityId, entityType := m.entityType, canonical := m.canonical
    visibility := args.visibility, createdAt := args.now, updatedAt := args.now }

variable [LinearOrder ι] (clock : Clock ι)

/-- `write_triple_with_doc`. -/
def writeTripleWithDoc (args : AssertArgs ι) (subject : MatchedMention) (predicate : String)
    (object : MatchedMention) (sourceDocId : Option Bytes32) :
    AssertingBrain ι × Except AssertError AssertResult :=
  let store := (b.store.upsertEntity (endRow args subject)).upsertEntity (endRow args object)
  let edge : Triple ι :=
    { fromId := subject.entityId, toId := object.entityId, predicate, confidence := args.confidence
      sourceDocId, sourceBrainId := b.brainId, assertedAt := args.now, visibility := args.visibility }
  let (store, superseded) :=
    if b.ontology.predicateIsSingleValued predicate subject.entityType then
      store.insertTripleSuperseding clock edge args.lastInsertRowid
    else (store.insertTriple edge, 0)
  ({ b with store }, .ok { tripleWritten := true, subject, predicate, object, superseded })

/-- Both mentions resolved, one after the other. -/
def resolveBoth (args : AssertArgs ι) (subject : String) (subjectType : Except AssertError String)
    (object : String) (objectType : Except AssertError String) :
    AssertingBrain ι × Except AssertError (MatchedMention × MatchedMention) :=
  let (b₁, subjectMatch) := b.resolveWith env lib args subject subjectType
  match subjectMatch with
  | .error e => (b₁, .error e)
  | .ok s =>
    let (b₂, objectMatch) := b₁.resolveWith env lib args object objectType
    (b₂, objectMatch.map fun o => (s, o))

/-- The check of two types against a predicate. -/
def checkTypes (p : OntologyPredicate) (subjectType objectType : String) : Except AssertError Unit :=
  if subjectType ∉ p.domain then .error (.invalidPredicate p.name subjectType objectType)
  else if objectType ∉ p.range then .error (.invalidPredicate p.name subjectType objectType)
  else .ok ()

/-- `assert`. -/
def assert (args : AssertArgs ι) (subject predicate object : String) :
    AssertingBrain ι × Except AssertError AssertResult :=
  if b.readOnly then (b, .error (.readOnly "assert"))
  else
    match b.declared predicate with
    | none => (b, .error (.ontology s!"unknown predicate: '{predicate}'"))
    | some p =>
      match b.resolveBoth env lib args subject (inferSingleType subject (some p.domain) predicate)
          object (inferSingleType object (some p.range) predicate) with
      | (b', .error e) => (b', .error e)
      | (b', .ok (s, o)) =>
        match checkTypes p s.entityType o.entityType with
        | .error e => (b', .error e)
        | .ok () => b'.writeTripleWithDoc clock args s predicate o none

/-- `assert_typed_with_doc`. -/
def assertTypedWithDoc (args : AssertArgs ι) (subject : String × String) (predicate : String)
    (object : String × String) (sourceDocId : Option Bytes32) :
    AssertingBrain ι × Except AssertError AssertResult :=
  if b.readOnly then (b, .error (.readOnly "assert_typed"))
  else
    match b.resolveBoth env lib args subject.2 (.ok subject.1) object.2 (.ok object.1) with
    | (b', .error e) => (b', .error e)
    | (b', .ok (s, o)) =>
      match b.declared predicate with
      | none => b'.writeTripleWithDoc clock args s predicate o sourceDocId
      | some p =>
        match checkTypes p subject.1 object.1 with
        | .error e => (b', .error e)
        | .ok () => b'.writeTripleWithDoc clock args s predicate o sourceDocId

/-- `assert_typed`. -/
def assertTyped (args : AssertArgs ι) (subject : String × String) (predicate : String)
    (object : String × String) : AssertingBrain ι × Except AssertError AssertResult :=
  b.assertTypedWithDoc env lib clock args subject predicate object none

/-- `memory_doc_id`. -/
def memoryDocId (memoryId : String) : Except AssertError Bytes32 :=
  match b.memories.getMemory memoryId with
  | none => .error (.schema s!"unknown memory id: {memoryId}")
  | some memory => .ok (env.blake3 (utf8 memory.content))

/-- `assert_typed_from`. -/
def assertTypedFrom (args : AssertArgs ι) (memoryId : String) (subject : String × String)
    (predicate : String) (object : String × String) :
    AssertingBrain ι × Except AssertError AssertResult :=
  match b.memoryDocId env memoryId with
  | .error e => (b, .error e)
  | .ok doc => b.assertTypedWithDoc env lib clock args subject predicate object (some doc)

end

end AssertingBrain

/-- A call of one of the three. -/
inductive AssertCall (ι : Type) where
  | assert (args : AssertArgs ι) (subject predicate object : String)
  | assertTyped (args : AssertArgs ι) (subject : String × String) (predicate : String)
      (object : String × String)
  | assertTypedFrom (args : AssertArgs ι) (memoryId : String) (subject : String × String)
      (predicate : String) (object : String × String)

/-! ## Types of the ends -/

namespace GraphStore

variable {ι : Type}

/-- The entity with the id is stored, under the type. -/
def HasType (g : GraphStore ι) (id : EntityId) (entityType : String) : Prop :=
  ∃ e ∈ g.entities, e.id = id ∧ e.entityType = entityType

/-- A triple of the predicate joins a subject and an object of types that are allowed. -/
def Allowed (g : GraphStore ι) (p : OntologyPredicate) (t : Triple ι) : Prop :=
  (∃ d ∈ p.domain, g.HasType t.fromId d) ∧ ∃ r ∈ p.range, g.HasType t.toId r

/-- Every triple whose predicate is declared joins entities of types that are allowed. -/
def TypeSafe (predicates : List OntologyPredicate) (g : GraphStore ι) : Prop :=
  ∀ r ∈ g.triples, ∀ p ∈ predicates, p.name = r.triple.predicate → g.Allowed p r.triple

/-- An entity of the id, if there is one, has the type. -/
def Agrees (g : GraphStore ι) (id : EntityId) (entityType : String) : Prop :=
  ∀ e ∈ g.entities, e.id = id → e.entityType = entityType

instance (g : GraphStore ι) (id : EntityId) (entityType : String) :
    Decidable (g.HasType id entityType) :=
  inferInstanceAs (Decidable (∃ e ∈ g.entities.rows, e.id = id ∧ e.entityType = entityType))

instance (g : GraphStore ι) (p : OntologyPredicate) (t : Triple ι) : Decidable (g.Allowed p t) :=
  inferInstanceAs (Decidable
    ((∃ d ∈ p.domain, g.HasType t.fromId d) ∧ ∃ r ∈ p.range, g.HasType t.toId r))

instance (predicates : List OntologyPredicate) (g : GraphStore ι) :
    Decidable (g.TypeSafe predicates) :=
  inferInstanceAs (Decidable
    (∀ r ∈ g.triples, ∀ p ∈ predicates, p.name = r.triple.predicate → g.Allowed p r.triple))

instance (g : GraphStore ι) (id : EntityId) (entityType : String) :
    Decidable (g.Agrees id entityType) :=
  inferInstanceAs (Decidable (∀ e ∈ g.entities.rows, e.id = id → e.entityType = entityType))

variable {g g' : GraphStore ι} {e : Entity ι} {id : EntityId} {ty : String}

theorem mem_upsertEntity {a : Entity ι} : a ∈ (g.upsertEntity e).entities ↔
    (a ∈ g.entities ∧ a.id ≠ e.id) ∨
      (∃ old ∈ g.entities, old.id = e.id ∧ { e with description := old.description } = a) ∨
      ((∀ old ∈ g.entities, old.id ≠ e.id) ∧ a = { e with description := none }) := by
  have hkey : ∀ old : Entity ι, old.id = ({ e with description := none } : Entity ι).id →
      ({ e with description := old.description } : Entity ι).id =
        ({ e with description := none } : Entity ι).id := fun _ _ => rfl
  exact Table.mem_upsert hkey

theorem hasType_upsertEntity_self : (g.upsertEntity e).HasType e.id e.entityType := by
  by_cases h : ∃ a ∈ g.entities, a.id = e.id
  · obtain ⟨a, ha, hid⟩ := h
    exact ⟨_, mem_upsertEntity.2 (Or.inr (Or.inl ⟨a, ha, hid, rfl⟩)), rfl, rfl⟩
  · have hnone : ∀ a ∈ g.entities, a.id ≠ e.id := fun a ha hid => h ⟨a, ha, hid⟩
    exact ⟨_, mem_upsertEntity.2 (Or.inr (Or.inr ⟨hnone, rfl⟩)), rfl, rfl⟩

/-- An upsert that agrees with what is stored keeps the type of every entity. -/
theorem HasType.upsertEntity (h : g.HasType id ty) (hagrees : g.Agrees e.id e.entityType) :
    (g.upsertEntity e).HasType id ty := by
  obtain ⟨a, ha, rfl, rfl⟩ := h
  by_cases hid : a.id = e.id
  · rw [hid, hagrees a ha hid]
    exact hasType_upsertEntity_self
  · exact ⟨a, mem_upsertEntity.2 (Or.inl ⟨ha, hid⟩), rfl, rfl⟩

theorem Agrees.upsertEntity (h : g.Agrees id ty) (hsame : e.id = id → e.entityType = ty) :
    (g.upsertEntity e).Agrees id ty := by
  intro a ha hid
  rcases mem_upsertEntity.1 ha with ⟨ha, -⟩ | ⟨a, -, -, rfl⟩ | ⟨-, rfl⟩
  · exact h a ha hid
  · exact hsame hid
  · exact hsame hid

theorem Allowed.mono {p : OntologyPredicate} {t : Triple ι} (h : g.Allowed p t)
    (htypes : ∀ id ty, g.HasType id ty → g'.HasType id ty) : g'.Allowed p t := by
  obtain ⟨⟨d, hd, hfrom⟩, r, hr, hto⟩ := h
  exact ⟨⟨d, hd, htypes _ _ hfrom⟩, r, hr, htypes _ _ hto⟩

/-- The entities are the same, and there is at most the one triple more. -/
structure Adds (t : Triple ι) (g g' : GraphStore ι) : Prop where
  entities : g'.entities = g.entities
  triples : ∀ r ∈ g'.triples, (∃ r₀ ∈ g.triples, r₀.triple = r.triple) ∨ r.triple = t

theorem adds_insertTriple (t : Triple ι) (g : GraphStore ι) : Adds t g (g.insertTriple t) := by
  constructor
  · unfold insertTriple
    split <;> rfl
  · intro r hr
    rw [triples_insertTriple] at hr
    split at hr
    · rcases List.mem_append.1 hr with hr | hr
      · exact Or.inl ⟨r, hr, rfl⟩
      · exact Or.inr (by rw [List.mem_singleton.1 hr])
    · exact Or.inl ⟨r, hr, rfl⟩

theorem adds_insertTripleSuperseding [LinearOrder ι] (clock : Clock ι) (t : Triple ι) (n : ℕ)
    (g : GraphStore ι) : Adds t g (g.insertTripleSuperseding clock t n).1 := by
  unfold insertTripleSuperseding insertTripleSupersedingBy
  split
  · exact ⟨rfl, fun r hr => Or.inl ⟨r, hr, rfl⟩⟩
  · refine ⟨(adds_insertTriple t g).entities, fun r hr => ?_⟩
    obtain ⟨i, hi, rfl⟩ := List.mem_mapIdx.1 hr
    rw [retired_triple]
    exact (adds_insertTriple t g).triples _ (List.getElem_mem hi)

/-- Of a triple that is added its own ends have to be of allowed types. -/
theorem TypeSafe.adds {predicates : List OntologyPredicate} {t : Triple ι}
    (h : g.TypeSafe predicates) (hadds : Adds t g g')
    (ht : ∀ p ∈ predicates, p.name = t.predicate → g.Allowed p t) : g'.TypeSafe predicates := by
  have htypes : ∀ id ty, g.HasType id ty → g'.HasType id ty := fun id ty hty => by
    unfold HasType
    rw [hadds.entities]
    exact hty
  intro r hr p hp hname
  rcases hadds.triples r hr with ⟨r₀, hr₀, hsame⟩ | hsame
  · rw [← hsame] at hname ⊢
    exact (h r₀ hr₀ p hp hname).mono htypes
  · rw [hsame] at hname ⊢
    exact (ht p hp hname).mono htypes

theorem TypeSafe.upsertEntity {predicates : List OntologyPredicate} (h : g.TypeSafe predicates)
    (hagrees : g.Agrees e.id e.entityType) : (g.upsertEntity e).TypeSafe predicates :=
  fun r hr p hp hname => (h r hr p hp hname).mono fun _ _ hty => hty.upsertEntity hagrees

end GraphStore

namespace AssertingBrain

variable {ι : Type}

section

variable (env : Env) (lib : TextLibrary) (b : AssertingBrain ι)

/-- The type and the canonical name of the entity that a mention stands for: the one it resolves
to, or the one that has to be created. -/
def target (mention : String) (newType : Except AssertError String) : Option (String × String) :=
  match b.lookup env lib mention with
  | some m => some (m.entityType, m.canonical)
  | none =>
    match b.entityPolicy with
    | .strict => none
    | .autoCreate => newType.toOption.map fun t => (t, mention)
    | .autoCreateWithCanonicalizer f =>
      match b.lookup env lib (f mention) with
      | some m => some (m.entityType, m.canonical)
      | none => newType.toOption.map fun t => (t, f mention)

/-- What both mentions stand for; the object may be what is created for the subject. -/
def targets (args : AssertArgs ι) (subject : String) (subjectType : Except AssertError String)
    (object : String) (objectType : Except AssertError String) :
    Option ((String × String) × String × String) :=
  (b.target env lib subject subjectType).bind fun s =>
    ((b.resolveWith env lib args subject subjectType).1.target env lib object objectType).map
      fun o => (s, o)

/-- The ids of both stand for no entity of another type. -/
def IdsAgree (ends : (String × String) × String × String) : Prop :=
  b.store.Agrees (env.entityId ends.1.1 ends.1.2) ends.1.1 ∧
    b.store.Agrees (env.entityId ends.2.1 ends.2.2) ends.2.1 ∧
    (env.entityId ends.1.1 ends.1.2 = env.entityId ends.2.1 ends.2.2 → ends.1.1 = ends.2.1)

/-- The types are allowed, if the predicate is declared. -/
def Fits (predicate subjectType objectType : String) : Prop :=
  ∀ p ∈ b.declared predicate, subjectType ∈ p.domain ∧ objectType ∈ p.range

/-- If the types the caller names pass the check, so do those of the entities, and the ids agree. -/
def NamedRight (args : AssertArgs ι) (subject : String × String) (predicate : String)
    (object : String × String) : Prop :=
  b.Fits predicate subject.1 object.1 →
    ∀ ends ∈ b.targets env lib args subject.2 (.ok subject.1) object.2 (.ok object.1),
      b.Fits predicate ends.1.1 ends.2.1 ∧ b.IdsAgree env ends

/-- The calls that keep a graph type safe. -/
def KeepsTypes : AssertCall ι → Prop
  | .assert args subject predicate object => b.readOnly = false →
    ∀ p ∈ b.declared predicate,
      ∀ ends ∈ b.targets env lib args subject (inferSingleType subject (some p.domain) predicate)
        object (inferSingleType object (some p.range) predicate),
        b.Fits predicate ends.1.1 ends.2.1 → b.IdsAgree env ends
  | .assertTyped args subject predicate object => b.readOnly = false →
    b.NamedRight env lib args subject predicate object
  | .assertTypedFrom args memoryId subject predicate object => b.readOnly = false →
    (b.memories.getMemory memoryId).isSome → b.NamedRight env lib args subject predicate object

instance (ends : (String × String) × String × String) : Decidable (b.IdsAgree env ends) :=
  inferInstanceAs (Decidable (_ ∧ _ ∧ _))

instance (predicate subjectType objectType : String) :
    Decidable (b.Fits predicate subjectType objectType) :=
  inferInstanceAs (Decidable
    (∀ p ∈ b.declared predicate, subjectType ∈ p.domain ∧ objectType ∈ p.range))

instance (args : AssertArgs ι) (subject : String × String) (predicate : String)
    (object : String × String) : Decidable (b.NamedRight env lib args subject predicate object) := by
  unfold NamedRight
  infer_instance

instance : (c : AssertCall ι) → Decidable (b.KeepsTypes env lib c)
  | .assert .. => by unfold KeepsTypes; infer_instance
  | .assertTyped .. => by unfold KeepsTypes; infer_instance
  | .assertTypedFrom .. => by unfold KeepsTypes; infer_instance

end

/-- A call, whatever it returns. -/
def call [LinearOrder ι] (env : Env) (lib : TextLibrary) (clock : Clock ι) (b : AssertingBrain ι) :
    AssertCall ι → AssertingBrain ι
  | .assert args subject predicate object =>
    (b.assert env lib clock args subject predicate object).1
  | .assertTyped args subject predicate object =>
    (b.assertTyped env lib clock args subject predicate object).1
  | .assertTypedFrom args memoryId subject predicate object =>
    (b.assertTypedFrom env lib clock args memoryId subject predicate object).1

variable {env : Env} {lib : TextLibrary} {b b' : AssertingBrain ι} {args : AssertArgs ι}

/-- What resolving leaves as it is. -/
def SameGraph (b b' : AssertingBrain ι) : Prop := b'.store = b.store ∧ b'.ontology = b.ontology

theorem entityId_of_lookup {mention : String} {m : MatchedMention}
    (h : b.lookup env lib mention = some m) : m.entityId = env.entityId m.entityType m.canonical := by
  have hmatched : ∀ e kind, (env.matched mention e kind).entityId =
      env.entityId (env.matched mention e kind).entityType (env.matched mention e kind).canonical :=
    fun _ _ => rfl
  rcases Option.or_eq_some_iff.1 h with h | ⟨-, h⟩
  · unfold TextLibrary.resolveOne at h
    split at h
    · cases h
      exact hmatched _ _
    · dsimp only at h
      split at h
      · obtain ⟨e, -, rfl⟩ := Option.map_eq_some_iff.1 h
        exact hmatched _ _
      · cases h
  · obtain ⟨e, -, rfl⟩ := Option.map_eq_some_iff.1 h
    exact hmatched _ _

variable (env args) in
theorem autoCreateEntity_spec (b : AssertingBrain ι) (canonical mention entityType : String) :
    SameGraph b (b.autoCreateEntity env args canonical mention entityType).1 ∧
      ∀ m, (b.autoCreateEntity env args canonical mention entityType).2 = .ok m →
        m.entityType = entityType ∧ m.canonical = canonical ∧
          m.entityId = env.entityId m.entityType m.canonical := by
  unfold autoCreateEntity
  dsimp only
  split
  · exact ⟨⟨rfl, rfl⟩, nofun⟩
  · refine ⟨⟨rfl, rfl⟩, fun m hm => ?_⟩
    cases hm
    exact ⟨rfl, rfl, rfl⟩

variable (env lib args) in
/-- A mention that is resolved is resolved to what it stands for, and the graph is not touched. -/
theorem resolveWith_spec (b : AssertingBrain ι) (mention : String)
    (newType : Except AssertError String) :
    SameGraph b (b.resolveWith env lib args mention newType).1 ∧
      ∀ m, (b.resolveWith env lib args mention newType).2 = .ok m →
        b.target env lib mention newType = some (m.entityType, m.canonical) ∧
          m.entityId = env.entityId m.entityType m.canonical := by
  unfold resolveWith target
  cases hfound : b.lookup env lib mention with
  | some m₀ =>
    refine ⟨⟨rfl, rfl⟩, fun m hm => ?_⟩
    cases hm
    exact ⟨rfl, entityId_of_lookup hfound⟩
  | none =>
    cases b.entityPolicy with
    | strict => exact ⟨⟨rfl, rfl⟩, nofun⟩
    | autoCreate =>
      cases newType with
      | error e => exact ⟨⟨rfl, rfl⟩, nofun⟩
      | ok entityType =>
        obtain ⟨hsame, hnew⟩ := autoCreateEntity_spec env args b mention mention
          entityType
        refine ⟨hsame, fun m hm => ?_⟩
        obtain ⟨rfl, rfl, hid⟩ := hnew m hm
        exact ⟨rfl, hid⟩
    | autoCreateWithCanonicalizer f =>
      dsimp only
      cases hcanonical : b.lookup env lib (f mention) with
      | some m₀ =>
        refine ⟨⟨rfl, rfl⟩, fun m hm => ?_⟩
        cases hm
        exact ⟨rfl, entityId_of_lookup hcanonical⟩
      | none =>
        cases newType with
        | error e => exact ⟨⟨rfl, rfl⟩, nofun⟩
        | ok entityType =>
          obtain ⟨hsame, hnew⟩ := autoCreateEntity_spec env args b (f mention)
            mention entityType
          refine ⟨hsame, fun m hm => ?_⟩
          obtain ⟨rfl, hcan, hid⟩ := hnew m hm
          exact ⟨by rw [hcan]; rfl, hid⟩

variable (env lib args) in
/-- What both mentions are resolved to. -/
theorem resolveBoth_spec (b : AssertingBrain ι) (subject : String)
    (subjectType : Except AssertError String) (object : String)
    (objectType : Except AssertError String) :
    SameGraph b (b.resolveBoth env lib args subject subjectType object objectType).1 ∧
      ∀ s o, (b.resolveBoth env lib args subject subjectType object objectType).2 = .ok (s, o) →
        b.targets env lib args subject subjectType object objectType =
            some ((s.entityType, s.canonical), o.entityType, o.canonical) ∧
          s.entityId = env.entityId s.entityType s.canonical ∧
          o.entityId = env.entityId o.entityType o.canonical := by
  obtain ⟨hsame, hsubject⟩ := resolveWith_spec env lib args b subject
    subjectType
  unfold resolveBoth targets
  dsimp only
  split
  · exact ⟨hsame, nofun⟩
  · rename_i s hs
    obtain ⟨hsame', hobject⟩ := resolveWith_spec env lib args
      (b.resolveWith env lib args subject subjectType).1 object objectType
    refine ⟨⟨hsame'.1.trans hsame.1, hsame'.2.trans hsame.2⟩, fun s' o hso => ?_⟩
    cases ho : ((b.resolveWith env lib args subject subjectType).1.resolveWith env lib args object
        objectType).2 with
    | error e =>
      rw [ho] at hso
      cases hso
    | ok o' =>
      rw [ho] at hso
      cases hso
      obtain ⟨htarget, hid⟩ := hsubject s hs
      obtain ⟨htarget', hid'⟩ := hobject o ho
      exact ⟨by rw [htarget, htarget']; rfl, hid, hid'⟩

theorem mem_declared {p : OntologyPredicate} {predicate : String} :
    p ∈ b.declared predicate ↔ p ∈ b.ontology.predicates ∧ p.name = predicate := by
  rw [Option.mem_def, declared]
  constructor
  · intro h
    exact ⟨List.mem_of_find?_eq_some h, by simpa using List.find?_some h⟩
  · rintro ⟨hp, rfl⟩
    have hsome : (b.ontology.predicates.find? fun q => q.name = p.name).isSome :=
      List.find?_isSome.2 ⟨p, hp, decide_eq_true rfl⟩
    obtain ⟨q, hq⟩ := Option.isSome_iff_exists.1 hsome
    have hname : q.name = p.name := by simpa using List.find?_some hq
    rw [hq, List.inj_on_of_nodup_map b.ontology.predicateNames (List.mem_of_find?_eq_some hq) hp hname]

theorem idsAgree_congr (h : SameGraph b b') {ends : (String × String) × String × String} :
    b'.IdsAgree env ends ↔ b.IdsAgree env ends := by
  unfold IdsAgree
  rw [h.1]

theorem fits_congr (h : SameGraph b b') {predicate subjectType objectType : String} :
    b'.Fits predicate subjectType objectType ↔ b.Fits predicate subjectType objectType := by
  unfold Fits declared
  rw [h.2]

/-! ## Writing keeps a graph type safe -/

/-- The graph of a brain is type safe. -/
def Safe (b : AssertingBrain ι) : Prop := b.store.TypeSafe b.ontology.predicates

theorem Safe.congr (h : b.Safe) (hsame : SameGraph b b') : b'.Safe := by
  unfold Safe
  rw [hsame.1, hsame.2]
  exact h

variable [LinearOrder ι] {clock : Clock ι}

/-- A triple between entities of allowed types, whose ids agree with what is stored. -/
theorem safe_writeTripleWithDoc {s o : MatchedMention} {predicate : String}
    {sourceDocId : Option Bytes32} (h : b.Safe)
    (hs : s.entityId = env.entityId s.entityType s.canonical)
    (ho : o.entityId = env.entityId o.entityType o.canonical)
    (hids : b.IdsAgree env ((s.entityType, s.canonical), o.entityType, o.canonical))
    (hfits : b.Fits predicate s.entityType o.entityType) :
    (b.writeTripleWithDoc clock args s predicate o sourceDocId).1.Safe := by
  obtain ⟨hsubject, hobject, hboth⟩ := hids
  rw [← hs] at hsubject hboth
  rw [← ho] at hobject hboth
  have hobject' : (b.store.upsertEntity (endRow args s)).Agrees o.entityId o.entityType :=
    hobject.upsertEntity hboth
  have hsafe : ((b.store.upsertEntity (endRow args s)).upsertEntity (endRow args o)).TypeSafe
      b.ontology.predicates :=
    GraphStore.TypeSafe.upsertEntity (GraphStore.TypeSafe.upsertEntity h hsubject) hobject'
  have hfrom : ((b.store.upsertEntity (endRow args s)).upsertEntity (endRow args o)).HasType
      s.entityId s.entityType :=
    GraphStore.hasType_upsertEntity_self.upsertEntity hobject'
  have hto : ((b.store.upsertEntity (endRow args s)).upsertEntity (endRow args o)).HasType
      o.entityId o.entityType := GraphStore.hasType_upsertEntity_self
  unfold writeTripleWithDoc Safe
  dsimp only
  split
  · refine hsafe.adds (GraphStore.adds_insertTripleSuperseding clock _ _ _) fun p hp hname => ?_
    obtain ⟨hd, hr⟩ := hfits p (mem_declared.2 ⟨hp, hname⟩)
    exact ⟨⟨_, hd, hfrom⟩, _, hr, hto⟩
  · refine hsafe.adds (GraphStore.adds_insertTriple _ _) fun p hp hname => ?_
    obtain ⟨hd, hr⟩ := hfits p (mem_declared.2 ⟨hp, hname⟩)
    exact ⟨⟨_, hd, hfrom⟩, _, hr, hto⟩

theorem checkTypes_ok {p : OntologyPredicate} {subjectType objectType : String} {u : Unit}
    (h : checkTypes p subjectType objectType = .ok u) :
    subjectType ∈ p.domain ∧ objectType ∈ p.range := by
  unfold checkTypes at h
  split at h
  · cases h
  · split at h
    · cases h
    · exact ⟨not_not.1 ‹_›, not_not.1 ‹_›⟩

/-- `assert`: what is checked is what is written. -/
theorem safe_assert {subject predicate object : String} (h : b.Safe)
    (hkeeps : b.KeepsTypes env lib (.assert args subject predicate object)) :
    (b.assert env lib clock args subject predicate object).1.Safe := by
  unfold assert
  split
  · exact h
  · rename_i hwritable
    split
    · exact h
    · rename_i p hp
      obtain ⟨hsame, hends⟩ := resolveBoth_spec env lib args b subject
        (inferSingleType subject (some p.domain) predicate) object
        (inferSingleType object (some p.range) predicate)
      split
      · rename_i b' e hboth
        rw [hboth] at hsame
        exact h.congr hsame
      · rename_i b' s o hboth
        rw [hboth] at hsame hends
        split
        · exact h.congr hsame
        · rename_i hcheck
          obtain ⟨hd, hr⟩ := checkTypes_ok hcheck
          obtain ⟨htargets, hs, ho⟩ := hends s o rfl
          have hfits : b.Fits predicate s.entityType o.entityType := fun q hq => by
            obtain rfl : p = q := Option.some.inj (hp.symm.trans hq)
            exact ⟨hd, hr⟩
          exact safe_writeTripleWithDoc (h.congr hsame) hs ho
            ((idsAgree_congr hsame).2 (hkeeps (by simpa using hwritable) p hp _ htargets hfits))
            ((fits_congr hsame).2 hfits)

/-- `assert_typed_with_doc`, when the caller names the types right. -/
theorem safe_assertTypedWithDoc {subject object : String × String} {predicate : String}
    {sourceDocId : Option Bytes32} (h : b.Safe)
    (hnamed : b.readOnly = false → b.NamedRight env lib args subject predicate object) :
    (b.assertTypedWithDoc env lib clock args subject predicate object sourceDocId).1.Safe := by
  unfold assertTypedWithDoc
  split
  · exact h
  · rename_i hwritable
    obtain ⟨hsame, hends⟩ := resolveBoth_spec env lib args b subject.2
      (.ok subject.1) object.2 (.ok object.1)
    split
    · rename_i b' e hboth
      rw [hboth] at hsame
      exact h.congr hsame
    · rename_i b' s o hboth
      rw [hboth] at hsame hends
      obtain ⟨htargets, hs, ho⟩ := hends s o rfl
      have hwritten : b.Fits predicate subject.1 object.1 →
          (b'.writeTripleWithDoc clock args s predicate o sourceDocId).1.Safe := fun hpass => by
        obtain ⟨hfits, hids⟩ := hnamed (by simpa using hwritable) hpass _ htargets
        exact safe_writeTripleWithDoc (h.congr hsame) hs ho ((idsAgree_congr hsame).2 hids)
          ((fits_congr hsame).2 hfits)
      split
      · rename_i hnone
        refine hwritten fun p hp => ?_
        rw [hnone] at hp
        cases hp
      · rename_i p hp
        split
        · exact h.congr hsame
        · rename_i hcheck
          refine hwritten fun q hq => ?_
          obtain rfl : p = q := Option.some.inj (hp.symm.trans hq)
          exact checkTypes_ok hcheck

theorem safe_assertTypedFrom {memoryId : String} {subject object : String × String}
    {predicate : String} (h : b.Safe)
    (hkeeps : b.KeepsTypes env lib (.assertTypedFrom args memoryId subject predicate object)) :
    (b.assertTypedFrom env lib clock args memoryId subject predicate object).1.Safe := by
  unfold assertTypedFrom
  split
  · exact h
  · rename_i doc hdoc
    refine safe_assertTypedWithDoc h fun hwritable => hkeeps hwritable ?_
    unfold memoryDocId at hdoc
    split at hdoc
    · cases hdoc
    · rename_i memory hmemory
      rw [hmemory]
      rfl

/-- **One call.** -/
theorem safe_call (h : b.Safe) (c : AssertCall ι) (hkeeps : b.KeepsTypes env lib c) :
    (b.call env lib clock c).Safe := by
  cases c with
  | assert args subject predicate object => exact safe_assert h hkeeps
  | assertTyped args subject predicate object => exact safe_assertTypedWithDoc h hkeeps
  | assertTypedFrom args memoryId subject predicate object => exact safe_assertTypedFrom h hkeeps

/-- A new brain. -/
def opened (ontology : PredicateOntology) (entityPolicy : EntityPolicy) (readOnly : Bool)
    (brainId : Bytes32) (memories : Store) : AssertingBrain ι :=
  { ontology, entityPolicy, readOnly, brainId, memories, store := .empty }

/-- **Every run of assertions.**  From a new brain, under every policy: if every call keeps the
types, the graph is type safe all along. -/
theorem typeSafe_assertions (env : Env) (lib : TextLibrary) (clock : Clock ι)
    (ontology : PredicateOntology) (entityPolicy : EntityPolicy) (readOnly : Bool)
    (brainId : Bytes32) (memories : Store) (calls : List (AssertCall ι))
    (hkeeps : AllSteps (call env lib clock) (KeepsTypes env lib)
      (opened ontology entityPolicy readOnly brainId memories) calls) (n : ℕ) :
    (run (call env lib clock) (opened ontology entityPolicy readOnly brainId memories)
      (calls.take n)).Safe := by
  rw [← List.take_append_drop n calls, allSteps_append] at hkeeps
  exact run_invariant_of_allSteps (fun _ c h hc => safe_call h c hc)
    (fun r hr => absurd hr List.not_mem_nil) hkeeps.1

end AssertingBrain

/-! ## A project that knows somebody -/

/-- Who works on what, and who knows whom. -/
def workOntology : PredicateOntology where
  entities :=
    [{ entityType := "person", canonical := "alice", visibility := .priv },
      { entityType := "project", canonical := "spectral", visibility := .pub }]
  named := by decide
  canonicalsPerType := by decide
  predicates :=
    [{ name := "works_on", domain := ["person"], range := ["project"] },
      { name := "knows", domain := ["person"], range := ["person"] }]
  predicateNames := by decide
  knownTypes := by decide

/-- The ids of the two, and of somebody who is new. -/
def workEnv : Env := .ofRecords
  [(entitySalt ++ utf8 "person" ++ utf8 ":" ++ utf8 "alice", 1),
    (entitySalt ++ utf8 "project" ++ utf8 ":" ++ utf8 "spectral", 2),
    (entitySalt ++ utf8 "person" ++ utf8 ":" ++ utf8 "carol", 3)] []

/-- A new brain that creates the entities it does not know. -/
def workBrain : AssertingBrain (Fin 5) :=
  .opened workOntology .autoCreate false (Env.bytesOf 32 0) {}

/-- Calls that name every type right. -/
def introductions : List (AssertCall (Fin 5)) :=
  [.assert { now := day 0 } "alice" "works_on" "spectral",
    .assertTyped { now := day 1 } ("person", "carol") "knows" ("person", "alice"),
    .assert { now := day 2 } "carol" "works_on" "spectral"]

theorem introductions_safe : (run (AssertingBrain.call workEnv .plain newYear) workBrain
    (introductions.take 3)).Safe := by
  have hkeeps : AllSteps (AssertingBrain.call workEnv .plain newYear)
      (AssertingBrain.KeepsTypes workEnv .plain) workBrain introductions := by decide +kernel
  exact AssertingBrain.typeSafe_assertions workEnv .plain newYear workOntology .autoCreate false
    (Env.bytesOf 32 0) {} introductions hkeeps 3

/-- The caller calls the project a person: what is checked is what the caller says, and what is
written is a project that knows somebody. -/
theorem project_knows_alice : ¬ (run (AssertingBrain.call workEnv .plain newYear) workBrain
    [.assertTyped { now := 0 } ("person", "spectral") "knows" ("person", "alice")]).Safe := by
  unfold AssertingBrain.Safe
  decide +kernel

end Spectral
