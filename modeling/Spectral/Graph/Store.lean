import Spectral.Core.Identity
import Spectral.Recall.Search

/-!
# The graph store

Entities, the triples between them, and the documents that mention them.  A triple is stored only
when both of its ends are: this is a field of the store.

Rows are in the order of their row ids, and no triple is ever deleted, so the row id of a triple
is its place in the list, counted from one.  Time stamps are of any type `ι`.
-/

namespace Spectral

open Spectral.Lib

/-- `EntityId`. -/
abbrev EntityId := Bytes32

/-- `Entity`. -/
structure Entity (ι : Type) where
  id : EntityId
  entityType : String
  canonical : String
  visibility : Visibility
  createdAt : ι
  updatedAt : ι
  weight : ℚ := 1
  description : Option String := none
  deriving DecidableEq

/-- `entity_from_row`: an empty description is none. -/
def Entity.fromRow {ι : Type} (e : Entity ι) : Entity ι :=
  { e with description := e.description.filter fun d => d ≠ "" }

@[simp] theorem Entity.fromRow_id {ι : Type} (e : Entity ι) : e.fromRow.id = e.id := rfl

@[simp] theorem Entity.fromRow_visibility {ι : Type} (e : Entity ι) :
    e.fromRow.visibility = e.visibility := rfl

/-- `Triple`. -/
structure Triple (ι : Type) where
  fromId : EntityId
  toId : EntityId
  predicate : String
  confidence : ℚ
  sourceDocId : Option Bytes32
  sourceBrainId : Bytes32
  assertedAt : ι
  visibility : Visibility
  weight : ℚ := 1
  deriving DecidableEq

/-- What makes two triples the same edge. -/
def Triple.edge {ι : Type} (t : Triple ι) : EntityId × EntityId × String :=
  (t.fromId, t.toId, t.predicate)

/-- The end a triple is looked up by: where it starts when it is followed forward. -/
def Triple.near {ι : Type} (outgoing : Bool) (t : Triple ι) : EntityId :=
  if outgoing then t.fromId else t.toId

/-- Triples that make the same edge have the same ends. -/
theorem Triple.near_eq_of_edge {ι : Type} {t t' : Triple ι} (h : t.edge = t'.edge) (outgoing : Bool) :
    t.near outgoing = t'.near outgoing := by
  simp only [edge, Prod.mk.injEq] at h
  simp only [near, h.1, h.2.1]

/-- The end a triple leads to. -/
def Triple.far {ι : Type} (outgoing : Bool) (t : Triple ι) : EntityId :=
  if outgoing then t.toId else t.fromId

/-- A row of `triple`. -/
structure TripleRow (ι : Type) where
  triple : Triple ι
  validTo : Option String := none
  supersededBy : Option ℕ := none
  supersededByAgent : Option String := none
  deriving DecidableEq

/-- `DocumentNode`. -/
structure DocumentNode (ι : Type) where
  id : Bytes32
  source : String
  ingestedAt : ι
  visibility : Visibility
  deriving DecidableEq

/-- A row of `mention`. -/
structure Mention (ι : Type) where
  docId : Bytes32
  entityId : EntityId
  spanStart : ℤ
  spanEnd : ℤ
  extractedAt : ι
  deriving DecidableEq

/-- The key of `mention`. -/
def Mention.key {ι : Type} (m : Mention ι) : Bytes32 × EntityId := (m.docId, m.entityId)

/-- `GraphStore`. -/
structure GraphStore (ι : Type) where
  entities : Table (Entity ι) (SameKey Entity.id)
  triples : List (TripleRow ι)
  documents : Table (DocumentNode ι) (SameKey DocumentNode.id)
  mentions : Table (Mention ι) (SameKey Mention.key)
  /-- Both ends of a triple are entities. -/
  endpoints : ∀ r ∈ triples,
    (∃ e ∈ entities, e.id = r.triple.fromId) ∧ ∃ e ∈ entities, e.id = r.triple.toId
  deriving DecidableEq

namespace GraphStore

variable {ι : Type}

/-- The store after `create_schema`. -/
def empty : GraphStore ι := ⟨.empty, [], .empty, .empty, fun _ h => absurd h List.not_mem_nil⟩

/-! ## Reads -/

section

variable (g : GraphStore ι)

/-- `get_entity`. -/
def getEntity (id : EntityId) : Option (Entity ι) :=
  (g.entities.find? fun e => e.id = id).map Entity.fromRow

theorem getEntity_eq_some {id : EntityId} {e : Entity ι} :
    g.getEntity id = some e ↔ ∃ r ∈ g.entities, r.id = id ∧ r.fromRow = e := by
  simp only [getEntity, Option.map_eq_some_iff, Table.find?_key_eq_some, and_assoc]

theorem id_of_getEntity {id : EntityId} {e : Entity ι} (h : g.getEntity id = some e) : e.id = id := by
  obtain ⟨r, -, rfl, rfl⟩ := g.getEntity_eq_some.1 h
  rfl

/-- `find_triples_directed`: an index on the column returns the rows in the order of their ids. -/
def findTriplesDirected (id : EntityId) (outgoing : Bool) : List (Triple ι) :=
  (g.triples.map TripleRow.triple).filter fun t => t.near outgoing = id

/-- `find_mentioning_documents`. -/
def findMentioningDocuments (id : EntityId) : List (DocumentNode ι) :=
  (g.mentions.rows.filter fun m => m.entityId = id).filterMap fun m =>
    g.documents.find? fun d => d.id = m.docId

/-- The pattern of `find_triples` and its variants: `None` is a wildcard. -/
def matchesPattern (fromId toId : Option EntityId) (predicate : Option String) (t : Triple ι) : Bool :=
  fromId.all (· = t.fromId) && toId.all (· = t.toId) && predicate.all (· = t.predicate)

/-- `find_triples_including_superseded`. -/
def findTriplesIncludingSuperseded (fromId toId : Option EntityId) (predicate : Option String) :
    List (Triple ι × Option String) :=
  (g.triples.filter fun r => matchesPattern fromId toId predicate r.triple).map fun r =>
    (r.triple, r.validTo)

/-- `find_triples`: what is live. -/
def findTriples (fromId toId : Option EntityId) (predicate : Option String) : List (Triple ι) :=
  ((g.findTriplesIncludingSuperseded fromId toId predicate).filter fun r => r.2.isNone).map Prod.fst

end

/-! ## Writes -/

/-- `upsert_entity`: the description of an entity that is there is kept. -/
def upsertEntity (entity : Entity ι) (g : GraphStore ι) : GraphStore ι :=
  { g with
    entities := g.entities.upsert { entity with description := none }
      (fun old => { entity with description := old.description }) fun _ _ => rfl
    endpoints := fun r hr =>
      ⟨Table.exists_key_upsert.2 (Or.inl (g.endpoints r hr).1),
        Table.exists_key_upsert.2 (Or.inl (g.endpoints r hr).2)⟩ }

/-- The `WHERE EXISTS` of an insert into `triple`. -/
def HasEndpoints (g : GraphStore ι) (t : Triple ι) : Prop :=
  (∃ e ∈ g.entities, e.id = t.fromId) ∧ ∃ e ∈ g.entities, e.id = t.toId

instance (g : GraphStore ι) (t : Triple ι) : Decidable (g.HasEndpoints t) :=
  inferInstanceAs (Decidable ((∃ e ∈ g.entities.rows, e.id = t.fromId) ∧
    ∃ e ∈ g.entities.rows, e.id = t.toId))

/-- `insert_triple`: duplicate edges are permitted. -/
def insertTriple (t : Triple ι) (g : GraphStore ι) : GraphStore ι :=
  if h : g.HasEndpoints t then
    { g with
      triples := g.triples ++ [{ triple := t }]
      endpoints := fun r hr => by
        rcases List.mem_append.1 hr with hr | hr
        · exact g.endpoints r hr
        · rw [List.mem_singleton.1 hr]
          exact h }
  else g

theorem triples_insertTriple (t : Triple ι) (g : GraphStore ι) :
    (g.insertTriple t).triples =
      if g.HasEndpoints t then g.triples ++ [{ triple := t }] else g.triples := by
  unfold insertTriple
  split <;> rfl

end GraphStore

end Spectral
