import Spectral.Graph.Neighborhood
import Mathlib.Data.Prod.Lex

/-!
# Exporting a neighbourhood

`export_neighborhood` turns what a walk found into nodes and edges for a reader outside: what the
scope does not admit is dropped and counted, and so is an edge to a node that was dropped.

* `exportNeighborhood` — the export with its counts.
* `export_exact` — it is all that is admitted and no more, every edge joins two nodes, and what is
  not exported is counted.
* `export_canonical` — nodes and edges are a function of what is admitted, in whatever order it was
  found and whatever was found beside it.
-/

namespace Spectral

open Spectral.Lib

/-- `NodeKind`. -/
inductive NodeKind where
  | entity
  | document
  deriving DecidableEq, Repr

/-- `ExportNode`. -/
structure ExportNode where
  id : String
  kind : NodeKind
  label : String
  entityType : Option String
  visibility : String
  weight : Option ℚ
  deriving DecidableEq

/-- `ExportEdge`. -/
structure ExportEdge where
  source : String
  target : String
  predicate : String
  confidence : ℚ
  weight : ℚ
  visibility : String
  deriving DecidableEq

/-- `ExportMeta`. -/
structure ExportMeta where
  nodeCount : ℕ
  edgeCount : ℕ
  entityCount : ℕ
  documentCount : ℕ
  visibilityScope : String
  truncated : Bool
  filteredOut : ℕ
  deriving DecidableEq

/-- `GraphExport`. -/
structure GraphExport where
  about : ExportMeta
  nodes : List ExportNode
  edges : List ExportEdge
  deriving DecidableEq

/-- `vis_str`. -/
def visStr : Visibility → String
  | .priv => "private"
  | .team => "team"
  | .org => "org"
  | .pub => "public"

variable {ι : Type}

/-- `entity_node`. -/
def entityNode (e : Entity ι) : ExportNode where
  id := toHex e.id.toList
  kind := .entity
  label := e.canonical
  entityType := some e.entityType
  visibility := visStr e.visibility
  weight := some e.weight

/-- `document_node`. -/
def documentNode (d : DocumentNode ι) : ExportNode where
  id := toHex d.id.toList
  kind := .document
  label := d.source
  entityType := none
  visibility := visStr d.visibility
  weight := none

/-- `edge`. -/
def exportEdge (t : Triple ι) : ExportEdge where
  source := toHex t.fromId.toList
  target := toHex t.toId.toList
  predicate := t.predicate
  confidence := t.confidence
  weight := t.weight
  visibility := visStr t.visibility

/-- What edges are sorted by. -/
def ExportEdge.place (e : ExportEdge) : String ×ₗ String ×ₗ String :=
  toLex (e.source, toLex (e.target, e.predicate))

/-- The test an edge is kept by: the scope admits it, and both of its ends are among the nodes kept. -/
def edgeKept (scope : Visibility) (keptIds : List String) (t : Triple ι) : Bool :=
  t.visibility.allows scope && keptIds.contains (exportEdge t).source &&
    keptIds.contains (exportEdge t).target

/-- The nodes of the entities that the scope admits. -/
def entityNodes (n : Neighborhood ι) (scope : Visibility) : List ExportNode :=
  (n.entities.filter fun e => e.visibility.allows scope).map entityNode

/-- `kept_ids`. -/
def keptIds (n : Neighborhood ι) (scope : Visibility) : List String :=
  (entityNodes n scope).map ExportNode.id

/-- `export_neighborhood`. -/
def exportNeighborhood (n : Neighborhood ι) (scope : Visibility) : GraphExport :=
  let entities := entityNodes n scope
  let documents := (n.documents.filter fun d => d.visibility.allows scope).map documentNode
  let edges := (n.triples.filter (edgeKept scope (keptIds n scope))).map exportEdge
  let filteredOut := n.entities.countP (fun e => !e.visibility.allows scope) +
    n.documents.countP (fun d => !d.visibility.allows scope) +
    n.triples.countP fun t => !edgeKept scope (keptIds n scope) t
  let nodes := (entities ++ documents).insertionSort fun a b => a.id ≤ b.id
  let edges := edges.insertionSort fun a b => a.place ≤ b.place
  { about :=
      { nodeCount := nodes.length
        edgeCount := edges.length
        entityCount := entities.length
        documentCount := (entities ++ documents).length - entities.length
        visibilityScope := visStr scope
        truncated := n.truncated
        filteredOut }
    nodes
    edges }

/-! ## What is exported -/

variable {n n' : Neighborhood ι} {scope : Visibility}

theorem hexId_injective : Function.Injective fun id : Bytes32 => toHex id.toList :=
  fun _ _ h => Vector.toList_inj.1 (toHex_injective h)

/-- Both ends of a triple are entities that the scope admits. -/
def Neighborhood.EndsAdmitted (n : Neighborhood ι) (scope : Visibility) (t : Triple ι) : Prop :=
  (∃ e ∈ n.entities, e.visibility.allows scope = true ∧ e.id = t.fromId) ∧
    ∃ e ∈ n.entities, e.visibility.allows scope = true ∧ e.id = t.toId

theorem mem_keptIds {id : EntityId} :
    toHex id.toList ∈ keptIds n scope ↔
      ∃ e ∈ n.entities, e.visibility.allows scope = true ∧ e.id = id := by
  simp only [keptIds, entityNodes, List.map_map, List.mem_map, List.mem_filter, and_assoc]
  refine exists_congr fun e => and_congr_right fun _ => and_congr_right fun _ => ?_
  exact hexId_injective.eq_iff

theorem edgeKept_iff {t : Triple ι} :
    edgeKept scope (keptIds n scope) t = true ↔
      t.visibility.allows scope = true ∧ n.EndsAdmitted scope t := by
  rw [edgeKept, Bool.and_eq_true, Bool.and_eq_true, List.contains_iff_mem, List.contains_iff_mem,
    and_assoc]
  exact and_congr_right fun _ => and_congr mem_keptIds mem_keptIds

theorem mem_nodes {a : ExportNode} : a ∈ (exportNeighborhood n scope).nodes ↔
    (∃ e ∈ n.entities, e.visibility.allows scope = true ∧ entityNode e = a) ∨
      ∃ d ∈ n.documents, d.visibility.allows scope = true ∧ documentNode d = a := by
  simp only [exportNeighborhood, entityNodes, List.mem_insertionSort, List.mem_append, List.mem_map,
    List.mem_filter, and_assoc]

theorem mem_edges {a : ExportEdge} : a ∈ (exportNeighborhood n scope).edges ↔
    ∃ t ∈ n.triples, (t.visibility.allows scope = true ∧ n.EndsAdmitted scope t) ∧
      exportEdge t = a := by
  simp only [exportNeighborhood, List.mem_insertionSort, List.mem_map, List.mem_filter,
    edgeKept_iff, and_assoc]

theorem length_filter_add_countP_not {α : Type} (p : α → Bool) (l : List α) :
    (l.filter p).length + l.countP (fun a => !p a) = l.length := by
  rw [← List.countP_eq_length_filter, List.length_eq_countP_add_countP p]
  simp

/-- **An export is exact and closed.**  Its nodes are the entities and documents the scope admits
and its edges the admitted triples between admitted entities; both ends of every edge are entities
among the nodes; and nodes, edges and what was filtered out are together all that was found. -/
theorem export_exact (n : Neighborhood ι) (scope : Visibility) :
    (∀ a, a ∈ (exportNeighborhood n scope).nodes ↔
      (∃ e ∈ n.entities, e.visibility.allows scope = true ∧ entityNode e = a) ∨
        ∃ d ∈ n.documents, d.visibility.allows scope = true ∧ documentNode d = a) ∧
    (∀ a, a ∈ (exportNeighborhood n scope).edges ↔
      ∃ t ∈ n.triples, (t.visibility.allows scope = true ∧ n.EndsAdmitted scope t) ∧
        exportEdge t = a) ∧
    (∀ a ∈ (exportNeighborhood n scope).edges,
      (∃ b ∈ (exportNeighborhood n scope).nodes, b.kind = .entity ∧ b.id = a.source) ∧
        ∃ b ∈ (exportNeighborhood n scope).nodes, b.kind = .entity ∧ b.id = a.target) ∧
    (exportNeighborhood n scope).about.nodeCount + (exportNeighborhood n scope).about.edgeCount +
        (exportNeighborhood n scope).about.filteredOut =
      n.entities.length + n.documents.length + n.triples.length := by
  refine ⟨fun a => mem_nodes, fun a => mem_edges, fun a ha => ?_, ?_⟩
  · obtain ⟨t, -, ⟨-, ⟨e, he, hadm, hid⟩, e', he', hadm', hid'⟩, rfl⟩ := mem_edges.1 ha
    exact ⟨⟨entityNode e, mem_nodes.2 (Or.inl ⟨e, he, hadm, rfl⟩), rfl, by rw [exportEdge, ← hid]; rfl⟩,
      ⟨entityNode e', mem_nodes.2 (Or.inl ⟨e', he', hadm', rfl⟩), rfl, by
        rw [exportEdge, ← hid']; rfl⟩⟩
  · have hentities := length_filter_add_countP_not
      (fun e : Entity ι => e.visibility.allows scope) n.entities
    have hdocuments := length_filter_add_countP_not
      (fun d : DocumentNode ι => d.visibility.allows scope) n.documents
    have hedges := length_filter_add_countP_not (edgeKept scope (keptIds n scope)) n.triples
    simp only [exportNeighborhood, entityNodes, List.length_insertionSort, List.length_append, List.length_map]
    omega

/-! ## A function of what is admitted -/

/-- Every entity, document and edge was found once, and no document has the id of an entity. -/
structure Neighborhood.Distinct (n : Neighborhood ι) : Prop where
  entities : (n.entities.map Entity.id).Nodup
  documents : (n.documents.map DocumentNode.id).Nodup
  triples : (n.triples.map Triple.edge).Nodup
  apart : ∀ e ∈ n.entities, ∀ d ∈ n.documents, e.id ≠ d.id

/-- Two walks found the same, as far as the scope admits it. -/
structure SameAdmitted (scope : Visibility) (n n' : Neighborhood ι) : Prop where
  entities : ∀ e : Entity ι, e.visibility.allows scope = true → (e ∈ n.entities ↔ e ∈ n'.entities)
  documents : ∀ d : DocumentNode ι, d.visibility.allows scope = true →
    (d ∈ n.documents ↔ d ∈ n'.documents)
  triples : ∀ t : Triple ι, t.visibility.allows scope = true → n.EndsAdmitted scope t →
    (t ∈ n.triples ↔ t ∈ n'.triples)

theorem SameAdmitted.endsAdmitted (h : SameAdmitted scope n n') {t : Triple ι} :
    n.EndsAdmitted scope t ↔ n'.EndsAdmitted scope t := by
  have hend : ∀ id : EntityId, (∃ e ∈ n.entities, e.visibility.allows scope = true ∧ e.id = id) ↔
      ∃ e ∈ n'.entities, e.visibility.allows scope = true ∧ e.id = id := fun id =>
    exists_congr fun e => by
      constructor
      · rintro ⟨he, hadm, hid⟩
        exact ⟨(h.entities e hadm).1 he, hadm, hid⟩
      · rintro ⟨he, hadm, hid⟩
        exact ⟨(h.entities e hadm).2 he, hadm, hid⟩
  exact and_congr (hend _) (hend _)

/-- Lists without repeats whose elements that pass are the same, filtered. -/
theorem perm_filter_of_nodup {α : Type} {p p' : α → Bool} {l l' : List α} (hl : l.Nodup)
    (hl' : l'.Nodup) (h : ∀ a, a ∈ l ∧ p a = true ↔ a ∈ l' ∧ p' a = true) :
    (l.filter p).Perm (l'.filter p') :=
  (List.perm_ext_iff_of_nodup (hl.filter p) (hl'.filter p')).2 fun a => by
    rw [List.mem_filter, List.mem_filter, h]

theorem SameAdmitted.perm_entities (h : SameAdmitted scope n n') (hn : n.Distinct)
    (hn' : n'.Distinct) : (n.entities.filter fun e => e.visibility.allows scope).Perm
      (n'.entities.filter fun e => e.visibility.allows scope) :=
  perm_filter_of_nodup hn.entities.of_map hn'.entities.of_map fun e =>
    and_congr_left fun hadm => h.entities e hadm

theorem SameAdmitted.perm_documents (h : SameAdmitted scope n n') (hn : n.Distinct)
    (hn' : n'.Distinct) : (n.documents.filter fun d => d.visibility.allows scope).Perm
      (n'.documents.filter fun d => d.visibility.allows scope) :=
  perm_filter_of_nodup hn.documents.of_map hn'.documents.of_map fun d =>
    and_congr_left fun hadm => h.documents d hadm

/-- Nodes with one id are one node. -/
theorem Neighborhood.Distinct.node_eq (hn : n.Distinct) {a b : ExportNode}
    (ha : a ∈ entityNodes n scope ++
      (n.documents.filter fun d => d.visibility.allows scope).map documentNode)
    (hb : b ∈ entityNodes n scope ++
      (n.documents.filter fun d => d.visibility.allows scope).map documentNode)
    (hid : a.id = b.id) : a = b := by
  simp only [entityNodes, List.mem_append, List.mem_map, List.mem_filter] at ha hb
  rcases ha with ⟨e, ⟨he, -⟩, rfl⟩ | ⟨d, ⟨hd, -⟩, rfl⟩ <;>
    rcases hb with ⟨e', ⟨he', -⟩, rfl⟩ | ⟨d', ⟨hd', -⟩, rfl⟩
  · rw [List.inj_on_of_nodup_map hn.entities he he' (hexId_injective hid)]
  · exact absurd (hexId_injective hid) (hn.apart e he d' hd')
  · exact absurd (hexId_injective hid).symm (hn.apart e' he' d hd)
  · rw [List.inj_on_of_nodup_map hn.documents hd hd' (hexId_injective hid)]

/-- Edges in one place are one edge. -/
theorem Neighborhood.Distinct.edge_eq (hn : n.Distinct) {t t' : Triple ι} (ht : t ∈ n.triples)
    (ht' : t' ∈ n.triples) (hplace : (exportEdge t).place = (exportEdge t').place) : t = t' := by
  have hpair : ((exportEdge t).source, (exportEdge t).target, (exportEdge t).predicate) =
      ((exportEdge t').source, (exportEdge t').target, (exportEdge t').predicate) := hplace
  rw [Prod.mk.injEq, Prod.mk.injEq] at hpair
  refine List.inj_on_of_nodup_map hn.triples ht ht' ?_
  rw [Triple.edge, Triple.edge, hexId_injective hpair.1, hexId_injective hpair.2.1]
  exact congrArg _ (congrArg _ hpair.2.2)

/-- **An export is canonical.**  Walks that found the same as far as the scope admits it export the
same nodes and the same edges in the same order: neither the order of the walk nor anything hidden
that it found shows in them. -/
theorem export_canonical (hn : n.Distinct) (hn' : n'.Distinct) (h : SameAdmitted scope n n') :
    (exportNeighborhood n scope).nodes = (exportNeighborhood n' scope).nodes ∧
      (exportNeighborhood n scope).edges = (exportNeighborhood n' scope).edges := by
  constructor
  · have htotal := total_key ExportNode.id
    have htrans := isTrans_key ExportNode.id
    refine insertionSort_eq_of_perm (((h.perm_entities hn hn').map entityNode).append
      ((h.perm_documents hn hn').map documentNode)) fun a ha b hb hab hba => ?_
    exact hn.node_eq ha hb (le_antisymm hab hba)
  · have htotal := total_key ExportEdge.place
    have htrans := isTrans_key ExportEdge.place
    have hperm : (n.triples.filter (edgeKept scope (keptIds n scope))).Perm
        (n'.triples.filter (edgeKept scope (keptIds n' scope))) := by
      refine perm_filter_of_nodup hn.triples.of_map hn'.triples.of_map fun t => ?_
      rw [edgeKept_iff, edgeKept_iff]
      constructor
      · rintro ⟨ht, hadm, hends⟩
        exact ⟨(h.triples t hadm hends).1 ht, hadm, h.endsAdmitted.1 hends⟩
      · rintro ⟨ht, hadm, hends⟩
        exact ⟨(h.triples t hadm (h.endsAdmitted.2 hends)).2 ht, hadm, h.endsAdmitted.2 hends⟩
    refine insertionSort_eq_of_perm (hperm.map exportEdge) fun a ha b hb hab hba => ?_
    obtain ⟨t, ht, rfl⟩ := List.mem_map.1 ha
    obtain ⟨t', ht', rfl⟩ := List.mem_map.1 hb
    rw [hn.edge_eq (List.mem_filter.1 ht).1 (List.mem_filter.1 ht').1 (le_antisymm hab hba)]

/-! ## Walks of a store -/

namespace GraphStore

variable {g : GraphStore ι}

theorem mem_documents_of_mem_mentioning {id : EntityId} {d : DocumentNode ι}
    (h : d ∈ g.findMentioningDocuments id) : d ∈ g.documents := by
  obtain ⟨m, -, hm⟩ := List.mem_filterMap.1 h
  exact (Table.mem_of_find?_eq_some hm).1

theorem mem_collectDocument {docs : Table (DocumentNode ι) (SameKey DocumentNode.id)}
    {doc d : DocumentNode ι} (h : d ∈ collectDocument docs doc) : d ∈ docs ∨ d = doc := by
  unfold collectDocument at h
  split at h
  · exact Or.inl h
  · exact (Table.mem_insertOrIgnore.1 h).imp_right And.left

theorem mem_documents_of_mem_mentioningDocuments {visited : List EntityId} {d : DocumentNode ι}
    (h : d ∈ g.mentioningDocuments visited) : d ∈ g.documents := by
  refine run_invariant (I := fun docs : Table (DocumentNode ι) (SameKey DocumentNode.id) =>
    ∀ d ∈ docs, d ∈ g.documents) (fun docs id hdocs => ?_)
    (fun d hd => absurd hd (Table.not_mem_empty d)) d h
  refine List.foldlRecOn (motive := fun docs : Table (DocumentNode ι) (SameKey DocumentNode.id) =>
    ∀ d ∈ docs, d ∈ g.documents) _ collectDocument hdocs fun docs hdocs doc hdoc d hd => ?_
  rcases mem_collectDocument hd with hd | rfl
  · exact hdocs d hd
  · exact mem_documents_of_mem_mentioning hdoc

/-- What a walk of a store finds, it finds once. -/
theorem distinct_found (hapart : ∀ e ∈ g.entities, ∀ d ∈ g.documents, e.id ≠ d.id)
    (start : EntityId) (maxHops : ℕ) : (g.neighborhood start maxHops).Distinct where
  entities := distinct_neighborhood start maxHops
  documents := List.pairwise_map.2 (Table.unique _)
  triples := once_neighborhood start maxHops
  apart e he d hd := by
    obtain ⟨r, hr, hid, -⟩ := g.getEntity_eq_some.1 (mem_entities_neighborhood.1 he).1
    rw [← hid]
    exact hapart r hr d (mem_documents_of_mem_mentioningDocuments hd)

end GraphStore

/-- She lives in the first place. -/
def settled : GraphStore (Fin 5) :=
  ((GraphStore.empty.upsertEntity (place 0)).upsertEntity (place 1)).insertTriple (livesIn 1 (day 0))

/-- The same, after a second place was entered that is nobody's business. -/
def settledTwice : GraphStore (Fin 5) :=
  ((((GraphStore.empty.upsertEntity { place 2 with visibility := .priv }).upsertEntity
    (place 1)).upsertEntity (place 0)).insertTriple
      { livesIn 2 (day 0) with visibility := .priv }).insertTriple (livesIn 1 (day 0))

end Spectral
