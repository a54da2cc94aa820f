import Spectral.Graph.Canonicalize

/-!
# Graph recall

`recall_graph` walks from the entities a query mentions along the triples, two hops far, and drops
from what it found what the context may not see.

* `neighborhood` — the walk: breadth first, along triples in both directions, with a cap on the
  triples of the walk and on the entities of a hop.
* `recallGraph` — the walks from all seeds, merged, and filtered by visibility at the end.
* `Walk.Sound` — what a walk finds is in the store, and of the triples with the same ends and the
  same predicate it is the first one.
* `Walk.Within` — a walk only grows.
-/

namespace Spectral

open Spectral.Lib

/-- `Neighborhood`. -/
structure Neighborhood (ι : Type) where
  entities : List (Entity ι)
  triples : List (Triple ι)
  documents : List (DocumentNode ι)
  truncated : Bool
  deriving DecidableEq

/-- `RecallResult`. -/
structure RecallResult (ι : Type) where
  seedEntities : List EntityId
  triples : List (Triple ι)
  neighborhood : Neighborhood ι
  deriving DecidableEq

/-- `MAX_FRONTIER`. -/
def maxFrontier : ℕ := 512

/-- `MAX_TRIPLES`. -/
def maxTriples : ℕ := 10000

/-- `MAX_DOCUMENTS`. -/
def maxDocuments : ℕ := 100

/-- The state of a walk.  `seen_edges` holds the edges of `triples`. -/
structure Walk (ι : Type) where
  visited : List EntityId
  frontier : List EntityId
  entities : List (Entity ι) := []
  triples : Table (Triple ι) (SameKey Triple.edge) := .empty
  truncated : Bool := false
  /-- The hop was broken off. -/
  broken : Bool := false

namespace GraphStore

variable {ι : Type} (g : GraphStore ι)

/-! ## The walk -/

/-- Where a walk starts. -/
def startAt (start : EntityId) : Walk ι :=
  { visited := [start], frontier := [start], entities := (g.getEntity start).toList }

/-- An entity a triple leads to. -/
def reach (w : Walk ι) (other : EntityId) : Walk ι :=
  if other ∈ w.visited then w
  else
    { w with
      visited := w.visited ++ [other]
      frontier := w.frontier ++ [other]
      entities := w.entities ++ (g.getEntity other).toList }

/-- A triple of the walk, and the entity it leads to. -/
def visit (outgoing : Bool) (w : Walk ι) (t : Triple ι) : Walk ι :=
  if w.broken then w
  else
    let w := g.reach w (t.far outgoing)
    let w := { w with triples := w.triples.insertOrIgnore t }
    if maxTriples ≤ w.triples.rows.length ∨ maxFrontier ≤ w.frontier.length then
      { w with truncated := true, broken := true }
    else w

/-- The triples of an entity: those that leave it, then those that arrive. -/
def expand (w : Walk ι) (id : EntityId) : Walk ι :=
  let w := (g.findTriplesDirected id true).foldl (g.visit true) w
  (g.findTriplesDirected id false).foldl (g.visit false) w

/-- One hop, from every entity of the frontier. -/
def hop (w : Walk ι) : Walk ι :=
  w.frontier.foldl g.expand { w with frontier := [], broken := false }

/-- The hops of a walk. -/
def hops : ℕ → Walk ι → Walk ι
  | 0, w => w
  | n + 1, w => if w.frontier = [] then w else hops n (g.hop w)

/-- The loop over the documents, which ends at the cap. -/
def collectDocument (docs : Table (DocumentNode ι) (SameKey DocumentNode.id))
    (doc : DocumentNode ι) : Table (DocumentNode ι) (SameKey DocumentNode.id) :=
  if maxDocuments ≤ docs.rows.length then docs else docs.insertOrIgnore doc

/-- The documents that mention an entity of the walk, the entities in the order of their ids. -/
def mentioningDocuments (visited : List EntityId) : List (DocumentNode ι) :=
  ((visited.insertionSort fun a b => a.toList ≤ b.toList).foldl
    (fun docs id => (g.findMentioningDocuments id).foldl collectDocument docs) .empty).rows

/-- `neighborhood`. -/
def neighborhood (start : EntityId) (maxHops : ℕ) : Neighborhood ι :=
  let w := g.hops maxHops (g.startAt start)
  { entities := w.entities
    triples := w.triples.rows
    documents := g.mentioningDocuments w.visited
    truncated := w.truncated }

/-! ## The walks of a query -/

/-- What the walks from several seeds found. -/
structure Merged (ι : Type) where
  entities : Table (Entity ι) (SameKey Entity.id) := .empty
  triples : Table (Triple ι) (SameKey Triple.edge) := .empty
  documents : Table (DocumentNode ι) (SameKey DocumentNode.id) := .empty
  truncated : Bool := false

/-- The walk from one more seed. -/
def mergeSeed (m : Merged ι) (seed : EntityId) : Merged ι :=
  let hood := g.neighborhood seed 2
  { entities := hood.entities.foldl (fun t e => t.insertOrIgnore e) m.entities
    triples := hood.triples.foldl (fun t e => t.insertOrIgnore e) m.triples
    documents := hood.documents.foldl (fun t e => t.insertOrIgnore e) m.documents
    truncated := m.truncated || hood.truncated }

/-- What the walks found, as far as the context may see it. -/
def Merged.visible (m : Merged ι) (seeds : List EntityId) (contextVisibility : Visibility) :
    RecallResult ι :=
  let triples := m.triples.rows.filter fun t => t.visibility.allows contextVisibility
  { seedEntities := seeds
    triples
    neighborhood :=
      { entities := m.entities.rows.filter fun e => e.visibility.allows contextVisibility
        triples
        documents := m.documents.rows.filter fun d => d.visibility.allows contextVisibility
        truncated := m.truncated } }

end GraphStore

/-- What a graph recall reads of a brain. -/
structure GraphBrain (ι : Type) where
  ontology : Ontology
  store : GraphStore ι

/-- The seeds of a query. -/
def Ontology.seeds (env : Env) (lib : TextLibrary) (o : Ontology) (query : String) : List EntityId :=
  (canonicalize env lib o query.toList).map MatchedMention.entityId

/-- `recall_graph`. -/
def GraphBrain.recallGraph {ι : Type} (env : Env) (lib : TextLibrary) (b : GraphBrain ι)
    (query : String) (contextVisibility : Visibility) : RecallResult ι :=
  let seeds := b.ontology.seeds env lib query
  if seeds = [] then
    { seedEntities := [], triples := []
      neighborhood := { entities := [], triples := [], documents := [], truncated := false } }
  else (seeds.foldl b.store.mergeSeed {}).visible seeds contextVisibility

/-! ## What a walk finds -/

/-- What a walk has is in another one. -/
structure Walk.Within {ι : Type} (w w' : Walk ι) : Prop where
  entities : ∀ e ∈ w.entities, e ∈ w'.entities
  triples : ∀ t, w.triples.Clashes t → w'.triples.Clashes t

/-- What a walk has comes from the store: of an edge the first triple. -/
structure Walk.Sound {ι : Type} (g : GraphStore ι) (w : Walk ι) : Prop where
  entities : ∀ e ∈ w.entities, g.getEntity e.id = some e
  triples : ∀ t ∈ w.triples, (g.triples.map TripleRow.triple).find? (fun x => x.edge = t.edge) = some t

theorem Walk.Within.refl {ι : Type} (w : Walk ι) : w.Within w := ⟨fun _ h => h, fun _ h => h⟩

theorem Walk.Within.trans {ι : Type} {w w' w'' : Walk ι} (h : w.Within w') (h' : w'.Within w'') :
    w.Within w'' :=
  ⟨fun e he => h'.entities e (h.entities e he), fun t ht => h'.triples t (h.triples t ht)⟩

namespace GraphStore

variable {ι : Type} (g : GraphStore ι)

/-- The triples, without the bookkeeping of their supersession. -/
def stored : List (Triple ι) := g.triples.map TripleRow.triple

theorem mem_findTriplesDirected {id : EntityId} {outgoing : Bool} {t : Triple ι} :
    t ∈ g.findTriplesDirected id outgoing ↔
      t ∈ g.stored ∧ t.near outgoing = id := by
  simp [findTriplesDirected, stored]

variable {g}

/-! ### One step -/

variable {w : Walk ι} {outgoing : Bool} {t : Triple ι}

@[simp] theorem reach_triples {other : EntityId} : (g.reach w other).triples = w.triples := by
  unfold reach
  split <;> rfl

theorem frontier_prefix_reach {other : EntityId} : w.frontier <+: (g.reach w other).frontier := by
  unfold reach
  split
  · exact List.prefix_rfl
  · exact List.prefix_append _ _

theorem mem_entities_reach {other : EntityId} {e : Entity ι} :
    e ∈ (g.reach w other).entities ↔
      e ∈ w.entities ∨ other ∉ w.visited ∧ g.getEntity other = some e := by
  unfold reach
  split
  · simp [*]
  · simp [*]

theorem visit_of_broken (h : w.broken = true) : g.visit outgoing w t = w := by
  rw [visit, if_pos h]

section

variable (h : w.broken = false)
include h

theorem entities_visit :
    (g.visit outgoing w t).entities =
      (g.reach w (t.far outgoing)).entities := by
  simp only [visit, h, Bool.false_eq_true, ↓reduceIte]
  split <;> rfl

theorem triples_visit : (g.visit outgoing w t).triples = w.triples.insertOrIgnore t := by
  simp only [visit, h, Bool.false_eq_true, ↓reduceIte, reach_triples]
  split <;> rfl

theorem frontier_visit :
    (g.visit outgoing w t).frontier =
      (g.reach w (t.far outgoing)).frontier := by
  simp only [visit, h, Bool.false_eq_true, ↓reduceIte]
  split <;> rfl

end

theorem within_visit : w.Within (g.visit outgoing w t) := by
  cases h : w.broken with
  | true => rw [visit_of_broken h]; exact .refl w
  | false =>
    refine ⟨fun e he => ?_, fun x hx => ?_⟩
    · rw [entities_visit h, mem_entities_reach]
      exact Or.inl he
    · rw [triples_visit h]
      obtain ⟨r, hr, hrx⟩ := hx
      exact ⟨r, Table.mem_insertOrIgnore_of_mem hr, hrx⟩

theorem frontier_prefix_visit : w.frontier <+: (g.visit outgoing w t).frontier := by
  cases h : w.broken with
  | true => rw [visit_of_broken h]
  | false => rw [frontier_visit h]; exact frontier_prefix_reach

/-- The triple of a step is found, or one that makes the same edge was. -/
theorem clashes_visit (h : w.broken = false) : (g.visit outgoing w t).triples.Clashes t := by
  rw [triples_visit h]
  rcases Table.exists_clash_or_mem_insertOrIgnore w.triples t with ⟨r, hr, hrt⟩ | hmem
  · exact ⟨r, Table.mem_insertOrIgnore_of_mem hr, hrt⟩
  · exact ⟨t, hmem, rfl⟩

/-- A step that is not the last one of its hop. -/
theorem broken_visit (h : w.broken = false) (htriples : w.triples.rows.length + 1 < maxTriples)
    (hfrontier : w.frontier.length + 1 < maxFrontier) : (g.visit outgoing w t).broken = false := by
  have hlength : (w.triples.insertOrIgnore t).rows.length ≤ w.triples.rows.length + 1 := by
    by_cases hc : w.triples.Clashes t
    · rw [Table.insertOrIgnore_of_clashes hc]
      omega
    · rw [Table.rows_insertOrIgnore_of_not_clashes hc, List.length_append, List.length_singleton]
  have hreach : ∀ other, (g.reach w other).frontier.length ≤ w.frontier.length + 1 := by
    intro other
    unfold reach
    split <;> simp
  have hnext := hreach (t.far outgoing)
  simp only [visit, h, Bool.false_eq_true, ↓reduceIte, reach_triples]
  rw [if_neg (by omega)]
  unfold reach
  split <;> exact h

/-! ### Hops -/

/-- What every step of a walk keeps, a walk keeps. -/
theorem expand_induction {P : Walk ι → Prop} {id : EntityId}
    (hvisit : ∀ w outgoing t, t ∈ g.findTriplesDirected id outgoing → P w →
      P (g.visit outgoing w t)) (hw : P w) : P (g.expand w id) := by
  have hfold : ∀ outgoing w, P w →
      P ((g.findTriplesDirected id outgoing).foldl (g.visit outgoing) w) := fun outgoing w hw =>
    List.foldlRecOn (motive := P) _ _ hw fun w hw t ht => hvisit w outgoing t ht hw
  exact hfold false _ (hfold true w hw)

theorem hops_induction {P : Walk ι → Prop} (hreset : ∀ w, P w → P { w with frontier := [], broken := false })
    (hexpand : ∀ w id, P w → P (g.expand w id)) (n : ℕ) (hw : P w) : P (g.hops n w) := by
  induction n generalizing w with
  | zero => exact hw
  | succ n ih =>
    unfold hops
    split
    · exact hw
    · exact ih (List.foldlRecOn (motive := P) _ _ (hreset w hw) fun w hw id _ => hexpand w id hw)

theorem within_expand {id : EntityId} : w.Within (g.expand w id) :=
  expand_induction (P := fun w' => w.Within w') (fun _ _ _ _ h => h.trans within_visit) (.refl w)

theorem within_hops (n : ℕ) : w.Within (g.hops n w) :=
  hops_induction (P := fun w' => w.Within w') (fun _ h => ⟨h.entities, h.triples⟩)
    (fun _ _ h => h.trans within_expand) n (.refl w)

/-! ### Soundness -/

theorem sound_startAt (start : EntityId) : (g.startAt start).Sound g := by
  refine ⟨fun e he => ?_, fun t ht => absurd ht (Table.not_mem_empty t)⟩
  have hget : g.getEntity start = some e := by simpa [startAt] using he
  rw [g.id_of_getEntity hget, hget]

/-- The triples of an entity, in one direction: of those that make one edge the first is first. -/
theorem sound_foldl_visit (id : EntityId) (outgoing : Bool) (hw : w.Sound g) :
    ((g.findTriplesDirected id outgoing).foldl (g.visit outgoing) w).Sound g := by
  -- until the hop is broken off, every triple that was gone through has its edge in the walk
  suffices h : ∀ todo done w, g.findTriplesDirected id outgoing = done ++ todo → w.Sound g →
      (w.broken = true ∨ ∀ t ∈ done, w.triples.Clashes t) →
      (todo.foldl (g.visit outgoing) w).Sound g from
    h _ [] w rfl hw (Or.inr fun t ht => absurd ht List.not_mem_nil)
  intro todo
  induction todo with
  | nil => exact fun _ _ _ hw _ => hw
  | cons t todo ih =>
    intro done w hlist hw hdone
    rw [List.foldl_cons]
    cases hb : w.broken with
    | true =>
      rw [visit_of_broken hb]
      exact ih (done ++ [t]) w (by simpa using hlist) hw (Or.inl hb)
    | false =>
      have hclash : ∀ x ∈ done, w.triples.Clashes x := hdone.resolve_left (by simp [hb])
      refine ih (done ++ [t]) _ (by simpa using hlist) ⟨fun e he => ?_, fun x hx => ?_⟩ (Or.inr ?_)
      · rw [entities_visit hb, mem_entities_reach] at he
        rcases he with he | ⟨-, he⟩
        · exact hw.entities e he
        · rw [g.id_of_getEntity he, he]
      · rw [triples_visit hb, Table.mem_insertOrIgnore] at hx
        rcases hx with hx | ⟨rfl, hnew⟩
        · exact hw.triples x hx
        · have hdirected : (g.findTriplesDirected id outgoing).find? (fun y => y.edge = x.edge) =
              some x := by
            rw [hlist, List.find?_append, List.find?_eq_none.2 fun y hy hedge => ?_]
            · simp
            · obtain ⟨r, hr, hry⟩ := hclash y hy
              exact hnew ⟨r, hr, Eq.trans hry (of_decide_eq_true hedge)⟩
          have hend : x.near outgoing = id :=
            (g.mem_findTriplesDirected.1 (hlist ▸ List.mem_append_right _ List.mem_cons_self)).2
          rw [findTriplesDirected, List.find?_filter] at hdirected
          rw [← hdirected]
          congr 1
          funext y
          by_cases hedge : y.edge = x.edge
          · simp [hedge, Triple.near_eq_of_edge hedge outgoing, hend]
          · simp [hedge]
      · intro x hx
        rcases List.mem_append.1 hx with hx | hx
        · exact within_visit.triples x (hclash x hx)
        · rw [List.mem_singleton.1 hx]
          exact clashes_visit hb

theorem sound_expand {id : EntityId} (hw : w.Sound g) : (g.expand w id).Sound g :=
  sound_foldl_visit id false (sound_foldl_visit id true hw)

theorem sound_hops (n : ℕ) (start : EntityId) : (g.hops n (g.startAt start)).Sound g :=
  hops_induction (P := fun w => w.Sound g) (fun _ h => ⟨h.entities, h.triples⟩)
    (fun _ _ h => sound_expand h) n (sound_startAt start)

end GraphStore

end Spectral
