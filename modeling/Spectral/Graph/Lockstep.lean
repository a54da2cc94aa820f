import Mathlib.Data.List.Forall2
import Spectral.Graph.Interference

/-!
# Two graphs walked in lockstep

Of an entity a walk reads the id and the visibility, and of a triple the edge and the visibility.
Two stores that agree on these, entity by entity and triple by triple, are walked alike, and a
recall finds the same in both, up to the times and the texts that come with it.

* `GraphStore.Alike` — two such stores.
* `alike_hops`, `alike_merge` — their walks.
* `alike_recallGraph` — their recalls.
-/

namespace Spectral

open Spectral.Lib

variable {ι : Type}

/-- The same entity, as far as a walk goes. -/
structure Entity.Alike (e e' : Entity ι) : Prop where
  id : e.id = e'.id
  visibility : e.visibility = e'.visibility

/-- The same edge. -/
structure Triple.Alike (t t' : Triple ι) : Prop where
  edge : t.edge = t'.edge
  visibility : t.visibility = t'.visibility

theorem Triple.Alike.far_eq {t t' : Triple ι} (h : t.Alike t') (outgoing : Bool) :
    t.far outgoing = t'.far outgoing := by
  have hedge := h.edge
  simp only [Triple.edge, Prod.mk.injEq] at hedge
  simp only [Triple.far, hedge.1, hedge.2.1]

/-- Two walks at the same place. -/
structure Walk.Alike (w w' : Walk ι) : Prop where
  visited : w.visited = w'.visited
  frontier : w.frontier = w'.frontier
  entities : List.Forall₂ Entity.Alike w.entities w'.entities
  triples : List.Forall₂ Triple.Alike w.triples.rows w'.triples.rows
  truncated : w.truncated = w'.truncated
  broken : w.broken = w'.broken

/-! ## Tables -/

/-- Tables whose rows correspond clash with corresponding rows alike. -/
theorem clashes_iff_of_forall₂ {α κ : Type} [DecidableEq κ] {key : α → κ} {R : α → α → Prop}
    (hkey : ∀ a b, R a b → key a = key b) {t t' : Table α (SameKey key)}
    (h : List.Forall₂ R t.rows t'.rows) {x x' : α} (hx : R x x') : t.Clashes x ↔ t'.Clashes x' := by
  have hkeys : t.rows.map key = t'.rows.map key :=
    List.forall₂_eq_eq_eq ▸ List.rel_map (fun a b hab => hkey a b hab) h
  have hclash : ∀ (t : Table α (SameKey key)) x, t.Clashes x ↔ key x ∈ t.rows.map key := by
    intro t x
    simp [Table.Clashes, SameKey]
  rw [hclash, hclash, hkeys, hkey x x' hx]

/-- So they do after an insert. -/
theorem forall₂_insertOrIgnore {α κ : Type} [DecidableEq κ] {key : α → κ} {R : α → α → Prop}
    (hkey : ∀ a b, R a b → key a = key b) {t t' : Table α (SameKey key)}
    (h : List.Forall₂ R t.rows t'.rows) {x x' : α} (hx : R x x') :
    List.Forall₂ R (t.insertOrIgnore x).rows (t'.insertOrIgnore x').rows := by
  by_cases hc : t.Clashes x
  · rw [Table.insertOrIgnore_of_clashes hc,
      Table.insertOrIgnore_of_clashes ((clashes_iff_of_forall₂ hkey h hx).1 hc)]
    exact h
  · rw [Table.rows_insertOrIgnore_of_not_clashes hc,
      Table.rows_insertOrIgnore_of_not_clashes (mt (clashes_iff_of_forall₂ hkey h hx).2 hc)]
    exact List.rel_append h (.cons hx .nil)

theorem forall₂_foldl_insertOrIgnore {α κ : Type} [DecidableEq κ] {key : α → κ} {R : α → α → Prop}
    (hkey : ∀ a b, R a b → key a = key b) {t t' : Table α (SameKey key)}
    (h : List.Forall₂ R t.rows t'.rows) {xs xs' : List α} (hxs : List.Forall₂ R xs xs') :
    List.Forall₂ R (xs.foldl (fun t x => t.insertOrIgnore x) t).rows
      (xs'.foldl (fun t x => t.insertOrIgnore x) t').rows := by
  induction hxs generalizing t t' with
  | nil => exact h
  | cons hx _ ih => exact ih (forall₂_insertOrIgnore hkey h hx)

/-! ## Walks -/

namespace GraphStore

/-- The same entities, and at each of them the same triples in the same order. -/
structure Alike (g g' : GraphStore ι) : Prop where
  entities : ∀ id, Option.Rel Entity.Alike (g.getEntity id) (g'.getEntity id)
  triples : ∀ id outgoing,
    List.Forall₂ Triple.Alike (g.findTriplesDirected id outgoing) (g'.findTriplesDirected id outgoing)

variable {g g' : GraphStore ι} {w w' : Walk ι}

theorem Alike.entities_toList (h : g.Alike g') (id : EntityId) :
    List.Forall₂ Entity.Alike (g.getEntity id).toList (g'.getEntity id).toList := by
  have hrel := h.entities id
  generalize g.getEntity id = e at hrel
  generalize g'.getEntity id = e' at hrel
  cases hrel with
  | none => exact .nil
  | some he => exact .cons he .nil

theorem alike_startAt (h : g.Alike g') (start : EntityId) :
    (g.startAt start).Alike (g'.startAt start) :=
  ⟨rfl, rfl, h.entities_toList start, .nil, rfl, rfl⟩

theorem alike_reach (h : g.Alike g') (hw : w.Alike w') (other : EntityId) :
    (g.reach w other).Alike (g'.reach w' other) := by
  unfold reach
  by_cases hother : other ∈ w.visited
  · rw [if_pos hother, if_pos (hw.visited ▸ hother)]
    exact hw
  · rw [if_neg hother, if_neg (hw.visited ▸ hother)]
    exact ⟨by simp only [hw.visited], by simp only [hw.frontier],
      List.rel_append hw.entities (h.entities_toList other), hw.triples, hw.truncated, hw.broken⟩

theorem alike_visit (h : g.Alike g') (hw : w.Alike w') (outgoing : Bool) {t t' : Triple ι}
    (ht : t.Alike t') : (g.visit outgoing w t).Alike (g'.visit outgoing w' t') := by
  have hreach := alike_reach h hw (t.far outgoing)
  rw [ht.far_eq outgoing] at hreach
  have htriples := forall₂_insertOrIgnore (fun _ _ h => h.edge) hreach.triples ht
  unfold visit
  rw [hw.broken]
  split
  · exact hw
  · dsimp only
    rw [ht.far_eq outgoing, htriples.length_eq, hreach.frontier]
    split
    · exact ⟨hreach.visited, rfl, hreach.entities, htriples, rfl, rfl⟩
    · exact ⟨hreach.visited, rfl, hreach.entities, htriples, hreach.truncated, hreach.broken⟩

theorem alike_foldl_visit (h : g.Alike g') (outgoing : Bool) {ts ts' : List (Triple ι)}
    (hts : List.Forall₂ Triple.Alike ts ts') (hw : w.Alike w') :
    (ts.foldl (g.visit outgoing) w).Alike (ts'.foldl (g'.visit outgoing) w') := by
  induction hts generalizing w w' with
  | nil => exact hw
  | cons ht _ ih => exact ih (alike_visit h hw outgoing ht)

theorem alike_expand (h : g.Alike g') (hw : w.Alike w') (id : EntityId) :
    (g.expand w id).Alike (g'.expand w' id) :=
  alike_foldl_visit h false (h.triples id false) (alike_foldl_visit h true (h.triples id true) hw)

theorem alike_hop (h : g.Alike g') (hw : w.Alike w') : (g.hop w).Alike (g'.hop w') := by
  have hfold : ∀ (ids : List EntityId) (w w' : Walk ι), w.Alike w' →
      (ids.foldl g.expand w).Alike (ids.foldl g'.expand w') := by
    intro ids
    induction ids with
    | nil => exact fun _ _ hw => hw
    | cons id ids ih => exact fun w w' hw => ih _ _ (alike_expand h hw id)
  unfold hop
  rw [hw.frontier]
  exact hfold _ _ _ ⟨hw.visited, rfl, hw.entities, hw.triples, hw.truncated, rfl⟩

/-- **Walks, in lockstep.** -/
theorem alike_hops (h : g.Alike g') (n : ℕ) (hw : w.Alike w') : (g.hops n w).Alike (g'.hops n w') := by
  induction n generalizing w w' with
  | zero => exact hw
  | succ n ih =>
    unfold hops
    rw [hw.frontier]
    split
    · exact hw
    · exact ih (alike_hop h hw)

/-- What the walks from the seeds found. -/
structure Merged.Alike (m m' : Merged ι) : Prop where
  entities : List.Forall₂ Entity.Alike m.entities.rows m'.entities.rows
  triples : List.Forall₂ Triple.Alike m.triples.rows m'.triples.rows

theorem alike_merge (h : g.Alike g') (seeds : List EntityId) :
    Merged.Alike (seeds.foldl g.mergeSeed {}) (seeds.foldl g'.mergeSeed {}) := by
  induction seeds using List.reverseRecOn with
  | nil => exact ⟨.nil, .nil⟩
  | append_singleton seeds seed ih =>
    have hwalk := alike_hops h 2 (alike_startAt h seed)
    rw [List.foldl_append, List.foldl_append]
    exact ⟨forall₂_foldl_insertOrIgnore (fun _ _ h => h.id) ih.entities hwalk.entities,
      forall₂_foldl_insertOrIgnore (fun _ _ h => h.edge) ih.triples hwalk.triples⟩

end GraphStore

/-- **Recalls.**  The entities and the triples that a context gets to see are the same. -/
theorem alike_recallGraph (env : Env) (lib : TextLibrary) (o : Ontology) {g g' : GraphStore ι}
    (h : g.Alike g') (query : String) (v : Visibility) :
    List.Forall₂ Entity.Alike
        (GraphBrain.recallGraph env lib ⟨o, g⟩ query v).neighborhood.entities
        (GraphBrain.recallGraph env lib ⟨o, g'⟩ query v).neighborhood.entities ∧
      List.Forall₂ Triple.Alike
        (GraphBrain.recallGraph env lib ⟨o, g⟩ query v).neighborhood.triples
        (GraphBrain.recallGraph env lib ⟨o, g'⟩ query v).neighborhood.triples := by
  by_cases hseeds : o.seeds env lib query = []
  · simp only [GraphBrain.recallGraph, hseeds, ↓reduceIte]
    exact ⟨.nil, .nil⟩
  · rw [recallGraph_eq_visible env lib o query g v hseeds,
      recallGraph_eq_visible env lib o query g' v hseeds]
    have hmerge := GraphStore.alike_merge h (o.seeds env lib query)
    refine ⟨List.rel_filter (fun e e' he => ?_) hmerge.entities,
      List.rel_filter (fun t t' ht => ?_) hmerge.triples⟩
    · show e.visibility.allows v = true ↔ e'.visibility.allows v = true
      rw [he.visibility]
    · show t.visibility.allows v = true ↔ t'.visibility.allows v = true
      rw [ht.visibility]

end Spectral
