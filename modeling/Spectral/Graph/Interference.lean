import Spectral.Graph.Recall

/-!
# What a graph recall gives away

A graph recall filters by visibility what its walks found; the walks themselves go along every
triple.  So what the context may not see decides what it gets to see: a hidden triple leads to an
entity, and a hidden triple takes the place of a visible one that makes the same edge.

* `SameVisible` — two stores in which a context sees the same.
* `recallGraph_blind_iff` — for which stores, queries and contexts the hidden part does not matter.
-/

namespace Spectral

open Spectral.Lib

/-- Everything is admitted to a private context. -/
@[simp] theorem Visibility.allows_priv (v : Visibility) : v.allows .priv = true := by
  cases v <;> rfl

/-- No other context is admitted to what is private. -/
theorem Visibility.priv_allows {v : Visibility} (h : v ≠ .priv) : Visibility.priv.allows v = false := by
  cases v with
  | priv => exact absurd rfl h
  | team | org | pub => rfl

namespace GraphStore

variable {ι : Type}

/-! ## The merged walks -/

section

variable {g : GraphStore ι}

/-- What the walks found comes from the store: of an edge the first triple. -/
structure Merged.Sound (g : GraphStore ι) (m : Merged ι) : Prop where
  entities : ∀ e ∈ m.entities, g.getEntity e.id = some e
  triples : ∀ t ∈ m.triples, g.stored.find? (fun x => x.edge = t.edge) = some t

theorem sound_merge (seeds : List EntityId) : (seeds.foldl g.mergeSeed {}).Sound g := by
  refine List.foldlRecOn (motive := fun m => Merged.Sound g m) _ _
    ⟨fun e h => absurd h (Table.not_mem_empty e), fun t h => absurd h (Table.not_mem_empty t)⟩ ?_
  intro m hm seed _
  have hwalk := sound_hops (g := g) 2 seed
  refine ⟨fun e he => ?_, fun t ht => ?_⟩
  · exact (Table.mem_or_mem_of_mem_foldl he).elim (hm.entities e) (hwalk.entities e)
  · exact (Table.mem_or_mem_of_mem_foldl ht).elim (hm.triples t) (hwalk.triples t)

/-- What the walk from one of the seeds finds, the merged walks find. -/
theorem clashes_merge {seeds : List EntityId} {seed : EntityId} (h : seed ∈ seeds) :
    (∀ e ∈ (g.neighborhood seed 2).entities, (seeds.foldl g.mergeSeed {}).entities.Clashes e) ∧
      ∀ t ∈ (g.neighborhood seed 2).triples, (seeds.foldl g.mergeSeed {}).triples.Clashes t := by
  obtain ⟨before, after, rfl⟩ := List.append_of_mem h
  rw [List.foldl_append, List.foldl_cons]
  have hkeep : ∀ m : Merged ι,
      (∀ e, m.entities.Clashes e → (after.foldl g.mergeSeed m).entities.Clashes e) ∧
        ∀ t, m.triples.Clashes t → (after.foldl g.mergeSeed m).triples.Clashes t := by
    intro m
    refine List.foldlRecOn (motive := fun m' : Merged ι =>
      (∀ e, m.entities.Clashes e → m'.entities.Clashes e) ∧
        ∀ t, m.triples.Clashes t → m'.triples.Clashes t) _ _ ⟨fun _ h => h, fun _ h => h⟩ ?_
    rintro m' ⟨hentities, htriples⟩ seed' -
    refine ⟨fun e he => ?_, fun t ht => ?_⟩
    · obtain ⟨r, hr, hre⟩ := hentities e he
      exact ⟨r, Table.mem_foldl_of_mem hr, hre⟩
    · obtain ⟨r, hr, hrt⟩ := htriples t ht
      exact ⟨r, Table.mem_foldl_of_mem hr, hrt⟩
  exact ⟨fun e he => (hkeep _).1 e (Table.clashes_foldl he),
    fun t ht => (hkeep _).2 t (Table.clashes_foldl ht)⟩

theorem mem_entities_merge {seeds : List EntityId} {seed : EntityId} (h : seed ∈ seeds) {e : Entity ι}
    (he : e ∈ (g.neighborhood seed 2).entities) : e ∈ (seeds.foldl g.mergeSeed {}).entities := by
  obtain ⟨r, hr, hid⟩ := (clashes_merge h).1 e he
  have hget := (sound_merge seeds).entities r hr
  rw [show r.id = e.id from hid, (sound_hops (g := g) 2 seed).entities e he] at hget
  exact Option.some.inj hget ▸ hr

/-- Of the edges of the walk from a seed, the merged walks have the first triple. -/
theorem mem_triples_merge {seeds : List EntityId} {seed : EntityId} (h : seed ∈ seeds) {t : Triple ι}
    (ht : (g.hops 2 (g.startAt seed)).triples.Clashes t)
    (hfirst : g.stored.find? (fun x => x.edge = t.edge) = some t) :
    t ∈ (seeds.foldl g.mergeSeed {}).triples := by
  obtain ⟨r, hr, hrt⟩ := ht
  obtain ⟨r', hr', hrr'⟩ := (clashes_merge h).2 r hr
  have hsound := (sound_merge seeds).triples r' hr'
  rw [show r'.edge = t.edge from Eq.trans hrr' hrt, hfirst] at hsound
  exact Option.some.inj hsound ▸ hr'

/-- What the merged walks find, the walk from one of the seeds does. -/
theorem exists_seed_of_mem_merge {seeds : List EntityId} {e : Entity ι}
    (h : e ∈ (seeds.foldl g.mergeSeed {}).entities) :
    ∃ seed ∈ seeds, e ∈ (g.neighborhood seed 2).entities := by
  induction seeds using List.reverseRecOn with
  | nil => exact absurd h (Table.not_mem_empty e)
  | append_singleton seeds seed ih =>
    rw [List.foldl_append, List.foldl_cons, List.foldl_nil] at h
    rcases Table.mem_or_mem_of_mem_foldl h with h | h
    · obtain ⟨seed', hseed', hmem⟩ := ih h
      exact ⟨seed', List.mem_append_left _ hseed', hmem⟩
    · exact ⟨seed, by simp, h⟩

/-- A seed that is an entity is found. -/
theorem seed_mem_merge {seeds : List EntityId} {seed : EntityId} (h : seed ∈ seeds) {e : Entity ι}
    (he : g.getEntity seed = some e) : e ∈ (seeds.foldl g.mergeSeed {}).entities :=
  mem_entities_merge h ((within_hops 2).entities e (by simp [startAt, he]))

end

/-! ## What a context sees -/

/-- The triples a context may see. -/
def visibleTriples (g : GraphStore ι) (v : Visibility) : List (TripleRow ι) :=
  g.triples.filter fun r => r.triple.visibility.allows v

/-- A context sees the same entities, triples and documents in both stores. -/
structure SameVisible (v : Visibility) (g g' : GraphStore ι) : Prop where
  entities : ∀ e : Entity ι, e.visibility.allows v = true → (e ∈ g.entities ↔ e ∈ g'.entities)
  triples : (g.visibleTriples v).map (fun r => (r.triple, r.validTo)) =
    (g'.visibleTriples v).map fun r => (r.triple, r.validTo)
  documents : ∀ d : DocumentNode ι, d.visibility.allows v = true →
    (d ∈ g.documents ↔ d ∈ g'.documents)

end GraphStore

/-- Two results with the same seeds, entities and triples. -/
structure RecallResult.Same {ι : Type} (r r' : RecallResult ι) : Prop where
  seedEntities : r.seedEntities = r'.seedEntities
  entities : ∀ e, e ∈ r.neighborhood.entities ↔ e ∈ r'.neighborhood.entities
  triples : ∀ t, t ∈ r.neighborhood.triples ↔ t ∈ r'.neighborhood.triples

namespace RecallResult.Same

variable {ι : Type} {r r' r'' : RecallResult ι}

@[simp] theorem refl (r : RecallResult ι) : r.Same r := ⟨rfl, fun _ => Iff.rfl, fun _ => Iff.rfl⟩

theorem symm (h : r.Same r') : r'.Same r :=
  ⟨h.seedEntities.symm, fun e => (h.entities e).symm, fun t => (h.triples t).symm⟩

theorem trans (h : r.Same r') (h' : r'.Same r'') : r.Same r'' :=
  ⟨h.seedEntities.trans h'.seedEntities, fun e => (h.entities e).trans (h'.entities e),
    fun t => (h.triples t).trans (h'.triples t)⟩

end RecallResult.Same

namespace GraphStore

variable {ι : Type} {g g' : GraphStore ι} {v : Visibility}

theorem mem_visibleTriples {r : TripleRow ι} :
    r ∈ g.visibleTriples v ↔ r ∈ g.triples ∧ r.triple.visibility.allows v = true := by
  simp [visibleTriples]

theorem SameVisible.visibleTriples_eq_nil (h : g.SameVisible v g') (hnone : g.visibleTriples v = []) :
    g'.visibleTriples v = [] := by
  have htriples := h.triples
  rw [hnone, List.map_nil] at htriples
  exact List.map_eq_nil_iff.1 htriples.symm

/-- A visible entity is looked up alike. -/
theorem SameVisible.getEntity_iff (h : g.SameVisible v g') {id : EntityId} {e : Entity ι}
    (he : e.visibility.allows v = true) : g.getEntity id = some e ↔ g'.getEntity id = some e := by
  rw [getEntity_eq_some, getEntity_eq_some]
  have hrow : ∀ r : Entity ι, r.fromRow = e → (r ∈ g.entities ↔ r ∈ g'.entities) := by
    rintro r rfl
    exact h.entities r he
  constructor
  · rintro ⟨r, hr, hid, hread⟩
    exact ⟨r, (hrow r hread).1 hr, hid, hread⟩
  · rintro ⟨r, hr, hid, hread⟩
    exact ⟨r, (hrow r hread).2 hr, hid, hread⟩

/-! ## Walks that see everything -/

/-- A walk depends on the entities it looks up and on the triples. -/
theorem hops_congr (hentity : g.getEntity = g'.getEntity) (hstored : g.stored = g'.stored) (n : ℕ)
    (w : Walk ι) : g.hops n w = g'.hops n w := by
  have hreach : g.reach = g'.reach := by
    funext w other
    unfold reach
    rw [hentity]
  have hvisit : g.visit = g'.visit := by
    funext outgoing w t
    unfold visit
    rw [hreach]
  have hfind : g.findTriplesDirected = g'.findTriplesDirected := by
    funext id outgoing
    show g.stored.filter _ = g'.stored.filter _
    rw [hstored]
  have hexpand : g.expand = g'.expand := by
    funext w id
    simp only [expand, hvisit, hfind]
  induction n generalizing w with
  | zero => rfl
  | succ n ih =>
    unfold hops
    rw [ih, hop, hop, hexpand]

theorem merge_congr (hentity : g.getEntity = g'.getEntity) (hstored : g.stored = g'.stored)
    (seeds : List EntityId) :
    (seeds.foldl g.mergeSeed {}).entities = (seeds.foldl g'.mergeSeed {}).entities ∧
      (seeds.foldl g.mergeSeed {}).triples = (seeds.foldl g'.mergeSeed {}).triples := by
  induction seeds using List.reverseRecOn with
  | nil => exact ⟨rfl, rfl⟩
  | append_singleton seeds seed ih =>
    have hstart : g.startAt seed = g'.startAt seed := by rw [startAt, startAt, hentity]
    have hwalk := hops_congr hentity hstored 2 (g.startAt seed)
    simp only [List.foldl_append, List.foldl_cons, List.foldl_nil, mergeSeed, neighborhood]
    rw [hwalk, hstart, ih.1, ih.2]
    exact ⟨rfl, rfl⟩

/-- To a private context everything is visible. -/
theorem SameVisible.of_priv (h : g.SameVisible .priv g') :
    g.getEntity = g'.getEntity ∧ g.stored = g'.stored := by
  constructor
  · funext id
    ext e
    exact h.getEntity_iff (Visibility.allows_priv _)
  · have htriples := congrArg (List.map Prod.fst) h.triples
    simpa [visibleTriples, stored, Function.comp_def] using htriples

end GraphStore

section

variable {ι : Type} (env : Env) (lib : TextLibrary) (o : Ontology) (query : String)

/-- A recall of a query that mentions some entity. -/
theorem recallGraph_eq_visible (g : GraphStore ι) (v : Visibility)
    (h : o.seeds env lib query ≠ []) :
    GraphBrain.recallGraph env lib ⟨o, g⟩ query v =
      ((o.seeds env lib query).foldl g.mergeSeed {}).visible (o.seeds env lib query) v :=
  if_neg h

variable {env lib o query} {g g' : GraphStore ι} {v : Visibility}

theorem mem_recallGraph_triples (h : o.seeds env lib query ≠ []) {t : Triple ι} :
    t ∈ (GraphBrain.recallGraph env lib ⟨o, g⟩ query v).neighborhood.triples ↔
      t ∈ ((o.seeds env lib query).foldl g.mergeSeed {}).triples ∧
        t.visibility.allows v = true := by
  rw [recallGraph_eq_visible env lib o query g v h]
  simp [GraphStore.Merged.visible]

theorem mem_recallGraph_entities (h : o.seeds env lib query ≠ []) {e : Entity ι} :
    e ∈ (GraphBrain.recallGraph env lib ⟨o, g⟩ query v).neighborhood.entities ↔
      e ∈ ((o.seeds env lib query).foldl g.mergeSeed {}).entities ∧
        e.visibility.allows v = true := by
  rw [recallGraph_eq_visible env lib o query g v h]
  simp [GraphStore.Merged.visible]

theorem seedEntities_recallGraph :
    (GraphBrain.recallGraph env lib ⟨o, g⟩ query v).seedEntities = o.seeds env lib query := by
  by_cases h : o.seeds env lib query = []
  · simp only [GraphBrain.recallGraph, h, ↓reduceIte]
  · rw [recallGraph_eq_visible env lib o query g v h]
    rfl

theorem mem_stored_of_merge {seeds : List EntityId} {t : Triple ι}
    (h : t ∈ (seeds.foldl g.mergeSeed {}).triples) : t ∈ g.stored :=
  List.mem_of_find?_eq_some ((GraphStore.sound_merge seeds).triples t h)

/-- Where a context sees no triple, and no entity that the query does not mention, it sees the
mentioned ones. -/
theorem mem_entities_of_isolated (h : o.seeds env lib query ≠ [])
    (hseeds : ∀ e ∈ g.entities, e.visibility.allows v = true → e.id ∈ o.seeds env lib query)
    {e : Entity ι} :
    e ∈ (GraphBrain.recallGraph env lib ⟨o, g⟩ query v).neighborhood.entities ↔
      g.getEntity e.id = some e ∧ e.visibility.allows v = true := by
  rw [mem_recallGraph_entities h]
  refine and_congr_left fun hv => ⟨(GraphStore.sound_merge _).entities e, fun hget => ?_⟩
  obtain ⟨r, hr, hid, rfl⟩ := g.getEntity_eq_some.1 hget
  exact GraphStore.seed_mem_merge (hseeds r hr hv) hget

end

/-! ## Hidden triples -/

/-- An entity no context but a private one may see. -/
def hiddenEntity {ι : Type} (id : EntityId) (now : ι) : Entity ι :=
  { id, entityType := "", canonical := "", visibility := .priv, createdAt := now, updatedAt := now }

/-- A triple no context but a private one may see. -/
def hiddenLink {ι : Type} (fromId toId : EntityId) (predicate : String) (now : ι) : Triple ι :=
  { fromId, toId, predicate, confidence := 1, sourceDocId := none
    sourceBrainId := Vector.replicate 32 0, assertedAt := now, visibility := .priv }

namespace GraphStore

variable {ι : Type} (g : GraphStore ι) (v : Visibility)

/-- The store without the triples a context may not see. -/
def onlyVisible : GraphStore ι :=
  { g with
    triples := g.visibleTriples v
    endpoints := fun r hr => g.endpoints r (mem_visibleTriples.1 hr).1 }

/-- The same, with another triple before all others, and an entity it may start or end at. -/
def withTriple (entity : Entity ι) (t : Triple ι)
    (hfrom : t.fromId = entity.id ∨ ∃ e ∈ g.entities, e.id = t.fromId)
    (hto : t.toId = entity.id ∨ ∃ e ∈ g.entities, e.id = t.toId) : GraphStore ι :=
  { g with
    entities := g.entities.insertOrIgnore entity
    triples := { triple := t } :: g.visibleTriples v
    endpoints := by
      have hkey : ∀ id, id = entity.id ∨ (∃ e ∈ g.entities, e.id = id) →
          ∃ e ∈ g.entities.insertOrIgnore entity, e.id = id := fun id h =>
        Table.exists_key_insertOrIgnore.2 (h.symm.imp_right Eq.symm)
      intro r hr
      rcases List.mem_cons.1 hr with rfl | hr
      · exact ⟨hkey _ hfrom, hkey _ hto⟩
      · have hends := g.endpoints r (mem_visibleTriples.1 hr).1
        exact ⟨hkey _ (Or.inr hends.1), hkey _ (Or.inr hends.2)⟩ }

variable {g v}

theorem visibleTriples_visibleTriples {rows : List (TripleRow ι)} (h : rows = g.visibleTriples v) :
    rows.filter (fun r => r.triple.visibility.allows v) = g.visibleTriples v := by
  rw [h, visibleTriples, List.filter_filter]
  simp

theorem sameVisible_onlyVisible : g.SameVisible v (g.onlyVisible v) :=
  ⟨fun _ _ => Iff.rfl, congrArg _ (visibleTriples_visibleTriples rfl).symm, fun _ _ => Iff.rfl⟩

/-- What is added is not seen. -/
theorem sameVisible_withTriple {entity : Entity ι} {t : Triple ι}
    {hfrom : t.fromId = entity.id ∨ ∃ e ∈ g.entities, e.id = t.fromId}
    {hto : t.toId = entity.id ∨ ∃ e ∈ g.entities, e.id = t.toId}
    (hentity : entity.visibility.allows v = false) (ht : t.visibility.allows v = false) :
    g.SameVisible v (g.withTriple v entity t hfrom hto) := by
  refine ⟨fun e he => ?_, congrArg _ ?_, fun _ _ => Iff.rfl⟩
  · show e ∈ g.entities ↔ e ∈ g.entities.insertOrIgnore entity
    rw [Table.mem_insertOrIgnore]
    refine ⟨Or.inl, ?_⟩
    rintro (h | ⟨rfl, -⟩)
    · exact h
    · exact absurd he (by simp [hentity])
  · show g.visibleTriples v = List.filter _ ({ triple := t } :: g.visibleTriples v)
    rw [List.filter_cons_of_neg (by simp [ht]), visibleTriples_visibleTriples rfl]

/-! ### Where they lead -/

/-- The first hop is from the start. -/
theorem hops_startAt (n : ℕ) (start : EntityId) :
    g.hops (n + 1) (g.startAt start) =
      g.hops n (g.expand { g.startAt start with frontier := [], broken := false } start) := by
  have hne : (g.startAt start).frontier ≠ [] := List.cons_ne_nil _ _
  rw [hops, if_neg hne]
  rfl

/-- A hop starts with the first entity of the frontier. -/
theorem within_hops_of_frontier {w : Walk ι} {id : EntityId} (h : [id] <+: w.frontier) (n : ℕ) :
    (g.expand { w with frontier := [], broken := false } id).Within (g.hops (n + 1) w) := by
  obtain ⟨rest, hrest⟩ := h
  have hne : w.frontier ≠ [] := by simp [← hrest]
  rw [hops, if_neg hne, hop, ← hrest, List.singleton_append, List.foldl_cons]
  refine Walk.Within.trans ?_ (within_hops n)
  exact List.foldlRecOn (motive := fun w' => Walk.Within (g.expand _ id) w') _ _ (.refl _)
    fun _ h _ _ => h.trans within_expand

/-- What holds after the first triples of an entity, and is kept by every step, holds after all. -/
theorem expand_prefixed {P : Walk ι → Prop} {id : EntityId} {w : Walk ι} {ts rest : List (Triple ι)}
    (h : g.findTriplesDirected id true = ts ++ rest)
    (hvisit : ∀ w outgoing t, P w → P (g.visit outgoing w t)) (hts : P (ts.foldl (g.visit true) w)) :
    P (g.expand w id) := by
  have hfold : ∀ outgoing (ts : List (Triple ι)) w, P w → P (ts.foldl (g.visit outgoing) w) :=
    fun outgoing ts w hw => List.foldlRecOn (motive := P) _ _ hw fun w hw t _ => hvisit w outgoing t hw
  unfold expand
  rw [h, List.foldl_append]
  exact hfold false _ _ (hfold true rest _ hts)

section

variable {link : Triple ι} {rest : List (Triple ι)} {start : EntityId}

/-- The start, after its first triple. -/
theorem broken_first_visit (t : Triple ι) :
    (g.visit true { g.startAt start with frontier := [], broken := false } t).broken = false :=
  broken_visit rfl (show 0 + 1 < maxTriples by decide) (show 0 + 1 < maxFrontier by decide)

theorem findTriplesDirected_of_stored (hstored : g.stored = link :: rest) (hstart : link.fromId = start) :
    g.findTriplesDirected start true = [link] ++ rest.filter fun t => t.near true = start := by
  have hnear : link.near true = start := hstart
  show g.stored.filter _ = _
  rw [hstored, List.filter_cons_of_pos (by simpa using hnear), List.singleton_append]

/-- The entity the first triple of the start leads to. -/
theorem mem_entities_of_link (hstored : g.stored = link :: rest) (hstart : link.fromId = start)
    (hto : link.toId ≠ start) {e : Entity ι} (he : g.getEntity link.toId = some e) (n : ℕ) :
    e ∈ (g.hops (n + 1) (g.startAt start)).entities := by
  rw [hops_startAt]
  refine (within_hops n).entities e ?_
  refine expand_prefixed (P := fun w => e ∈ w.entities)
    (findTriplesDirected_of_stored hstored hstart) (fun w _ _ h => within_visit.entities e h) ?_
  rw [List.foldl_cons, List.foldl_nil, entities_visit rfl, mem_entities_reach]
  exact Or.inr ⟨by simpa [startAt, Triple.far] using hto, he⟩

/-- The second triple is found when it starts where the first one leads. -/
theorem clashes_of_link {t : Triple ι} (hstored : g.stored = link :: t :: rest)
    (hstart : link.fromId = start) (hlink : link.toId = t.fromId) :
    (g.hops 2 (g.startAt start)).triples.Clashes t := by
  rw [hops_startAt]
  have hfind := findTriplesDirected_of_stored hstored hstart
  have hkeep : ∀ (w : Walk ι) outgoing x, w.triples.Clashes t →
      (g.visit outgoing w x).triples.Clashes t := fun w outgoing x h => within_visit.triples t h
  by_cases hloop : t.fromId = start
  · -- both triples leave the start
    have hnear : t.near true = start := hloop
    have hboth : g.findTriplesDirected start true =
        [link, t] ++ rest.filter fun x => x.near true = start := by
      rw [hfind, List.filter_cons_of_pos (by simpa using hnear)]
      rfl
    refine (within_hops 1).triples t
      (expand_prefixed (P := fun w => w.triples.Clashes t) hboth hkeep ?_)
    exact clashes_visit (broken_first_visit link)
  · -- the first leads to where the second leaves
    have hfrontier : [t.fromId] <+: (g.expand
        { g.startAt start with frontier := [], broken := false } start).frontier := by
      refine expand_prefixed (P := fun w => [t.fromId] <+: w.frontier) hfind
        (fun w _ _ h => h.trans frontier_prefix_visit) ?_
      rw [List.foldl_cons, List.foldl_nil, frontier_visit rfl, show link.far true = t.fromId from hlink,
        reach, if_neg (by simpa [startAt] using hloop)]
      exact List.prefix_rfl
    refine (within_hops_of_frontier hfrontier 0).triples t ?_
    have hlinkNear : link.near true ≠ t.fromId := fun h => hloop (h.symm.trans hstart)
    have hsecond : g.findTriplesDirected t.fromId true =
        [t] ++ rest.filter fun x => x.near true = t.fromId := by
      show g.stored.filter _ = _
      rw [hstored, List.filter_cons_of_neg (by simpa using hlinkNear),
        List.filter_cons_of_pos (by simp [Triple.near]), List.singleton_append]
    refine expand_prefixed (P := fun w => w.triples.Clashes t) hsecond hkeep ?_
    rw [List.foldl_cons, List.foldl_nil]
    exact clashes_visit rfl

/-- Without triples a walk stays where it is. -/
theorem entities_of_stored_nil (h : g.stored = []) (n : ℕ) :
    (g.hops n (g.startAt start)).entities = (g.getEntity start).toList := by
  have hexpand : ∀ w id, g.expand w id = w := by
    intro w id
    have hfind : ∀ outgoing, g.findTriplesDirected id outgoing = [] := by
      intro outgoing
      show g.stored.filter _ = []
      rw [h, List.filter_nil]
    rw [expand, hfind, hfind, List.foldl_nil, List.foldl_nil]
  refine hops_induction (P := fun w => w.entities = (g.getEntity start).toList) (fun _ h => h) ?_ n rfl
  intro w id hw
  rw [hexpand, hw]

end

end GraphStore

/-! ## Interference -/

section

variable {ι : Type} (env : Env) (lib : TextLibrary) (o : Ontology) (query : String)

/-- The recall on every store in which the context sees the same as in `g₀` gives the same. -/
def GraphStore.Blind (g₀ : GraphStore ι) (v : Visibility) : Prop :=
  ∀ g g', g₀.SameVisible v g → g₀.SameVisible v g' →
    (GraphBrain.recallGraph env lib ⟨o, g⟩ query v).Same
      (GraphBrain.recallGraph env lib ⟨o, g'⟩ query v)

variable {env lib o query} {g₀ g : GraphStore ι} {v : Visibility}

/-- A visible triple comes and goes with hidden ones: one that leads to it, and one that makes the
same edge and was stored earlier. -/
theorem visibleTriples_eq_nil_of_blind (h : g₀.Blind env lib o query v) (hv : v ≠ .priv)
    (hseeds : o.seeds env lib query ≠ []) : g₀.visibleTriples v = [] := by
  by_contra hne
  obtain ⟨row, rows, hrows⟩ := List.exists_cons_of_ne_nil hne
  obtain ⟨seed, hseed⟩ := List.exists_mem_of_ne_nil _ hseeds
  obtain ⟨hrow, hvisible⟩ := GraphStore.mem_visibleTriples.1 (hrows ▸ List.mem_cons_self)
  obtain ⟨hfrom, hto⟩ := g₀.endpoints row hrow
  have hhidden := Visibility.priv_allows hv
  let t := row.triple
  let link := hiddenLink seed t.fromId (t.predicate ++ "'") t.assertedAt
  let linked := g₀.withTriple v (hiddenEntity seed t.assertedAt) link (Or.inl rfl) (Or.inr hfrom)
  let double := { t with visibility := .priv }
  let doubled := g₀.withTriple v (hiddenEntity seed t.assertedAt) double (Or.inr hfrom) (Or.inr hto)
  have hlinked : linked.stored = link :: t :: rows.map TripleRow.triple := by
    show link :: (g₀.visibleTriples v).map TripleRow.triple = _
    rw [hrows, List.map_cons]
  have hpredicate : t.predicate ++ "'" ≠ t.predicate := by
    intro heq
    have hlength := congrArg String.length heq
    simp at hlength
  have hfirst : linked.stored.find? (fun x => x.edge = t.edge) = some t := by
    rw [hlinked, List.find?_cons_of_neg, List.find?_cons_of_pos]
    · simp
    · simp [link, hiddenLink, Triple.edge, hpredicate]
  have hfound : t ∈ (GraphBrain.recallGraph env lib ⟨o, linked⟩ query v).neighborhood.triples :=
    (mem_recallGraph_triples hseeds).2 ⟨GraphStore.mem_triples_merge hseed
      (GraphStore.clashes_of_link hlinked rfl rfl) hfirst, hvisible⟩
  have hsame := h linked doubled (GraphStore.sameVisible_withTriple hhidden hhidden)
    (GraphStore.sameVisible_withTriple hhidden hhidden)
  have hmerged := ((mem_recallGraph_triples hseeds).1 ((hsame.triples t).1 hfound)).1
  have hsound := (GraphStore.sound_merge _).triples t hmerged
  have hdoubled : doubled.stored.find? (fun x => x.edge = t.edge) = some double :=
    List.find?_cons_of_pos (decide_eq_true rfl)
  rw [hdoubled] at hsound
  have hpriv : t.visibility = .priv := by rw [← Option.some.inj hsound]
  rw [show row.triple.visibility = .priv from hpriv, hhidden] at hvisible
  exact Bool.noConfusion hvisible

/-- A visible entity comes and goes with a hidden triple that leads to it. -/
theorem mem_seeds_of_blind (h : g₀.Blind env lib o query v) (hv : v ≠ .priv)
    (hseeds : o.seeds env lib query ≠ []) {e : Entity ι} (he : e ∈ g₀.entities)
    (hvisible : e.visibility.allows v = true) : e.id ∈ o.seeds env lib query := by
  by_contra hnot
  obtain ⟨seed, hseed⟩ := List.exists_mem_of_ne_nil _ hseeds
  have hhidden := Visibility.priv_allows hv
  let link := hiddenLink seed e.id "" e.createdAt
  let linked := g₀.withTriple v (hiddenEntity seed e.createdAt) link (Or.inl rfl)
    (Or.inr ⟨e, he, rfl⟩)
  have hget : linked.getEntity e.id = some e.fromRow :=
    linked.getEntity_eq_some.2 ⟨e, Table.mem_insertOrIgnore_of_mem he, rfl, rfl⟩
  have hto : e.id ≠ seed := fun heq => hnot (heq ▸ hseed)
  have hstored : linked.stored = link :: (g₀.visibleTriples v).map TripleRow.triple := rfl
  have hwalk := GraphStore.mem_entities_of_link hstored rfl hto hget 1
  have hfound : e.fromRow ∈
      (GraphBrain.recallGraph env lib ⟨o, linked⟩ query v).neighborhood.entities :=
    (mem_recallGraph_entities hseeds).2 ⟨GraphStore.mem_entities_merge hseed hwalk, hvisible⟩
  have hsame := h linked (g₀.onlyVisible v) (GraphStore.sameVisible_withTriple hhidden hhidden)
    GraphStore.sameVisible_onlyVisible
  have hmerged := ((mem_recallGraph_entities hseeds).1 ((hsame.entities _).1 hfound)).1
  have hnone : (g₀.onlyVisible v).stored = [] := by
    show (g₀.visibleTriples v).map TripleRow.triple = []
    rw [visibleTriples_eq_nil_of_blind h hv hseeds, List.map_nil]
  obtain ⟨seed', hseed', hmem⟩ := GraphStore.exists_seed_of_mem_merge hmerged
  rw [GraphStore.neighborhood, GraphStore.entities_of_stored_nil hnone, Option.mem_toList] at hmem
  rw [← GraphStore.id_of_getEntity _ hmem] at hseed'
  exact hnot hseed'

/-- To a private context nothing is hidden. -/
theorem same_of_priv (h : g₀.SameVisible .priv g) :
    (GraphBrain.recallGraph env lib ⟨o, g₀⟩ query .priv).Same
      (GraphBrain.recallGraph env lib ⟨o, g⟩ query .priv) := by
  refine ⟨by rw [seedEntities_recallGraph, seedEntities_recallGraph], ?_, ?_⟩
  all_goals
    by_cases hseeds : o.seeds env lib query = []
    · simp [GraphBrain.recallGraph, hseeds]
  · simp [mem_recallGraph_entities hseeds, (GraphStore.merge_congr h.of_priv.1 h.of_priv.2 _).1]
  · simp [mem_recallGraph_triples hseeds, (GraphStore.merge_congr h.of_priv.1 h.of_priv.2 _).2]

/-- The context sees the mentioned entities and no triple, whatever is hidden. -/
theorem same_of_isolated (h : g₀.SameVisible v g) (hnone : g₀.visibleTriples v = [])
    (hmentioned : ∀ e ∈ g₀.entities, e.visibility.allows v = true → e.id ∈ o.seeds env lib query)
    (hseeds : o.seeds env lib query ≠ []) :
    (GraphBrain.recallGraph env lib ⟨o, g₀⟩ query v).Same
      (GraphBrain.recallGraph env lib ⟨o, g⟩ query v) := by
  have htriples : ∀ g' : GraphStore ι, g'.visibleTriples v = [] → ∀ t,
      t ∉ (GraphBrain.recallGraph env lib ⟨o, g'⟩ query v).neighborhood.triples := by
    intro g' hnone t ht
    obtain ⟨hmerged, hvisible⟩ := (mem_recallGraph_triples hseeds).1 ht
    obtain ⟨row, hrow, rfl⟩ := List.mem_map.1 (mem_stored_of_merge hmerged)
    exact List.ne_nil_of_mem (GraphStore.mem_visibleTriples.2 ⟨hrow, hvisible⟩) hnone
  refine ⟨by rw [seedEntities_recallGraph, seedEntities_recallGraph], fun e => ?_, fun t => ?_⟩
  · rw [mem_entities_of_isolated hseeds hmentioned, mem_entities_of_isolated hseeds fun e he hv =>
      hmentioned e ((h.entities e hv).2 he) hv]
    exact and_congr_left fun hv => h.getEntity_iff hv
  · exact iff_of_false (htriples g₀ hnone t) (htriples g (h.visibleTriples_eq_nil hnone) t)

/-- What a context may not see does not matter to a recall exactly when the context is private,
when the query mentions no entity, or when the context sees no triple at all and no entity other
than the mentioned ones. -/
theorem recallGraph_blind_iff (env : Env) (lib : TextLibrary) (o : Ontology) (query : String)
    (v : Visibility) (g₀ : GraphStore ι) :
    (∀ g g', g₀.SameVisible v g → g₀.SameVisible v g' →
      (GraphBrain.recallGraph env lib ⟨o, g⟩ query v).Same
        (GraphBrain.recallGraph env lib ⟨o, g'⟩ query v)) ↔
    v = .priv ∨ o.seeds env lib query = [] ∨
      g₀.visibleTriples v = [] ∧
        ∀ e ∈ g₀.entities, e.visibility.allows v = true → e.id ∈ o.seeds env lib query := by
  constructor
  · intro h
    by_cases hv : v = .priv
    · exact Or.inl hv
    by_cases hseeds : o.seeds env lib query = []
    · exact Or.inr (Or.inl hseeds)
    · exact Or.inr (Or.inr ⟨visibleTriples_eq_nil_of_blind h hv hseeds,
        fun e he hvisible => mem_seeds_of_blind h hv hseeds he hvisible⟩)
  · intro h
    suffices hsame : ∀ g, g₀.SameVisible v g →
        (GraphBrain.recallGraph env lib ⟨o, g₀⟩ query v).Same
          (GraphBrain.recallGraph env lib ⟨o, g⟩ query v) from
      fun g g' hg hg' => (hsame g hg).symm.trans (hsame g' hg')
    intro g hg
    by_cases hseeds : o.seeds env lib query = []
    · simp [GraphBrain.recallGraph, hseeds, RecallResult.Same.refl]
    rcases h with rfl | hnone | ⟨hnone, hmentioned⟩
    · exact same_of_priv hg
    · exact absurd hnone hseeds
    · exact same_of_isolated hg hnone hmentioned hseeds

end

/-! ## A hidden friendship -/

/-- Text functions on words in lower case. -/
def TextLibrary.plain : TextLibrary where
  toLowercase s := s
  isAlphanumeric := Char.isAlphanum
  isWhitespace := Char.isWhitespace
  normalizedDamerauLevenshtein a b := if a = b then 1 else 0

/-- Two people, whose ids are 1 and 2. -/
def peopleEnv : Env := .ofRecords
  [(entitySalt ++ utf8 "person" ++ utf8 ":" ++ utf8 "ada", 1),
    (entitySalt ++ utf8 "person" ++ utf8 ":" ++ utf8 "bob", 2)] []

/-- An ontology with both of them, public. -/
def peopleOntology : Ontology where
  entities :=
    [{ entityType := "person", canonical := "ada", visibility := .pub },
      { entityType := "person", canonical := "bob", visibility := .pub }]
  named := by decide
  canonicalsPerType := by decide

/-- A person of the ontology, as an entity of the store. -/
def person (canonical : String) : Entity ℕ :=
  { id := peopleEnv.entityId "person" canonical, entityType := "person", canonical
    visibility := .pub, createdAt := 0, updatedAt := 0 }

/-- The store that knows both. -/
def people : GraphStore ℕ := (GraphStore.empty.upsertEntity (person "ada")).upsertEntity (person "bob")

/-- The store that also knows, privately, that they are friends. -/
def befriended : GraphStore ℕ :=
  people.insertTriple (hiddenLink (person "ada").id (person "bob").id "knows" 0)

/-- A public recall of the one leads to the other, through a private triple. -/
theorem hidden_friend_shows :
    people.SameVisible .pub befriended ∧
      ¬ (GraphBrain.recallGraph peopleEnv .plain ⟨peopleOntology, people⟩ "ada" .pub).Same
        (GraphBrain.recallGraph peopleEnv .plain ⟨peopleOntology, befriended⟩ "ada" .pub) := by
  refine ⟨⟨?_, by decide +kernel, ?_⟩, fun h => ?_⟩
  · have hentities : befriended.entities = people.entities := by decide +kernel
    intro e _
    rw [hentities]
  · have hdocuments : befriended.documents = people.documents := by decide +kernel
    intro d _
    rw [hdocuments]
  · have hfound : person "bob" ∈ (GraphBrain.recallGraph peopleEnv .plain
        ⟨peopleOntology, befriended⟩ "ada" .pub).neighborhood.entities := by decide +kernel
    have hnot : person "bob" ∉ (GraphBrain.recallGraph peopleEnv .plain
        ⟨peopleOntology, people⟩ "ada" .pub).neighborhood.entities := by decide +kernel
    exact hnot ((h.entities _).2 hfound)

end Spectral
