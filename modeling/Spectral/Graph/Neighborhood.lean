import Spectral.Lib.Hops
import Spectral.Graph.Recall
import Spectral.Graph.Superseding

/-!
# What a walk covers

`neighborhood` is to return the live triples around an entity.  It looks triples up with
`find_triples_directed`, which, unlike `find_triples`, does not leave out what is retired, and of
the triples that make one edge it keeps the first.

* `Near`, `Incident` — what is near an entity, in the graph of some triples.
* `Walk.Levels` — a walk that is not cut off covers all that is near, in the graph of all triples.
* `LiveNearby` — nearby, the first triple of every edge is live.  Then the walk returns what is live,
  and when it is not cut off only then (`neighborhood_live_iff`).
-/

namespace Spectral

open Spectral.Lib

variable {ι : Type}

/-! ## The graph of some triples -/

/-- A triple leads from one entity to another, forward or backward. -/
def Linked (ts : List (Triple ι)) (x y : EntityId) : Prop :=
  ∃ t ∈ ts, ∃ outgoing, t.near outgoing = x ∧ t.far outgoing = y

/-- A triple has an end that is fewer than `n` steps away. -/
def Incident (ts : List (Triple ι)) (start : EntityId) (n : ℕ) (t : Triple ι) : Prop :=
  ∃ m < n, ∃ outgoing, Near (Linked ts) start m (t.near outgoing)

theorem Triple.far_eq_of_edge {t t' : Triple ι} (h : t.edge = t'.edge) (outgoing : Bool) :
    t.far outgoing = t'.far outgoing := by
  simp only [edge, Prod.mk.injEq] at h
  simp only [far, h.1, h.2.1]

/-- To be nearby is a matter of the edge. -/
theorem Incident.mono {ts : List (Triple ι)} {start : EntityId} {n m : ℕ} {t : Triple ι}
    (h : Incident ts start n t) (hnm : n ≤ m) : Incident ts start m t := by
  obtain ⟨k, hk, hend⟩ := h
  exact ⟨k, by omega, hend⟩

namespace GraphStore

variable (g : GraphStore ι)

/-- The live triples. -/
def live : List (Triple ι) := g.findTriples none none none

variable {g}

theorem mem_live {t : Triple ι} : t ∈ g.live ↔ ∃ r ∈ g.triples, r.Live ∧ r.triple = t := by
  simp [live, findTriples, findTriplesIncludingSuperseded, matchesPattern, TripleRow.Live, and_assoc,
    and_comm]

theorem mem_stored_of_mem_live {t : Triple ι} (h : t ∈ g.live) : t ∈ g.stored := by
  obtain ⟨r, hr, -, rfl⟩ := mem_live.1 h
  exact List.mem_map_of_mem hr

end GraphStore

/-! ## What a walk has -/

/-- The entities of a walk are those it came to, each of them once. -/
structure Walk.Reads (g : GraphStore ι) (w : Walk ι) : Prop where
  entities : w.entities = w.visited.filterMap g.getEntity
  nodup : w.visited.Nodup

/-- What a walk came to is at most `n` steps away, and of its triples an end is fewer. -/
structure Walk.Nearby (g : GraphStore ι) (start : EntityId) (n : ℕ) (w : Walk ι) : Prop where
  visited : ∀ x ∈ w.visited, Near (Linked g.stored) start n x
  frontier : ∀ x ∈ w.frontier, Near (Linked g.stored) start n x
  triples : ∀ t ∈ w.triples, t ∈ g.stored ∧ Incident g.stored start n t

/-- A walk goes on: nothing is lost, what it comes to is in the frontier, and that it was cut off
stays known. -/
structure Walk.GoesOn (w w' : Walk ι) : Prop where
  visited : ∀ x ∈ w.visited, x ∈ w'.visited
  frontier : ∀ x ∈ w.frontier, x ∈ w'.frontier
  triples : ∀ t, w.triples.Clashes t → w'.triples.Clashes t
  fresh : ∀ x ∈ w'.visited, x ∈ w.visited ∨ x ∈ w'.frontier
  broken : w'.broken = false → w.broken = false
  truncated : w'.truncated = false → w.truncated = false

theorem Walk.GoesOn.refl (w : Walk ι) : w.GoesOn w :=
  ⟨fun _ h => h, fun _ h => h, fun _ h => h, fun _ h => Or.inl h, fun h => h, fun h => h⟩

theorem Walk.GoesOn.trans {w w' w'' : Walk ι} (h : w.GoesOn w') (h' : w'.GoesOn w'') :
    w.GoesOn w'' where
  visited x hx := h'.visited x (h.visited x hx)
  frontier x hx := h'.frontier x (h.frontier x hx)
  triples t ht := h'.triples t (h.triples t ht)
  fresh x hx := by
    rcases h'.fresh x hx with hx | hx
    · exact (h.fresh x hx).imp_right (h'.frontier x)
    · exact Or.inr hx
  broken hb := h.broken (h'.broken hb)
  truncated ht := h.truncated (h'.truncated ht)

/-- A walk is done with an entity: it has every edge of it, and came to what they lead to. -/
def Walk.Explored (g : GraphStore ι) (w : Walk ι) (x : EntityId) : Prop :=
  ∀ t ∈ g.stored, ∀ outgoing, t.near outgoing = x →
    w.triples.Clashes t ∧ t.far outgoing ∈ w.visited

theorem Walk.GoesOn.explored {g : GraphStore ι} {w w' : Walk ι} (h : w.GoesOn w') {x : EntityId}
    (hx : w.Explored g x) : w'.Explored g x := fun t ht outgoing hend =>
  ⟨h.triples t (hx t ht outgoing hend).1, h.visited _ (hx t ht outgoing hend).2⟩

namespace GraphStore

variable {g : GraphStore ι} {w : Walk ι} {outgoing : Bool} {t : Triple ι}

/-! ### One step -/

theorem mem_visited_reach {other x : EntityId} :
    x ∈ (g.reach w other).visited ↔ x ∈ w.visited ∨ x = other := by
  unfold reach
  split
  case isTrue h =>
    refine ⟨Or.inl, ?_⟩
    rintro (hx | rfl)
    · exact hx
    · exact h
  case isFalse => simp

theorem mem_frontier_reach {other x : EntityId} :
    x ∈ (g.reach w other).frontier ↔ x ∈ w.frontier ∨ other ∉ w.visited ∧ x = other := by
  unfold reach
  split
  · simp [*]
  · simp [*]

theorem visited_visit (h : w.broken = false) :
    (g.visit outgoing w t).visited = (g.reach w (t.far outgoing)).visited := by
  simp only [visit, h, Bool.false_eq_true, ↓reduceIte]
  split <;> rfl

@[simp] theorem reach_broken {other : EntityId} : (g.reach w other).broken = w.broken := by
  unfold reach
  split <;> rfl

@[simp] theorem reach_truncated {other : EntityId} : (g.reach w other).truncated = w.truncated := by
  unfold reach
  split <;> rfl

theorem truncated_visit (h : (g.visit outgoing w t).truncated = false) : w.truncated = false := by
  unfold visit at h
  split at h
  · exact h
  · dsimp only at h
    split at h
    · cases h
    · simpa using h

/-- A hop that is broken off is known to be cut off. -/
theorem broken_visit_of_truncated (hw : w.truncated = false → w.broken = false)
    (h : (g.visit outgoing w t).truncated = false) : (g.visit outgoing w t).broken = false := by
  have hb : w.broken = false := hw (truncated_visit h)
  unfold visit at h ⊢
  rw [if_neg (by simp [hb])] at h ⊢
  dsimp only at h ⊢
  split
  case isTrue hcap => rw [if_pos hcap] at h; cases h
  case isFalse => simpa using hb

theorem goesOn_visit : w.GoesOn (g.visit outgoing w t) := by
  cases h : w.broken with
  | true => rw [visit_of_broken h]; exact .refl w
  | false =>
    refine ⟨fun x hx => ?_, fun x hx => frontier_prefix_visit.subset hx, within_visit.triples,
      fun x hx => ?_, fun _ => h, truncated_visit⟩
    · rw [visited_visit h, mem_visited_reach]
      exact Or.inl hx
    · rw [visited_visit h, mem_visited_reach] at hx
      rw [frontier_visit h, mem_frontier_reach]
      by_cases hseen : x ∈ w.visited
      · exact Or.inl hseen
      · obtain rfl := hx.resolve_left hseen
        exact Or.inr (Or.inr ⟨hseen, rfl⟩)

theorem reads_visit (hw : w.Reads g) : (g.visit outgoing w t).Reads g := by
  cases h : w.broken with
  | true => rwa [visit_of_broken h]
  | false =>
    refine ⟨?_, ?_⟩
    · rw [entities_visit h, visited_visit h]
      unfold reach
      split
      · exact hw.entities
      · simp only [List.filterMap_append, hw.entities]
        cases hget : g.getEntity (t.far outgoing) <;> simp [hget]
    · rw [visited_visit h]
      unfold reach
      split
      · exact hw.nodup
      case isFalse hnew => simpa using hw.nodup.concat hnew

/-- A step from an entity that is at most `n` steps away. -/
theorem nearby_visit {start id : EntityId} {n : ℕ} (hid : Near (Linked g.stored) start n id)
    (ht : t ∈ g.findTriplesDirected id outgoing) (hw : w.Nearby g start (n + 1)) :
    (g.visit outgoing w t).Nearby g start (n + 1) := by
  obtain ⟨hstored, hend⟩ := g.mem_findTriplesDirected.1 ht
  have hfar : Near (Linked g.stored) start (n + 1) (t.far outgoing) :=
    hid.step ⟨t, hstored, outgoing, hend, rfl⟩
  cases h : w.broken with
  | true => rwa [visit_of_broken h]
  | false =>
    refine ⟨fun x hx => ?_, fun x hx => ?_, fun x hx => ?_⟩
    · rw [visited_visit h, mem_visited_reach] at hx
      rcases hx with hx | rfl
      · exact hw.visited x hx
      · exact hfar
    · rw [frontier_visit h, mem_frontier_reach] at hx
      rcases hx with hx | ⟨-, rfl⟩
      · exact hw.frontier x hx
      · exact hfar
    · rw [triples_visit h, Table.mem_insertOrIgnore] at hx
      rcases hx with hx | ⟨rfl, -⟩
      · exact hw.triples x hx
      · exact ⟨hstored, n, by omega, outgoing, hend ▸ hid⟩

/-! ### One hop -/

theorem goesOn_foldl_visit (outgoing : Bool) (ts : List (Triple ι)) (w : Walk ι) :
    w.GoesOn (ts.foldl (g.visit outgoing) w) :=
  List.foldlRecOn (motive := fun w' => w.GoesOn w') _ _ (.refl w) fun _ h _ _ => h.trans goesOn_visit

theorem goesOn_expand {id : EntityId} : w.GoesOn (g.expand w id) :=
  expand_induction (P := fun w' => w.GoesOn w') (fun _ _ _ _ h => h.trans goesOn_visit) (.refl w)

theorem goesOn_foldl_expand (ids : List EntityId) : w.GoesOn (ids.foldl g.expand w) :=
  List.foldlRecOn (motive := fun w' => w.GoesOn w') _ _ (.refl w) fun _ h _ _ => h.trans goesOn_expand

/-- A loop over triples that is not broken off goes through all of them. -/
theorem covers_foldl_visit {ts : List (Triple ι)}
    (h : (ts.foldl (g.visit outgoing) w).broken = false) :
    ∀ t ∈ ts, (ts.foldl (g.visit outgoing) w).triples.Clashes t ∧
      t.far outgoing ∈ (ts.foldl (g.visit outgoing) w).visited := by
  induction ts generalizing w with
  | nil => exact fun _ ht => absurd ht List.not_mem_nil
  | cons t ts ih =>
    rw [List.foldl_cons] at h ⊢
    intro x hx
    rcases List.mem_cons.1 hx with rfl | hx
    · have hgoes := goesOn_foldl_visit (g := g) outgoing ts (g.visit outgoing w x)
      have hb : w.broken = false := goesOn_visit.broken (hgoes.broken h)
      refine ⟨hgoes.triples x (clashes_visit hb), hgoes.visited _ ?_⟩
      rw [visited_visit hb, mem_visited_reach]
      exact Or.inr rfl
    · exact ih h x hx

theorem explored_expand {id : EntityId} (h : (g.expand w id).broken = false) :
    (g.expand w id).Explored g id := by
  intro t ht outgoing hend
  have hmem : t ∈ g.findTriplesDirected id outgoing := g.mem_findTriplesDirected.2 ⟨ht, hend⟩
  cases outgoing with
  | false => exact covers_foldl_visit h t hmem
  | true =>
    have hgoes := goesOn_foldl_visit (g := g) false (g.findTriplesDirected id false)
      ((g.findTriplesDirected id true).foldl (g.visit true) w)
    obtain ⟨hclash, hfar⟩ := covers_foldl_visit (hgoes.broken h) t hmem
    exact ⟨hgoes.triples t hclash, hgoes.visited _ hfar⟩

theorem explored_foldl_expand {ids : List EntityId} (h : (ids.foldl g.expand w).broken = false) :
    ∀ id ∈ ids, (ids.foldl g.expand w).Explored g id := by
  induction ids generalizing w with
  | nil => exact fun _ hid => absurd hid List.not_mem_nil
  | cons id ids ih =>
    rw [List.foldl_cons] at h ⊢
    intro x hx
    rcases List.mem_cons.1 hx with rfl | hx
    · have hgoes := goesOn_foldl_expand (g := g) (w := g.expand w x) ids
      exact hgoes.explored (explored_expand (hgoes.broken h))
    · exact ih h x hx

theorem broken_hop (h : (g.hop w).truncated = false) : (g.hop w).broken = false :=
  List.foldlRecOn (motive := fun w : Walk ι => w.truncated = false → w.broken = false) _ _
    (fun _ => rfl)
    (fun _ hw _ _ => expand_induction (P := fun w => w.truncated = false → w.broken = false)
      (fun _ _ _ _ hw => broken_visit_of_truncated hw) hw) h

end GraphStore

/-- A walk that was not cut off covers, after `n` hops, all that is near. -/
def Walk.Covers (g : GraphStore ι) (start : EntityId) (n : ℕ) (w : Walk ι) : Prop :=
  Levels (Linked g.stored) start n {x | x ∈ w.visited} {x | x ∈ w.frontier} {x | w.Explored g x}

namespace GraphStore

variable {g : GraphStore ι} {w : Walk ι} {start : EntityId} {n : ℕ}

theorem covers_hop (hw : w.Covers g start n) (h : (g.hop w).truncated = false) :
    (g.hop w).Covers g start (n + 1) := by
  have hgoes := goesOn_foldl_expand (g := g) (w := { w with frontier := [], broken := false }) w.frontier
  refine hw.next (fun x => hgoes.visited x) (fun x hx => hgoes.explored (fun t ht => hx t ht))
    (fun x hx => explored_foldl_expand (broken_hop h) x hx) (fun x hx => hgoes.fresh x hx) ?_
  rintro x hx y ⟨t, ht, outgoing, hend, rfl⟩
  exact (hx t ht outgoing hend).2

theorem nearby_hop (hw : w.Nearby g start n) : (g.hop w).Nearby g start (n + 1) := by
  have hreset : Walk.Nearby g start (n + 1) { w with frontier := [], broken := false } :=
    ⟨fun x hx => (hw.visited x hx).mono (by omega), fun x hx => absurd hx List.not_mem_nil,
      fun t ht => ⟨(hw.triples t ht).1, (hw.triples t ht).2.mono (by omega)⟩⟩
  refine List.foldlRecOn (motive := fun w' : Walk ι => w'.Nearby g start (n + 1)) _ _ hreset
    fun w' hw' id hid => ?_
  exact expand_induction (P := fun w' => w'.Nearby g start (n + 1))
    (fun _ _ _ ht h => nearby_visit (hw.frontier id hid) ht h) hw'

/-! ### The hops -/

theorem truncated_hops (h : (g.hops n w).truncated = false) : w.truncated = false :=
  hops_induction (P := fun w' => w'.truncated = false → w.truncated = false) (fun _ hw => hw)
    (fun _ _ hw h => hw (goesOn_expand.truncated h)) n (fun h => h) h

theorem covers_hops {m : ℕ} (hw : w.Covers g start m) (h : (g.hops n w).truncated = false) :
    (g.hops n w).Covers g start (m + n) := by
  induction n generalizing w m with
  | zero => exact hw
  | succ n ih =>
    unfold hops at h ⊢
    split
    case isTrue hdone => exact hw.of_done (fun x hx => by simp [hdone] at hx) (m + (n + 1))
    case isFalse hgo =>
      rw [if_neg hgo] at h
      have hnext := ih (covers_hop hw (truncated_hops h)) h
      rwa [show m + 1 + n = m + (n + 1) by omega] at hnext

theorem nearby_hops {m : ℕ} (hw : w.Nearby g start m) : (g.hops n w).Nearby g start (m + n) := by
  induction n generalizing w m with
  | zero => exact hw
  | succ n ih =>
    unfold hops
    split
    · exact ⟨fun x hx => (hw.visited x hx).mono (by omega), fun x hx => (hw.frontier x hx).mono (by omega),
        fun t ht => ⟨(hw.triples t ht).1, (hw.triples t ht).2.mono (by omega)⟩⟩
    · have hnext := ih (nearby_hop hw)
      rwa [show m + 1 + n = m + (n + 1) by omega] at hnext

theorem reads_hops (n : ℕ) (start : EntityId) : (g.hops n (g.startAt start)).Reads g := by
  refine hops_induction (P := fun w => w.Reads g) (fun _ h => ⟨h.entities, h.nodup⟩)
    (fun _ _ h => expand_induction (P := fun w => w.Reads g) (fun _ _ _ _ h => reads_visit h) h) n
    ⟨?_, List.nodup_singleton start⟩
  simp only [startAt]
  cases hget : g.getEntity start <;> simp [hget]

end GraphStore

/-! ## What `neighborhood` is to return -/

/-- The edges of live triples that are incident to an entity at a distance less than `maxHops`, and
the entities at a distance of at most `maxHops`, where distance is in the graph of the live triples. -/
structure Neighborhood.Exact (g : GraphStore ι) (start : EntityId) (maxHops : ℕ)
    (hood : Neighborhood ι) : Prop where
  edges : ∀ edge, (∃ t ∈ hood.triples, t.edge = edge) ↔
    ∃ t ∈ g.live, t.edge = edge ∧ Incident g.live start maxHops t
  once : (hood.triples.map Triple.edge).Nodup
  entities : ∀ e, e ∈ hood.entities ↔
    g.getEntity e.id = some e ∧ Near (Linked g.live) start maxHops e.id
  distinct : (hood.entities.map Entity.id).Nodup

/-- Only live triples, and without a cut all that are nearby. -/
def Neighborhood.ExactAndLive (g : GraphStore ι) (start : EntityId) (maxHops : ℕ)
    (hood : Neighborhood ι) : Prop :=
  (∀ t ∈ hood.triples, t ∈ g.live) ∧ (hood.truncated = false → hood.Exact g start maxHops)

namespace GraphStore

variable {g : GraphStore ι} {start : EntityId} {maxHops : ℕ}

/-- Nearby, in the graph of all triples, the first triple of every edge is live. -/
def LiveNearby (g : GraphStore ι) (start : EntityId) (maxHops : ℕ) : Prop :=
  ∀ t ∈ g.stored, Incident g.stored start maxHops t →
    ∃ t' ∈ g.live, g.stored.find? (fun x => x.edge = t.edge) = some t'

/-- Then what is retired makes nothing nearer. -/
theorem LiveNearby.near_iff (h : g.LiveNearby start maxHops) {n : ℕ} (hn : n ≤ maxHops) {x : EntityId} :
    Near (Linked g.stored) start n x ↔ Near (Linked g.live) start n x := by
  refine near_congr fun m hm y hy z => ?_
  constructor
  · rintro ⟨t, ht, outgoing, rfl, rfl⟩
    obtain ⟨t', hlive, hfirst⟩ := h t ht ⟨m, by omega, outgoing, hy⟩
    have hedge : t'.edge = t.edge := by simpa using List.find?_some hfirst
    exact ⟨t', hlive, outgoing, Triple.near_eq_of_edge hedge outgoing,
      Triple.far_eq_of_edge hedge outgoing⟩
  · rintro ⟨t, ht, hends⟩
    exact ⟨t, mem_stored_of_mem_live ht, hends⟩

theorem LiveNearby.incident_iff (h : g.LiveNearby start maxHops) {t : Triple ι} :
    Incident g.stored start maxHops t ↔ Incident g.live start maxHops t := by
  refine exists_congr fun m => and_congr_right fun hm => exists_congr fun outgoing => ?_
  exact h.near_iff (by omega)

/-! ### The walk of `neighborhood` -/

theorem covers_neighborhood (h : (g.neighborhood start maxHops).truncated = false) :
    (g.hops maxHops (g.startAt start)).Covers g start maxHops := by
  have hstart : (g.startAt start).Covers g start 0 :=
    Levels.init List.mem_cons_self (fun x hx => Or.inl hx) fun x hx y => by
      rintro ⟨t, ht, outgoing, hend, rfl⟩
      exact (hx t ht outgoing hend).2
  simpa using covers_hops hstart h

theorem nearby_neighborhood (start : EntityId) (maxHops : ℕ) :
    (g.hops maxHops (g.startAt start)).Nearby g start maxHops := by
  have hstart : (g.startAt start).Nearby g start 0 :=
    ⟨fun x hx => List.mem_singleton.1 hx, fun x hx => List.mem_singleton.1 hx,
      fun t ht => absurd ht (Table.not_mem_empty t)⟩
  simpa using nearby_hops (n := maxHops) hstart

theorem mem_entities_neighborhood {e : Entity ι} :
    e ∈ (g.neighborhood start maxHops).entities ↔
      g.getEntity e.id = some e ∧ e.id ∈ (g.hops maxHops (g.startAt start)).visited := by
  show e ∈ (g.hops maxHops (g.startAt start)).entities ↔ _
  rw [(reads_hops maxHops start).entities, List.mem_filterMap]
  constructor
  · rintro ⟨x, hx, hget⟩
    rw [g.id_of_getEntity hget]
    exact ⟨hget, hx⟩
  · rintro ⟨hget, hx⟩
    exact ⟨e.id, hx, hget⟩

theorem once_neighborhood (start : EntityId) (maxHops : ℕ) :
    ((g.neighborhood start maxHops).triples.map Triple.edge).Nodup :=
  List.pairwise_map.2 (g.hops maxHops (g.startAt start)).triples.unique

theorem distinct_neighborhood (start : EntityId) (maxHops : ℕ) :
    ((g.neighborhood start maxHops).entities.map Entity.id).Nodup := by
  have hreads := reads_hops (g := g) maxHops start
  show ((g.hops maxHops (g.startAt start)).entities.map Entity.id).Nodup
  rw [hreads.entities, List.map_filterMap]
  refine hreads.nodup.filterMap fun x y id hx hy => ?_
  obtain ⟨e, he, rfl⟩ := Option.map_eq_some_iff.1 hx
  obtain ⟨e', he', hid⟩ := Option.map_eq_some_iff.1 hy
  rw [← g.id_of_getEntity he, ← g.id_of_getEntity he', hid]

/-- A triple the walk found is live when it is the first of its edge and nearby that one is. -/
theorem LiveNearby.live_of_mem (h : g.LiveNearby start maxHops) {t : Triple ι}
    (ht : t ∈ (g.neighborhood start maxHops).triples) : t ∈ g.live := by
  obtain ⟨hstored, hincident⟩ := (nearby_neighborhood start maxHops).triples t ht
  obtain ⟨t', hlive, hfirst⟩ := h t hstored hincident
  have hsound := (g.sound_hops maxHops start).triples t ht
  rw [show g.triples.map TripleRow.triple = g.stored from rfl, hfirst] at hsound
  exact Option.some.inj hsound ▸ hlive

/-- A walk that is not cut off has the edge of every triple that is nearby. -/
theorem exists_edge_neighborhood (h : (g.neighborhood start maxHops).truncated = false) {t : Triple ι}
    (ht : t ∈ g.stored) (hincident : Incident g.stored start maxHops t) :
    ∃ t' ∈ (g.neighborhood start maxHops).triples, t'.edge = t.edge := by
  obtain ⟨m, hm, outgoing, hnear⟩ := hincident
  exact ((covers_neighborhood h).behind m hm _ hnear t ht outgoing rfl).1

theorem LiveNearby.exact (h : g.LiveNearby start maxHops)
    (hcut : (g.neighborhood start maxHops).truncated = false) :
    (g.neighborhood start maxHops).Exact g start maxHops where
  edges edge := by
    constructor
    · rintro ⟨t, ht, rfl⟩
      refine ⟨t, h.live_of_mem ht, rfl, h.incident_iff.1 ?_⟩
      exact ((nearby_neighborhood start maxHops).triples t ht).2
    · rintro ⟨t, ht, rfl, hincident⟩
      exact exists_edge_neighborhood hcut (mem_stored_of_mem_live ht) (h.incident_iff.2 hincident)
  once := once_neighborhood start maxHops
  entities e := by
    rw [mem_entities_neighborhood]
    refine and_congr_right fun _ => ⟨fun hx => ?_, fun hx => ?_⟩
    · exact (h.near_iff le_rfl).1 ((nearby_neighborhood start maxHops).visited _ hx)
    · exact (covers_neighborhood hcut).reached _ ((h.near_iff le_rfl).2 hx)
  distinct := distinct_neighborhood start maxHops

/-- The first triple of every edge nearby is live: then a walk is exact and live, and without a cut
only then. -/
theorem neighborhood_live_iff (g : GraphStore ι) (start : EntityId) (maxHops : ℕ) :
    (g.LiveNearby start maxHops → (g.neighborhood start maxHops).ExactAndLive g start maxHops) ∧
      ((g.neighborhood start maxHops).truncated = false →
        ((g.neighborhood start maxHops).ExactAndLive g start maxHops ↔ g.LiveNearby start maxHops)) := by
  have hsufficient : g.LiveNearby start maxHops →
      (g.neighborhood start maxHops).ExactAndLive g start maxHops :=
    fun h => ⟨fun _ ht => h.live_of_mem ht, h.exact⟩
  refine ⟨hsufficient, fun hcut => ⟨fun h t ht hincident => ?_, hsufficient⟩⟩
  obtain ⟨t', ht', hedge⟩ := exists_edge_neighborhood hcut ht hincident
  refine ⟨t', h.1 t' ht', ?_⟩
  have hsound := (g.sound_hops maxHops start).triples t' ht'
  simpa [hedge, stored] using hsound

end GraphStore

/-! ## Where she lived -/

/-- One hop from her, who has moved once, both cities are found, and she lives in one of them only. -/
theorem former_home_found :
    ¬ (moved.neighborhood (Env.bytesOf 32 0) 1).ExactAndLive moved (Env.bytesOf 32 0) 1 := by
  intro h
  have hfound : livesIn 1 (day 0) ∈ (moved.neighborhood (Env.bytesOf 32 0) 1).triples := by
    decide +kernel
  have hretired : livesIn 1 (day 0) ∉ moved.live := by decide +kernel
  exact hretired (h.1 _ hfound)

end Spectral
