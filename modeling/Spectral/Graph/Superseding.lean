import Spectral.Graph.Supersession

/-!
# One superseding insert

What a slot holds after `insert_triple_superseding`, and what an insert that inserts nothing does.

* `OnlyObject` — a slot has one live object.
* `onlyObject_superseding_iff` — the new object is then the only live one, unless it was live beside
  others; then the call does nothing.
* `superseding_atomic_iff` — an insert that does not find its entities retires the slot all the same.
-/

namespace Spectral

open Spectral.Lib

namespace GraphStore

variable {ι : Type} {g : GraphStore ι}

/-- The live objects of a slot. -/
def liveObjects (g : GraphStore ι) (fromId : EntityId) (predicate : String) : List EntityId :=
  (g.findTriples (some fromId) none (some predicate)).map Triple.toId

theorem mem_liveObjects {fromId : EntityId} {predicate : String} {o : EntityId} :
    o ∈ g.liveObjects fromId predicate ↔
      ∃ r ∈ g.triples, r.triple.InSlot fromId predicate ∧ r.Live ∧ r.triple.toId = o := by
  simp only [liveObjects, List.mem_map, mem_findTriples]
  constructor
  · rintro ⟨-, ⟨r, hr, hslot, hlive, rfl⟩, hto⟩
    exact ⟨r, hr, hslot, hlive, hto⟩
  · rintro ⟨r, hr, hslot, hlive, hto⟩
    exact ⟨r.triple, ⟨r, hr, hslot, hlive, rfl⟩, hto⟩

/-- The slot of a triple has one live object, that of the triple. -/
def OnlyObject (g : GraphStore ι) (t : Triple ι) : Prop :=
  ∀ o, o ∈ g.liveObjects t.fromId t.predicate ↔ o = t.toId

/-- The object of a triple is live in its slot. -/
def Asserted (g : GraphStore ι) (t : Triple ι) : Prop :=
  t.toId ∈ g.liveObjects t.fromId t.predicate

instance (g : GraphStore ι) (t : Triple ι) : Decidable (g.Asserted t) :=
  inferInstanceAs (Decidable (t.toId ∈ g.liveObjects t.fromId t.predicate))

theorem asserted_iff {t : Triple ι} :
    g.Asserted t ↔ ∃ r ∈ g.triples, r.triple.edge = t.edge ∧ r.Live := by
  simp only [Asserted, mem_liveObjects, Triple.InSlot, Triple.edge, Prod.mk.injEq]
  refine exists_congr fun r => and_congr_right fun _ => ?_
  constructor
  · rintro ⟨⟨hfrom, hpredicate⟩, hlive, hto⟩
    exact ⟨⟨hfrom, hto, hpredicate⟩, hlive⟩
  · rintro ⟨⟨hfrom, hto, hpredicate⟩, hlive⟩
    exact ⟨⟨hfrom, hpredicate⟩, hlive, hto⟩

/-- What is asserted has its entities. -/
theorem Asserted.hasEndpoints {t : Triple ι} (h : g.Asserted t) : g.HasEndpoints t := by
  obtain ⟨r, hr, hedge, -⟩ := asserted_iff.1 h
  simp only [Triple.edge, Prod.mk.injEq] at hedge
  rw [HasEndpoints, ← hedge.1, ← hedge.2.1]
  exact g.endpoints r hr

theorem findTriplesIncludingSuperseded_all :
    g.findTriplesIncludingSuperseded none none none = g.triples.map fun r => (r.triple, r.validTo) := by
  have hall : ∀ t : Triple ι, matchesPattern none none none t = true := fun _ => rfl
  simp [findTriplesIncludingSuperseded, hall]

/-- What the `UPDATE` leaves live in its slot. -/
theorem live_retired_iff {t : Triple ι} {r : TripleRow ι} {stamp : String} {rowid : ℕ}
    {agent : Option String} (hslot : r.triple.InSlot t.fromId t.predicate) :
    (retired t.fromId t.predicate t.toId stamp rowid agent r).Live ↔ r.Live ∧ r.triple.toId = t.toId := by
  by_cases hlive : r.Live
  · by_cases hto : r.triple.toId = t.toId
    · rw [retired, if_neg fun hc => hc.2.1 hto]
      exact iff_of_true hlive ⟨hlive, hto⟩
    · rw [retired, if_pos ⟨hslot, hto, hlive⟩]
      exact iff_of_false (fun h => by cases h) fun h => hto h.2
  · rw [retired, if_neg fun hc => hlive hc.2.2]
    exact iff_of_false hlive fun h => hlive h.1

section

variable [LinearOrder ι] (clock : Clock ι)

variable {clock} {t : Triple ι} {agent : Option String} {last : ℕ}

theorem superseding_of_asserted (h : g.Asserted t) :
    g.insertTripleSupersedingBy clock t agent last = (g, 0) := by
  rw [insertTripleSupersedingBy, if_pos (asserted_iff.1 h)]

/-- The rows after an insert that does not find its entities. -/
theorem triples_superseding_of_not_hasEndpoints (h : ¬ g.HasEndpoints t) :
    (g.insertTripleSupersedingBy clock t agent last).1.triples =
      g.triples.map (retired t.fromId t.predicate t.toId (clock.toRfc3339 t.assertedAt) last agent) := by
  have hnew : ¬ ∃ r ∈ g.triples, r.triple.edge = t.edge ∧ r.Live := fun hlive =>
    h (asserted_iff.2 hlive).hasEndpoints
  have hsame : g.insertTriple t = g := dif_neg h
  rw [insertTripleSupersedingBy, if_neg hnew, hsame, if_neg h, triples_retireOthers]

theorem onlyObject_superseding (hends : g.HasEndpoints t) (hnew : ¬ g.Asserted t) :
    (g.insertTripleSupersedingBy clock t agent last).1.OnlyObject t := by
  intro o
  rw [mem_liveObjects, triples_supersede agent last hends fun h => hnew (asserted_iff.2 h)]
  constructor
  · rintro ⟨r, hr, hslot, hlive, rfl⟩
    rcases List.mem_append.1 hr with hr | hr
    · obtain ⟨old, -, rfl⟩ := List.mem_map.1 hr
      rw [retired_triple] at hslot ⊢
      exact ((live_retired_iff hslot).1 hlive).2
    · rw [List.mem_singleton.1 hr]
  · rintro rfl
    exact ⟨{ triple := t }, List.mem_append_right _ List.mem_cons_self, ⟨rfl, rfl⟩, rfl, rfl⟩

/-- After an insert that finds its entities the new object is the only live one, unless it was live
beside others: what is live already is not asserted again, and supersedes nothing. -/
theorem onlyObject_superseding_iff (clock : Clock ι) (g : GraphStore ι) (t : Triple ι)
    (agent : Option String) (last : ℕ) (hends : g.HasEndpoints t) :
    ((g.insertTripleSupersedingBy clock t agent last).1.OnlyObject t ↔
        (g.Asserted t → g.OnlyObject t)) ∧
      (g.Asserted t → g.insertTripleSupersedingBy clock t agent last = (g, 0)) := by
  refine ⟨?_, superseding_of_asserted⟩
  by_cases h : g.Asserted t
  · rw [superseding_of_asserted h]
    exact ⟨fun honly _ => honly, fun honly => honly h⟩
  · exact iff_of_true (onlyObject_superseding hends h) fun hasserted => absurd hasserted h

/-- An insert that inserts nothing leaves every triple and its end of validity as they were. -/
def SupersedingAtomic (clock : Clock ι) (g : GraphStore ι) (t : Triple ι) (agent : Option String)
    (last : ℕ) : Prop :=
  ¬ g.HasEndpoints t ∨ g.Asserted t →
    (g.insertTripleSupersedingBy clock t agent last).1.findTriplesIncludingSuperseded none none none =
      g.findTriplesIncludingSuperseded none none none

/-- An insert that inserts nothing leaves all as it was if and only if its entities are there, or
nothing is live in its slot. -/
theorem superseding_atomic_iff (clock : Clock ι) (g : GraphStore ι) (t : Triple ι)
    (agent : Option String) (last : ℕ) :
    SupersedingAtomic clock g t agent last ↔
      g.HasEndpoints t ∨ g.liveObjects t.fromId t.predicate = [] := by
  by_cases hends : g.HasEndpoints t
  · refine iff_of_true (fun h => ?_) (Or.inl hends)
    rw [superseding_of_asserted (h.resolve_left (not_not_intro hends))]
  have hrows : SupersedingAtomic clock g t agent last ↔ ∀ r ∈ g.triples,
      (retired t.fromId t.predicate t.toId (clock.toRfc3339 t.assertedAt) last agent r).validTo =
        r.validTo := by
    rw [SupersedingAtomic, findTriplesIncludingSuperseded_all, findTriplesIncludingSuperseded_all,
      triples_superseding_of_not_hasEndpoints hends, List.map_map]
    simp [hends]
  rw [hrows, or_iff_right hends, List.eq_nil_iff_forall_not_mem]
  constructor
  · intro h o ho
    obtain ⟨r, hr, hslot, hlive, rfl⟩ := mem_liveObjects.1 ho
    -- a triple that is stored has its entities, so its object is another one
    have hto : r.triple.toId ≠ t.toId := fun hto => hends <| by
      rw [HasEndpoints, ← hslot.1, ← hto]
      exact g.endpoints r hr
    have hkept := h r hr
    rw [retired, if_pos ⟨hslot, hto, hlive⟩, hlive] at hkept
    cases hkept
  · intro h r hr
    rw [retired, if_neg fun hc => h _ (mem_liveObjects.2 ⟨r, hr, hc.1, hc.2.2, rfl⟩)]

end

end GraphStore

/-! ## Where she lives -/

/-- She has moved once. -/
def moved : GraphStore (Fin 5) := run (GraphStore.call newYear) GraphStore.empty (moves.take 6)

/-- She moves again. -/
theorem onlyObject_after_move :
    (moved.insertTripleSupersedingBy newYear (livesIn 3 (day 2)) none 2).1.OnlyObject
      (livesIn 3 (day 2)) :=
  (GraphStore.onlyObject_superseding_iff newYear moved (livesIn 3 (day 2)) none 2
    (by decide +kernel)).1.2 fun h => absurd h (by decide +kernel)

/-- She is said to live in the first place as well, and then said so for good. -/
theorem two_objects_after_move :
    ¬ ((moved.insertTriple (livesIn 1 (day 2))).insertTripleSuperseding newYear (livesIn 1 (day 3))
      3).1.OnlyObject (livesIn 1 (day 3)) := by
  intro h
  exact absurd ((h (Env.bytesOf 32 2)).1 (by decide +kernel)) (by decide +kernel)

/-- She moves to a place the graph does not know, and lives nowhere. -/
theorem not_atomic_after_move :
    ¬ GraphStore.SupersedingAtomic newYear moved (livesIn 9 (day 2)) none 2 := by
  intro h
  exact absurd (h (Or.inl (by decide +kernel))) (by decide +kernel)

end Spectral
