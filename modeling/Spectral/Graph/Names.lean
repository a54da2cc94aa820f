import Spectral.Graph.AutoCreate

/-!
# What a name resolves to, as entities are added

Resolving a mention goes through a list of entities: the first one that has the name, or else the
one with the closest name, if that is close enough.  This file says what the answer becomes when
entities are added at the end of the list.

* `resolveIn` — the entity that `resolve_one` finds in a list.
* `TakesOver` — an added entity has a name that is close enough and closer than those before it.
* `resolveIn_append_named`, `resolveIn_append` — the answer after entities were added.
-/

namespace Spectral

/-- The canonical name and the aliases. -/
def OntologyEntity.names (e : OntologyEntity) : List String := e.canonical :: e.aliases

/-- The type and the canonical name of what was matched. -/
def MatchedMention.key (m : MatchedMention) : String × String := (m.entityType, m.canonical)

namespace TextLibrary

variable (lib : TextLibrary)

/-- How close a name is to a mention. -/
def score (mention name : String) : ℚ :=
  lib.normalizedDamerauLevenshtein (lib.toLowercase mention) (lib.toLowercase name)

/-- Entities with their names, one after the other. -/
def allNames (es : List OntologyEntity) : List (OntologyEntity × String) :=
  es.flatMap fun e => e.names.map fun name => (e, name)

/-- `best_fuzzy_match`, in a list of entities. -/
def bestIn (es : List OntologyEntity) (mention : String) : ℚ × Option OntologyEntity :=
  (allNames es).foldl (lib.betterMatch (lib.toLowercase mention)) (0, none)

/-- The entity of `resolve_one`, in a list of entities. -/
def resolveIn (es : List OntologyEntity) (mention : String) : Option OntologyEntity :=
  match es.find? (lib.isNamed mention) with
  | some e => some e
  | none => if defaultFuzzyThreshold ≤ (lib.bestIn es mention).1 then (lib.bestIn es mention).2 else none

/-- A name of the entity is close enough to the mention, and closer than those of the list. -/
def TakesOver (es : List OntologyEntity) (mention : String) (e : OntologyEntity) : Prop :=
  ∃ name ∈ e.names, defaultFuzzyThreshold ≤ lib.score mention name ∧
    (lib.bestIn es mention).1 < lib.score mention name

instance (es : List OntologyEntity) (mention : String) (e : OntologyEntity) :
    Decidable (lib.TakesOver es mention e) :=
  inferInstanceAs (Decidable (∃ name ∈ e.names, defaultFuzzyThreshold ≤ lib.score mention name ∧
    (lib.bestIn es mention).1 < lib.score mention name))

variable {lib : TextLibrary} {es es' : List OntologyEntity} {mention mention' : String}
  {e : OntologyEntity}

theorem isNamed_iff : lib.isNamed mention e = true ↔
    ∃ name ∈ e.names, lib.toLowercase name = lib.toLowercase mention := by
  simp [isNamed, OntologyEntity.names]

theorem isNamed_congr (h : lib.toLowercase mention = lib.toLowercase mention') :
    lib.isNamed mention = lib.isNamed mention' := by
  funext e
  simp only [isNamed, h]

theorem resolveIn_congr (h : lib.toLowercase mention = lib.toLowercase mention') :
    lib.resolveIn es mention = lib.resolveIn es mention' := by
  unfold resolveIn bestIn
  rw [isNamed_congr h, h]

/-- The list stands for the ontology. -/
theorem resolveOne_key (env : Env) (o : Ontology) (mention : String) :
    (lib.resolveOne env o mention).map MatchedMention.key =
      (lib.resolveIn o.entities mention).map OntologyEntity.key := by
  have hbest : lib.bestFuzzyMatch o mention = lib.bestIn o.entities mention := rfl
  unfold resolveOne resolveIn
  rw [hbest]
  cases o.entities.find? (lib.isNamed mention) with
  | some e => rfl
  | none =>
    dsimp only
    split
    · rw [Option.map_map]
      rfl
    · rfl

/-- An entity of the list that has the name is found, or one before it. -/
theorem resolveIn_isSome_of_named (he : e ∈ es) (hnamed : lib.isNamed mention e = true) :
    (lib.resolveIn es mention).isSome := by
  have hfound : (es.find? (lib.isNamed mention)).isSome := List.find?_isSome.2 ⟨e, he, hnamed⟩
  obtain ⟨a, ha⟩ := Option.isSome_iff_exists.1 hfound
  simp [resolveIn, ha]

theorem not_isNamed_of_resolveIn_eq_none (h : lib.resolveIn es mention = none) (he : e ∈ es) :
    lib.isNamed mention e = false := by
  by_contra hnamed
  have hsome := resolveIn_isSome_of_named he (by simpa using hnamed)
  rw [h] at hsome
  cases hsome

/-- What was found has the name, when an entity of the list has. -/
theorem named_of_resolveIn {a : OntologyEntity} (h : lib.resolveIn es mention = some a) (he : e ∈ es)
    (hnamed : lib.isNamed mention e = true) : a ∈ es ∧ lib.isNamed mention a = true := by
  have hfound : (es.find? (lib.isNamed mention)).isSome := List.find?_isSome.2 ⟨e, he, hnamed⟩
  obtain ⟨a', ha'⟩ := Option.isSome_iff_exists.1 hfound
  rw [resolveIn, ha'] at h
  cases h
  exact ⟨List.mem_of_find?_eq_some ha', List.find?_some ha'⟩

/-! ## More entities -/

/-- The names that are looked at: none is better than what there was, or the answer is the best
of them. -/
theorem foldl_betterMatch (names : List (OntologyEntity × String)) (best : ℚ × Option OntologyEntity) :
    names.foldl (lib.betterMatch (lib.toLowercase mention)) best = best ∨
      ∃ x ∈ names, names.foldl (lib.betterMatch (lib.toLowercase mention)) best =
        (lib.score mention x.2, some x.1) ∧ best.1 < lib.score mention x.2 := by
  induction names generalizing best with
  | nil => exact Or.inl rfl
  | cons x names ih =>
    rw [List.foldl_cons]
    by_cases hbetter : best.1 < lib.score mention x.2
    · have hx : lib.betterMatch (lib.toLowercase mention) best x =
          (lib.score mention x.2, some x.1) := if_pos hbetter
      rw [hx]
      rcases ih (lib.score mention x.2, some x.1) with hsame | ⟨y, hy, heq, hlt⟩
      · exact Or.inr ⟨x, List.mem_cons_self, hsame, hbetter⟩
      · exact Or.inr ⟨y, List.mem_cons_of_mem _ hy, heq, hbetter.trans hlt⟩
    · have hx : lib.betterMatch (lib.toLowercase mention) best x = best := if_neg hbetter
      rw [hx]
      exact (ih best).imp_right fun ⟨y, hy, h⟩ => ⟨y, List.mem_cons_of_mem _ hy, h⟩

theorem bestIn_append (lib : TextLibrary) (es es' : List OntologyEntity) (mention : String) :
    lib.bestIn (es ++ es') mention = lib.bestIn es mention ∨
    ∃ e ∈ es', ∃ name ∈ e.names, lib.bestIn (es ++ es') mention = (lib.score mention name, some e) ∧
      (lib.bestIn es mention).1 < lib.score mention name := by
  have hsplit : lib.bestIn (es ++ es') mention =
      (allNames es').foldl (lib.betterMatch (lib.toLowercase mention)) (lib.bestIn es mention) := by
    unfold bestIn allNames
    rw [List.flatMap_append, List.foldl_append]
  rw [hsplit]
  refine (foldl_betterMatch (allNames es') (lib.bestIn es mention)).imp_right fun ⟨x, hx, h⟩ => ?_
  obtain ⟨e, he, hx⟩ := List.mem_flatMap.1 hx
  obtain ⟨name, hname, rfl⟩ := List.mem_map.1 hx
  exact ⟨e, he, name, hname, h⟩

/-- A name that only added entities have. -/
theorem resolveIn_append_named (hold : ∀ a ∈ es, lib.isNamed mention a = false) (he : e ∈ es')
    (hnamed : lib.isNamed mention e = true) : ∃ a ∈ es', lib.isNamed mention a = true ∧
      lib.resolveIn (es ++ es') mention = some a := by
  have hsome : (lib.resolveIn (es ++ es') mention).isSome :=
    resolveIn_isSome_of_named (List.mem_append_right _ he) hnamed
  obtain ⟨a, ha⟩ := Option.isSome_iff_exists.1 hsome
  obtain ⟨hmem, hnamed'⟩ := named_of_resolveIn ha (List.mem_append_right _ he) hnamed
  rcases List.mem_append.1 hmem with hfirst | hnew
  · rw [hold a hfirst] at hnamed'
    cases hnamed'
  · exact ⟨a, hnew, hnamed', ha⟩

/-- A name that an entity before them has is resolved as before. -/
theorem resolveIn_append_of_named (he : e ∈ es) (hnamed : lib.isNamed mention e = true) :
    lib.resolveIn (es ++ es') mention = lib.resolveIn es mention := by
  have hfound : (es.find? (lib.isNamed mention)).isSome := List.find?_isSome.2 ⟨e, he, hnamed⟩
  obtain ⟨a, ha⟩ := Option.isSome_iff_exists.1 hfound
  simp [resolveIn, List.find?_append, ha]

/-- **A name that no added entity has.**  Those that take over are of the kind `P`: the answer is
one of them, or what it was. -/
theorem resolveIn_append (P : OntologyEntity → Prop)
    (hnew : ∀ e ∈ es', lib.isNamed mention e = false)
    (hover : ∀ e ∈ es', lib.TakesOver es mention e → P e) :
    lib.resolveIn (es ++ es') mention = lib.resolveIn es mention ∨
      ∃ e ∈ es', P e ∧ lib.resolveIn (es ++ es') mention = some e := by
  unfold resolveIn
  have hnone : es'.find? (lib.isNamed mention) = none :=
    List.find?_eq_none.2 fun e he => by simp [hnew e he]
  rw [List.find?_append, hnone, Option.or_none]
  cases es.find? (lib.isNamed mention) with
  | some e => exact Or.inl rfl
  | none =>
    dsimp only
    rcases lib.bestIn_append es es' mention with
      hsame | ⟨e, he, name, hname, heq, hlt⟩
    · rw [hsame]
      exact Or.inl rfl
    · rw [heq]
      by_cases hclose : defaultFuzzyThreshold ≤ lib.score mention name
      · rw [if_pos hclose]
        exact Or.inr ⟨e, he, hover e he ⟨name, hname, hclose, hlt⟩, rfl⟩
      · -- close enough is neither the best of the added names nor, less close, that of the others
        have hfar : ¬ defaultFuzzyThreshold ≤ (lib.bestIn es mention).1 :=
          fun h => hclose (h.trans hlt.le)
        rw [if_neg hclose, if_neg hfar]
        exact Or.inl rfl

end TextLibrary

/-! ## Names in a brain -/

namespace AssertingBrain

variable {ι : Type} {env : Env} {lib : TextLibrary} {b : AssertingBrain ι} {name name' : String}

/-- A lookup goes through the ontology, and then through the exact names of what was created. -/
theorem lookup_map_key (env : Env) (lib : TextLibrary) (b : AssertingBrain ι) (name : String) :
    (b.lookup env lib name).map MatchedMention.key =
      ((lib.resolveIn b.ontology.entities name).or
        (b.runtimeEntities.find? (lib.isNamed name))).map OntologyEntity.key := by
  have hruntime : (b.resolveFromRuntime env lib name).map MatchedMention.key =
      (b.runtimeEntities.find? (lib.isNamed name)).map OntologyEntity.key := by
    unfold resolveFromRuntime
    rw [Option.map_map]
    rfl
  unfold lookup
  rw [Option.map_or, Option.map_or, TextLibrary.resolveOne_key, hruntime]

theorem lookup_isSome_congr (h : lib.toLowercase name = lib.toLowercase name') :
    (b.lookup env lib name).isSome = (b.lookup env lib name').isSome := by
  have hkeys : (b.lookup env lib name).map MatchedMention.key =
      (b.lookup env lib name').map MatchedMention.key := by
    rw [lookup_map_key, lookup_map_key, TextLibrary.resolveIn_congr h, TextLibrary.isNamed_congr h]
  simpa using congrArg Option.isSome hkeys

theorem resolveIn_of_lookup_eq_none (h : b.lookup env lib name = none) :
    lib.resolveIn b.ontology.entities name = none := by
  have hkey := lookup_map_key env lib b name
  rw [h, Option.map_none, eq_comm, Option.map_eq_none_iff] at hkey
  exact (Option.or_eq_none_iff.1 hkey).1

/-- What is found is in the ontology, or has the name and was created. -/
theorem lookup_eq_some {m : MatchedMention} (h : b.lookup env lib name = some m) :
    (∃ a, lib.resolveIn b.ontology.entities name = some a ∧ a.key = m.key) ∨
      lib.resolveIn b.ontology.entities name = none ∧
        ∃ r ∈ b.runtimeEntities, lib.isNamed name r = true ∧ r.key = m.key := by
  have hkey := lookup_map_key env lib b name
  rw [h, Option.map_some, eq_comm, Option.map_eq_some_iff] at hkey
  obtain ⟨a, ha, hkey⟩ := hkey
  rcases Option.or_eq_some_iff.1 ha with ha | ⟨hnone, ha⟩
  · exact Or.inl ⟨a, ha, hkey⟩
  · exact Or.inr ⟨hnone, a, List.mem_of_find?_eq_some ha, List.find?_some ha, hkey⟩

end AssertingBrain

end Spectral
