import Spectral.Graph.Assert

/-!
# The ontology file

The ontology is read from a file when a brain is opened, and an entity that is created is written
to the file, so that it is there the next time.  A file that breaks one of the rules of the
ontology is refused, and the brain does not open.

* `validate` — the rules, in the order they are checked; `validate_eq_ok_iff` says what an accepted
  file is.
* `fromToml` — the ontology of an accepted file.
* `appendEntity` — an entity at the end.  The rules are not checked again.

A file is what was parsed of it: writing a document and reading it again gives the same one.
-/

namespace Spectral

/-- What has to be unique among entities: the type and the canonical name. -/
def OntologyEntity.key (e : OntologyEntity) : String × String := (e.entityType, e.canonical)

/-- The parsed file. -/
structure OntologyFile where
  version : ℕ
  entities : List OntologyEntity
  predicates : List OntologyPredicate
  deriving DecidableEq

namespace OntologyFile

/-- `validate`, the entities; `seen` is `canonicals_per_type`. -/
def validateEntities : List OntologyEntity → List (String × String) → Except AssertError Unit
  | [], _ => .ok ()
  | e :: es, seen =>
    if e.entityType = "" then .error (.ontology "entity has empty type")
    else if e.canonical = "" then .error (.ontology "entity has empty canonical")
    else if e.key ∈ seen then
      .error (.ontology s!"duplicate canonical '{e.canonical}' for type '{e.entityType}'")
    else validateEntities es (e.key :: seen)

/-- `validate`, the predicates; `seen` is `predicate_names`. -/
def validatePredicates (entityTypes : List String) :
    List OntologyPredicate → List String → Except AssertError Unit
  | [], _ => .ok ()
  | p :: ps, seen =>
    if p.name ∈ seen then .error (.ontology s!"duplicate predicate: '{p.name}'")
    else
      match p.domain.find? fun d => d ∉ entityTypes, p.range.find? fun r => r ∉ entityTypes with
      | some d, _ =>
        .error (.ontology s!"predicate '{p.name}' domain references unknown type '{d}'")
      | none, some r =>
        .error (.ontology s!"predicate '{p.name}' range references unknown type '{r}'")
      | none, none => validatePredicates entityTypes ps (p.name :: seen)

/-- `validate`. -/
def validate (file : OntologyFile) : Except AssertError Unit :=
  if file.version ≠ 1 then
    .error (.ontology s!"unsupported ontology version: {file.version} (expected 1)")
  else
    match validateEntities file.entities [] with
    | .error e => .error e
    | .ok () => validatePredicates (file.entities.map OntologyEntity.entityType) file.predicates []

/-- A file that keeps the rules. -/
structure Valid (file : OntologyFile) : Prop where
  version : file.version = 1
  named : ∀ e ∈ file.entities, e.entityType ≠ "" ∧ e.canonical ≠ ""
  canonicalsPerType : (file.entities.map OntologyEntity.key).Nodup
  predicateNames : (file.predicates.map OntologyPredicate.name).Nodup
  knownTypes : ∀ p ∈ file.predicates, ∀ t ∈ p.domain ++ p.range,
    ∃ e ∈ file.entities, e.entityType = t

theorem validateEntities_eq_ok_iff {es : List OntologyEntity} {seen : List (String × String)} :
    validateEntities es seen = .ok () ↔
      (∀ e ∈ es, e.entityType ≠ "" ∧ e.canonical ≠ "") ∧ (∀ e ∈ es, e.key ∉ seen) ∧
        (es.map OntologyEntity.key).Nodup := by
  induction es generalizing seen with
  | nil => simp [validateEntities]
  | cons e es ih =>
    unfold validateEntities
    split
    · simp_all
    · split
      · simp_all
      · split
        · simp_all
        · rw [ih]
          simp only [List.mem_cons, not_or, forall_eq_or_imp, List.map_cons, List.nodup_cons,
            List.mem_map, not_exists, not_and]
          constructor
          · rintro ⟨hnamed, hseen, hnodup⟩
            exact ⟨⟨⟨‹_›, ‹_›⟩, hnamed⟩, ⟨‹_›, fun a ha => (hseen a ha).2⟩,
              fun a ha => (hseen a ha).1, hnodup⟩
          · rintro ⟨⟨-, hnamed⟩, ⟨-, hseen⟩, hne, hnodup⟩
            exact ⟨hnamed, fun a ha => ⟨hne a ha, hseen a ha⟩, hnodup⟩

theorem validatePredicates_eq_ok_iff {entityTypes : List String} {ps : List OntologyPredicate}
    {seen : List String} : validatePredicates entityTypes ps seen = .ok () ↔
      (∀ p ∈ ps, p.name ∉ seen) ∧ (ps.map OntologyPredicate.name).Nodup ∧
        ∀ p ∈ ps, ∀ t ∈ p.domain ++ p.range, t ∈ entityTypes := by
  induction ps generalizing seen with
  | nil => simp [validatePredicates]
  | cons p ps ih =>
    unfold validatePredicates
    split
    · simp_all
    · split
      · rename_i d hd
        have hmem : d ∈ p.domain := List.mem_of_find?_eq_some hd
        have hunknown : d ∉ entityTypes := by simpa using List.find?_some hd
        simp only [reduceCtorEq, false_iff]
        rintro ⟨-, -, hknown⟩
        exact hunknown (hknown p List.mem_cons_self d (List.mem_append_left _ hmem))
      · rename_i r hd hr
        have hmem : r ∈ p.range := List.mem_of_find?_eq_some hr
        have hunknown : r ∉ entityTypes := by simpa using List.find?_some hr
        simp only [reduceCtorEq, false_iff]
        rintro ⟨-, -, hknown⟩
        exact hunknown (hknown p List.mem_cons_self r (List.mem_append_right _ hmem))
      · rename_i hd hr
        have hdomain : ∀ t ∈ p.domain, t ∈ entityTypes := by simpa using hd
        have hrange : ∀ t ∈ p.range, t ∈ entityTypes := by simpa using hr
        rw [ih]
        simp only [List.mem_cons, not_or, forall_eq_or_imp, List.map_cons, List.nodup_cons,
          List.mem_map, not_exists, not_and]
        constructor
        · rintro ⟨hseen, hnodup, hknown⟩
          refine ⟨⟨‹_›, fun a ha => (hseen a ha).2⟩, ⟨fun a ha => (hseen a ha).1, hnodup⟩, ?_, hknown⟩
          intro t ht
          rcases List.mem_append.1 ht with ht | ht
          · exact hdomain t ht
          · exact hrange t ht
        · rintro ⟨⟨-, hseen⟩, ⟨hne, hnodup⟩, -, hknown⟩
          exact ⟨fun a ha => ⟨hne a ha, hseen a ha⟩, hnodup, hknown⟩

/-- **What an accepted file is.** -/
theorem validate_eq_ok_iff {file : OntologyFile} : file.validate = .ok () ↔ file.Valid := by
  unfold validate
  split
  · rename_i hversion
    exact iff_of_false nofun fun h => hversion h.version
  · rename_i hversion
    split
    · rename_i e he
      refine iff_of_false nofun fun h => ?_
      rw [validateEntities_eq_ok_iff.2 ⟨h.named, by simp, h.canonicalsPerType⟩] at he
      cases he
    · rename_i hentities
      obtain ⟨hnamed, -, hcanonicals⟩ := validateEntities_eq_ok_iff.1 hentities
      rw [validatePredicates_eq_ok_iff]
      constructor
      · rintro ⟨-, hnames, hknown⟩
        refine ⟨not_not.1 hversion, hnamed, hcanonicals, hnames, fun p hp t ht => ?_⟩
        simpa using hknown p hp t ht
      · intro h
        refine ⟨by simp, h.predicateNames, fun p hp t ht => ?_⟩
        simpa using h.knownTypes p hp t ht

/-- `from_toml`, of a parsed file. -/
def fromToml (file : OntologyFile) : Except AssertError PredicateOntology :=
  match h : file.validate with
  | .error e => .error e
  | .ok () =>
    have hvalid : file.Valid := validate_eq_ok_iff.1 h
    .ok
      { entities := file.entities
        named := hvalid.named
        canonicalsPerType := hvalid.canonicalsPerType
        predicates := file.predicates
        predicateNames := hvalid.predicateNames
        knownTypes := hvalid.knownTypes }

/-- `append_entity_to_ontology`, when the file can be written. -/
def appendEntity (file : OntologyFile) (e : OntologyEntity) : OntologyFile :=
  { file with entities := file.entities ++ [e] }

/-- The file an ontology is read from. -/
def ofOntology (o : PredicateOntology) : OntologyFile :=
  { version := 1, entities := o.entities, predicates := o.predicates }

variable {file : OntologyFile} {o : PredicateOntology}

/-- What is loaded is what is in the file. -/
theorem fromToml_eq_ok_iff : file.fromToml = .ok o ↔ file = ofOntology o := by
  unfold fromToml
  constructor
  · intro h
    split at h
    · cases h
    · rename_i hvalidate
      cases h
      unfold ofOntology
      rw [← (validate_eq_ok_iff.1 hvalidate).version]
  · rintro rfl
    have hvalid : (ofOntology o).Valid :=
      ⟨rfl, o.named, o.canonicalsPerType, o.predicateNames, o.knownTypes⟩
    split
    · rename_i e he
      rw [validate_eq_ok_iff.2 hvalid] at he
      cases he
    · rfl

theorem valid_of_fromToml (h : file.fromToml = .ok o) : file.Valid := by
  rw [fromToml_eq_ok_iff.1 h]
  exact ⟨rfl, o.named, o.canonicalsPerType, o.predicateNames, o.knownTypes⟩

theorem Valid.exists_fromToml (h : file.Valid) : ∃ o, file.fromToml = .ok o := by
  refine ⟨⟨⟨file.entities, h.named, h.canonicalsPerType⟩, file.predicates, h.predicateNames,
    h.knownTypes⟩, fromToml_eq_ok_iff.2 ?_⟩
  unfold ofOntology
  rw [← h.version]

/-- An entity that is named, and whose key is not in the file. -/
theorem Valid.appendEntity {e : OntologyEntity} (h : file.Valid)
    (hnamed : e.entityType ≠ "" ∧ e.canonical ≠ "")
    (hnew : e.key ∉ file.entities.map OntologyEntity.key) : (file.appendEntity e).Valid where
  version := h.version
  named := by
    intro a ha
    rcases List.mem_append.1 ha with ha | ha
    · exact h.named a ha
    · rw [List.mem_singleton.1 ha]
      exact hnamed
  canonicalsPerType := by
    have hlast : (file.entities.map OntologyEntity.key ++ [e.key]).Nodup :=
      List.nodup_append.2 ⟨h.canonicalsPerType, List.nodup_singleton _, by
        rintro a ha b hb rfl
        exact hnew (List.mem_singleton.1 hb ▸ ha)⟩
    simpa [OntologyFile.appendEntity] using hlast
  predicateNames := h.predicateNames
  knownTypes := by
    intro p hp t ht
    obtain ⟨a, ha, hat⟩ := h.knownTypes p hp t ht
    exact ⟨a, List.mem_append_left _ ha, hat⟩

end OntologyFile

end Spectral
