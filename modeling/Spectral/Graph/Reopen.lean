import Spectral.Graph.Names

/-!
# Entities after a restart

An entity that is created is found by its exact names as long as the brain is open.  When the brain
is closed and opened again it is in the ontology, where names that are close are found as well, and
the aliases that it was given after its creation are gone.

* `FiledBrain` — a brain with its file, and a record of what was resolved to what.
* `Steady` — a mention does not meet the differences: no other entity has a closer name, and the
  canonicaliser takes no notice of case and leaves what it made as it is.
* `resolves_after_reopening` — in a run of such mentions, each one resolves after a restart to what
  it was resolved to.
-/

namespace Spectral

open Spectral.Lib

variable {ι : Type}

/-- What the policy makes of a mention that is not found. -/
def EntityPolicy.canonicalForm : EntityPolicy → String → String
  | .autoCreateWithCanonicalizer f => f
  | _ => id

/-- The names that are looked up for a mention: what it becomes, if it is not found itself. -/
def lookedUp (finds : String → Bool) (canonicalForm : String → String) (mention : String) :
    List String :=
  if finds mention then [mention] else [mention, canonicalForm mention]

namespace AssertingBrain

/-- What a mention resolves to without an entity being created. -/
def found (env : Env) (lib : TextLibrary) (b : AssertingBrain ι) (mention : String) :
    Option MatchedMention :=
  (b.lookup env lib mention).or (b.lookup env lib (b.entityPolicy.canonicalForm mention))

/-- A call and its result. -/
def outcome [LinearOrder ι] (env : Env) (lib : TextLibrary) (clock : Clock ι) (b : AssertingBrain ι) :
    AssertCall ι → AssertingBrain ι × Except AssertError AssertResult
  | .assert args subject predicate object => b.assert env lib clock args subject predicate object
  | .assertTyped args subject predicate object =>
    b.assertTyped env lib clock args subject predicate object
  | .assertTypedFrom args memoryId subject predicate object =>
    b.assertTypedFrom env lib clock args memoryId subject predicate object

/-- The brain closed, and opened with the ontology that its file has by then. -/
def reopened (b : AssertingBrain ι) (ontology : PredicateOntology) : AssertingBrain ι :=
  { b with ontology, runtimeEntities := [] }

end AssertingBrain

/-- The two mentions of a call. -/
def AssertCall.ends : AssertCall ι → String × String
  | .assert _ subject _ object => (subject, object)
  | .assertTyped _ subject _ object => (subject.2, object.2)
  | .assertTypedFrom _ _ subject _ object => (subject.2, object.2)

/-- A brain with its ontology file. -/
structure FiledBrain (ι : Type) where
  brain : AssertingBrain ι
  file : OntologyFile
  /-- The mentions that were resolved, each with what it was resolved to. -/
  resolved : List (String × MatchedMention) := []

namespace FiledBrain

variable (env : Env) (lib : TextLibrary)

/-- A mention is resolved; the other component is the type that it gets if it is created. -/
def resolve (s : FiledBrain ι) (args : AssertArgs ι) (x : String × Except AssertError String) :
    FiledBrain ι where
  brain := (s.brain.resolveWith env lib args x.1 x.2).1
  file := s.file.appendCreated (s.brain.created env lib args x.1 x.2)
  resolved :=
    match (s.brain.resolveWith env lib args x.1 x.2).2 with
    | .ok m => s.resolved ++ [(x.1, m)]
    | .error _ => s.resolved

/-- Mentions are resolved up to the first one that is not. -/
def resolveAll (args : AssertArgs ι) : FiledBrain ι → List (String × Except AssertError String) →
    FiledBrain ι
  | s, [] => s
  | s, x :: rest =>
    match (s.brain.resolveWith env lib args x.1 x.2).2 with
    | .ok _ => resolveAll args (s.resolve env lib args x) rest
    | .error _ => s.resolve env lib args x

/-- A call: what it does to the brain, to the file, and what it resolves. -/
def call [LinearOrder ι] (clock : Clock ι) (s : FiledBrain ι) (c : AssertCall ι) : FiledBrain ι :=
  { s.resolveAll env lib (s.brain.mentions c).args (s.brain.mentions c).mentions with
    brain := (s.brain.outcome env lib clock c).1 }

/-- The entities that were created. -/
def createdEntities (s : FiledBrain ι) : List OntologyEntity :=
  s.file.entities.drop s.brain.ontology.entities.length

/-! ## Mentions that keep their entity -/

/-- The canonicaliser takes no notice of case, and leaves a mention as it is that it made of
another one: as far as the mention and those before it show. -/
def SteadyForm (s : FiledBrain ι) (mention : String) : Prop :=
  ∀ y ∈ s.resolved,
    (lib.toLowercase mention = lib.toLowercase y.1 →
      lib.toLowercase (s.brain.entityPolicy.canonicalForm mention) =
        lib.toLowercase (s.brain.entityPolicy.canonicalForm y.1)) ∧
    (lib.toLowercase (s.brain.entityPolicy.canonicalForm mention) = lib.toLowercase y.1 →
      lib.toLowercase (s.brain.entityPolicy.canonicalForm y.1) = lib.toLowercase y.1)

/-- A mention that is found: of the names that are looked up for it, those that no entity has are
not taken over by a created entity, other than the one that is found. -/
def SteadyFound (s : FiledBrain ι) (mention : String) : Prop :=
  ∀ m ∈ s.brain.found env lib mention,
    ∀ name ∈ lookedUp (fun q => (s.brain.lookup env lib q).isSome)
        s.brain.entityPolicy.canonicalForm mention,
      (∀ a ∈ s.brain.ontology.entities ++ s.brain.runtimeEntities, lib.isNamed name a = false) →
      ∀ e ∈ s.createdEntities, lib.TakesOver s.brain.ontology.entities name e → e.key = m.key

/-- An entity that is created has a type and a name, and takes no earlier mention over: of the
names that would be looked up for it, none that is not in the file is close to the entity. -/
def SteadyCreated (s : FiledBrain ι) (e : OntologyEntity) : Prop :=
  (e.entityType ≠ "" ∧ e.canonical ≠ "") ∧
    ∀ y ∈ s.resolved,
      ∀ name ∈ lookedUp (fun q => (lib.resolveIn s.file.entities q).isSome)
          s.brain.entityPolicy.canonicalForm y.1,
        (∀ a ∈ s.file.entities, lib.isNamed name a = false) →
        lib.isNamed name e = false ∧ ¬ lib.TakesOver s.file.entities name e

/-- A mention that keeps its entity, and leaves to those before it theirs. -/
def Steady (s : FiledBrain ι) (args : AssertArgs ι) (x : String × Except AssertError String) : Prop :=
  s.SteadyForm lib x.1 ∧ s.SteadyFound env lib x.1 ∧
    ∀ e ∈ s.brain.created env lib args x.1 x.2, s.SteadyCreated lib e

/-- So do all the mentions that are resolved. -/
def SteadyAll (args : AssertArgs ι) : FiledBrain ι → List (String × Except AssertError String) → Prop
  | _, [] => True
  | s, x :: rest => s.Steady env lib args x ∧ SteadyAll args (s.resolve env lib args x) rest

/-- The mentions of a call. -/
def SteadyCall (s : FiledBrain ι) (c : AssertCall ι) : Prop :=
  s.SteadyAll env lib (s.brain.mentions c).args (s.brain.mentions c).mentions

instance (s : FiledBrain ι) (mention : String) : Decidable (s.SteadyForm lib mention) := by
  unfold SteadyForm
  infer_instance

instance (s : FiledBrain ι) (mention : String) : Decidable (s.SteadyFound env lib mention) := by
  unfold SteadyFound
  infer_instance

instance (s : FiledBrain ι) (e : OntologyEntity) : Decidable (s.SteadyCreated lib e) := by
  unfold SteadyCreated
  infer_instance

instance (s : FiledBrain ι) (args : AssertArgs ι) (x : String × Except AssertError String) :
    Decidable (s.Steady env lib args x) := by
  unfold Steady
  infer_instance

instance (args : AssertArgs ι) : (s : FiledBrain ι) → (l : List (String × Except AssertError String)) →
    Decidable (s.SteadyAll env lib args l)
  | _, [] => inferInstanceAs (Decidable True)
  | s, x :: rest =>
    have := instDecidableSteadyAll args (s.resolve env lib args x) rest
    inferInstanceAs (Decidable (s.Steady env lib args x ∧
      SteadyAll env lib args (s.resolve env lib args x) rest))

instance (s : FiledBrain ι) (c : AssertCall ι) : Decidable (s.SteadyCall env lib c) := by
  unfold SteadyCall
  infer_instance

end FiledBrain

/-! ## What resolving does -/

namespace AssertingBrain

/-- What resolving a mention makes of the brain, what it creates, and what it returns. -/
inductive Resolves (env : Env) (lib : TextLibrary) (b : AssertingBrain ι) (args : AssertArgs ι)
    (mention : String) : AssertingBrain ι → Option OntologyEntity → Except AssertError MatchedMention →
      Prop where
  | failed (e) : Resolves env lib b args mention b none (.error e)
  | known {m} (hm : b.lookup env lib mention = some m) : Resolves env lib b args mention b none (.ok m)
  | learned {m} (hnone : b.lookup env lib mention = none)
      (hm : b.lookup env lib (b.entityPolicy.canonicalForm mention) = some m) :
      Resolves env lib b args mention (b.ensureAlias m.canonical m.entityType mention) none (.ok m)
  | created {e} (hnone : b.lookup env lib mention = none)
      (hnone' : b.lookup env lib (b.entityPolicy.canonicalForm mention) = none)
      (hcanonical : e.canonical = b.entityPolicy.canonicalForm mention)
      (hnames : ∀ name ∈ e.names, name = mention ∨ name = b.entityPolicy.canonicalForm mention)
      (hmention : mention ∈ e.names) :
      Resolves env lib b args mention { b with runtimeEntities := b.runtimeEntities ++ [e] } (some e)
        (.ok (env.matched mention e .exact))

variable {env : Env} {lib : TextLibrary}

/-- The names of a new entity are the mention and its canonical form. -/
theorem names_newEntity (args : AssertArgs ι) (canonical mention entityType : String) :
    (∀ name ∈ (args.newEntity canonical mention entityType).names,
      name = mention ∨ name = canonical) ∧
      mention ∈ (args.newEntity canonical mention entityType).names := by
  unfold OntologyEntity.names AssertArgs.newEntity
  dsimp only
  split
  · refine ⟨fun name hname => ?_, by simp⟩
    rcases List.mem_cons.1 hname with rfl | hname
    · exact Or.inr rfl
    · exact Or.inl (List.mem_singleton.1 hname)
  · rename_i hsame
    obtain rfl : mention = canonical := not_not.1 hsame
    exact ⟨fun name hname => Or.inl (by simpa using hname), List.mem_cons_self⟩

theorem resolves_autoCreateEntity {b : AssertingBrain ι} (args : AssertArgs ι) (mention : String)
    (hnone : b.lookup env lib mention = none)
    (hnone' : b.lookup env lib (b.entityPolicy.canonicalForm mention) = none) (entityType : String) :
    Resolves env lib b args mention
      (b.autoCreateEntity env args (b.entityPolicy.canonicalForm mention) mention entityType).1
      (newEntity args (b.entityPolicy.canonicalForm mention) mention (.ok entityType))
      (b.autoCreateEntity env args (b.entityPolicy.canonicalForm mention) mention entityType).2 := by
  obtain ⟨hnames, hmention⟩ :=
    names_newEntity args (b.entityPolicy.canonicalForm mention) mention entityType
  rw [autoCreateEntity_eq]
  cases hfile : args.file (args.newEntity (b.entityPolicy.canonicalForm mention) mention entityType) with
  | some e =>
    have hnot : newEntity args (b.entityPolicy.canonicalForm mention) mention (.ok entityType) =
        none := by
      simp [newEntity, Except.toOption, Option.filter, hfile]
    rw [hnot]
    exact .failed e
  | none =>
    have hnew : newEntity args (b.entityPolicy.canonicalForm mention) mention (.ok entityType) =
        some (args.newEntity (b.entityPolicy.canonicalForm mention) mention entityType) := by
      simp [newEntity, Except.toOption, Option.filter, hfile]
    rw [hnew]
    exact .created hnone hnone' rfl hnames hmention

/-- **Every case.** -/
theorem resolves (env : Env) (lib : TextLibrary) (b : AssertingBrain ι) (args : AssertArgs ι)
    (mention : String) (newType : Except AssertError String) :
    Resolves env lib b args mention (b.resolveWith env lib args mention newType).1
      (b.created env lib args mention newType) (b.resolveWith env lib args mention newType).2 := by
  unfold resolveWith created
  cases hfound : b.lookup env lib mention with
  | some m => exact .known hfound
  | none =>
    cases hpolicy : b.entityPolicy with
    | strict => exact .failed _
    | autoCreate =>
      cases newType with
      | error e => exact .failed e
      | ok entityType =>
        have hform : b.entityPolicy.canonicalForm mention = mention := by
          rw [hpolicy]
          rfl
        have h := resolves_autoCreateEntity args mention hfound
          (by rw [hform]; exact hfound) entityType
        rw [hform] at h
        exact h
    | autoCreateWithCanonicalizer f =>
      have hform : b.entityPolicy.canonicalForm mention = f mention := by
        rw [hpolicy]
        rfl
      dsimp only
      cases hcanonical : b.lookup env lib (f mention) with
      | some m => exact .learned hfound (by rw [hform]; exact hcanonical)
      | none =>
        cases newType with
        | error e => exact .failed e
        | ok entityType =>
          have h := resolves_autoCreateEntity args mention hfound
            (by rw [hform]; exact hcanonical) entityType
          rw [hform] at h
          exact h

end AssertingBrain

/-- What a mention resolves to in a list of entities, by itself or by what becomes of it. -/
def TextLibrary.foundIn (lib : TextLibrary) (canonicalForm : String → String)
    (es : List OntologyEntity) (mention : String) : Option OntologyEntity :=
  (lib.resolveIn es mention).or (lib.resolveIn es (canonicalForm mention))

/-- No name of one is a name of the other. -/
def TextLibrary.Distinct (lib : TextLibrary) (r r' : OntologyEntity) : Prop :=
  ∀ n ∈ r.names, ∀ n' ∈ r'.names, lib.toLowercase n ≠ lib.toLowercase n'

theorem TextLibrary.Distinct.symm {lib : TextLibrary} (r r' : OntologyEntity)
    (h : lib.Distinct r r') : lib.Distinct r' r :=
  fun n hn n' hn' heq => h n' hn' n hn heq.symm

instance (lib : TextLibrary) : Std.Symm lib.Distinct := ⟨TextLibrary.Distinct.symm⟩

/-! ## What a run leaves -/

namespace FiledBrain

/-- The file has the ontology and the entities `created`.  These are in the list of the brain, some
with more aliases, each of which is on record; no name is that of two of them, and none resolves in
the ontology.  What was resolved is what the file resolves to. -/
structure Remembers (env : Env) (lib : TextLibrary) (s : FiledBrain ι)
    (created : List OntologyEntity) : Prop where
  entities : s.file.entities = s.brain.ontology.entities ++ created
  valid : s.file.Valid
  grown : ∀ c ∈ created, ∃ r ∈ s.brain.runtimeEntities, r.key = c.key ∧ ∀ n ∈ c.names, n ∈ r.names
  unknown : ∀ r ∈ s.brain.runtimeEntities, ∀ n ∈ r.names,
    lib.resolveIn s.brain.ontology.entities n = none
  apart : s.brain.runtimeEntities.Pairwise lib.Distinct
  learned : ∀ r ∈ s.brain.runtimeEntities, ∀ n ∈ r.names,
    (∃ c ∈ created, c.key = r.key ∧ n ∈ c.names) ∨
      ∃ y ∈ s.resolved, y.1 = n ∧ y.2.key = r.key ∧
        lib.toLowercase (s.brain.entityPolicy.canonicalForm n) ≠ lib.toLowercase n
  kept : ∀ y ∈ s.resolved, (lib.foundIn s.brain.entityPolicy.canonicalForm s.file.entities y.1).map
    OntologyEntity.key = some y.2.key
  ids : ∀ y ∈ s.resolved, y.2.entityId = env.entityId y.2.entityType y.2.canonical

variable {env : Env} {lib : TextLibrary} {s : FiledBrain ι} {created : List OntologyEntity}
  {name : String}

theorem Remembers.createdEntities_eq (h : s.Remembers env lib created) :
    s.createdEntities = created := by
  unfold createdEntities
  rw [h.entities, List.drop_left]

/-- A created entity that has a name in the file has it in the brain. -/
theorem Remembers.exists_named (h : s.Remembers env lib created) {c : OntologyEntity}
    (hc : c ∈ created) (hnamed : lib.isNamed name c = true) :
    ∃ r ∈ s.brain.runtimeEntities, r.key = c.key ∧ lib.isNamed name r = true := by
  obtain ⟨n, hn, hlower⟩ := TextLibrary.isNamed_iff.1 hnamed
  obtain ⟨r, hr, hkey, hnames⟩ := h.grown c hc
  exact ⟨r, hr, hkey, TextLibrary.isNamed_iff.2 ⟨n, hnames n hn, hlower⟩⟩

/-- No two have a name. -/
theorem Remembers.eq_of_named (h : s.Remembers env lib created) {r r' : OntologyEntity}
    (hr : r ∈ s.brain.runtimeEntities) (hr' : r' ∈ s.brain.runtimeEntities)
    (hnamed : lib.isNamed name r = true) (hnamed' : lib.isNamed name r' = true) : r = r' := by
  obtain ⟨n, hn, hlower⟩ := TextLibrary.isNamed_iff.1 hnamed
  obtain ⟨n', hn', hlower'⟩ := TextLibrary.isNamed_iff.1 hnamed'
  by_contra hne
  exact h.apart.forall hr hr' hne n hn n' hn' (hlower.trans hlower'.symm)

/-- A name of one that was created is none of the ontology's. -/
theorem Remembers.resolveIn_of_named (h : s.Remembers env lib created) {r : OntologyEntity}
    (hr : r ∈ s.brain.runtimeEntities) (hnamed : lib.isNamed name r = true) :
    lib.resolveIn s.brain.ontology.entities name = none := by
  obtain ⟨n, hn, hlower⟩ := TextLibrary.isNamed_iff.1 hnamed
  rw [← TextLibrary.resolveIn_congr hlower]
  exact h.unknown r hr n hn

/-- A name that a created entity has in the file resolves to it. -/
theorem Remembers.resolveIn_file_of_named (h : s.Remembers env lib created) {c : OntologyEntity}
    (hc : c ∈ created) (hnamed : lib.isNamed name c = true) :
    (lib.resolveIn s.file.entities name).map OntologyEntity.key = some c.key := by
  obtain ⟨r, hr, hkey, hnamed'⟩ := h.exists_named hc hnamed
  have hunknown := h.resolveIn_of_named hr hnamed'
  obtain ⟨a, ha, hanamed, heq⟩ := TextLibrary.resolveIn_append_named
    (fun _ => TextLibrary.not_isNamed_of_resolveIn_eq_none hunknown) hc hnamed
  obtain ⟨r', hr', hkey', hnamed''⟩ := h.exists_named ha hanamed
  obtain rfl := h.eq_of_named hr hr' hnamed' hnamed''
  rw [h.entities, heq, Option.map_some, ← hkey', hkey]

/-- What the condition says of one of the names that are looked up for a mention. -/
def NotTakenOver (lib : TextLibrary) (s : FiledBrain ι) (key : String × String) (name : String) :
    Prop :=
  (∀ a ∈ s.brain.ontology.entities ++ s.brain.runtimeEntities, lib.isNamed name a = false) →
    ∀ e ∈ s.createdEntities, lib.TakesOver s.brain.ontology.entities name e → e.key = key

/-- **A name that is found.**  The file resolves it to the same entity, or it is an alias that the
entity was given later. -/
theorem Remembers.resolveIn_file_of_lookup (h : s.Remembers env lib created) {m : MatchedMention}
    (hm : s.brain.lookup env lib name = some m) (hsteady : s.NotTakenOver lib m.key name) :
    (lib.resolveIn s.file.entities name).map OntologyEntity.key = some m.key ∨
      ∃ y ∈ s.resolved, lib.toLowercase y.1 = lib.toLowercase name ∧ y.2.key = m.key ∧
        lib.toLowercase (s.brain.entityPolicy.canonicalForm y.1) ≠ lib.toLowercase y.1 := by
  rcases AssertingBrain.lookup_eq_some hm with ⟨a, ha, hkey⟩ | ⟨-, r, hr, hnamed, hkey⟩
  · refine Or.inl ?_
    by_cases hexact : ∃ e ∈ s.brain.ontology.entities, lib.isNamed name e = true
    · obtain ⟨e, he, hnamed⟩ := hexact
      rw [h.entities, TextLibrary.resolveIn_append_of_named he hnamed, ha, Option.map_some, hkey]
    · -- not a name at all: only an entity that is closer can change what is found
      push Not at hexact
      have hruntime : ∀ r ∈ s.brain.runtimeEntities, lib.isNamed name r = false := fun r hr => by
        by_contra hnamed
        rw [h.resolveIn_of_named hr (by simpa using hnamed)] at ha
        cases ha
      have hnone : ∀ a ∈ s.brain.ontology.entities ++ s.brain.runtimeEntities,
          lib.isNamed name a = false := fun a ha =>
        (List.mem_append.1 ha).elim (fun ha => by simpa using hexact a ha) (hruntime a)
      have hnew : ∀ c ∈ created, lib.isNamed name c = false := fun c hc => by
        by_contra hnamed
        obtain ⟨r, hr, -, hnamed'⟩ := h.exists_named hc (by simpa using hnamed)
        rw [hruntime r hr] at hnamed'
        cases hnamed'
      have hover := hsteady hnone
      rw [h.createdEntities_eq] at hover
      rw [h.entities]
      rcases TextLibrary.resolveIn_append (fun e => e.key = m.key) hnew hover with
        hsame | ⟨e, -, hek, heq⟩
      · rw [hsame, ha, Option.map_some, hkey]
      · rw [heq, Option.map_some, hek]
  · obtain ⟨n, hn, hlower⟩ := TextLibrary.isNamed_iff.1 hnamed
    rcases h.learned r hr n hn with ⟨c, hc, hck, hnc⟩ | ⟨y, hy, rfl, hyk, hform⟩
    · left
      rw [h.resolveIn_file_of_named hc (TextLibrary.isNamed_iff.2 ⟨n, hnc, hlower⟩), hck, hkey]
    · exact Or.inr ⟨y, hy, hlower, hyk.trans hkey, hform⟩

/-- A name that is not found. -/
theorem Remembers.resolveIn_file_of_lookup_eq_none (h : s.Remembers env lib created)
    {key : String × String} (hnone : s.brain.lookup env lib name = none)
    (hsteady : s.NotTakenOver lib key name) :
    lib.resolveIn s.file.entities name = none ∨
      (lib.resolveIn s.file.entities name).map OntologyEntity.key = some key := by
  have hnames := AssertingBrain.isNamed_of_lookup_eq_none hnone
  have hnew : ∀ c ∈ created, lib.isNamed name c = false := fun c hc => by
    by_contra hnamed
    obtain ⟨r, hr, -, hnamed'⟩ := h.exists_named hc (by simpa using hnamed)
    rw [hnames r (List.mem_append_right _ hr)] at hnamed'
    cases hnamed'
  have hover := hsteady hnames
  rw [h.createdEntities_eq] at hover
  rw [h.entities]
  refine (TextLibrary.resolveIn_append (fun e => e.key = key) hnew hover).imp
    (fun hsame => ?_) fun ⟨e, _, hek, heq⟩ => ?_
  · rw [hsame]
    exact AssertingBrain.resolveIn_of_lookup_eq_none hnone
  · rw [heq, Option.map_some, hek]

/-- **A mention that is found.** -/
theorem Remembers.foundIn_of_found (h : s.Remembers env lib created) {mention : String}
    (hform : s.SteadyForm lib mention) (hsteady : s.SteadyFound env lib mention) {m : MatchedMention}
    (hm : s.brain.found env lib mention = some m) :
    (lib.foundIn s.brain.entityPolicy.canonicalForm s.file.entities mention).map OntologyEntity.key =
      some m.key := by
  unfold TextLibrary.foundIn
  cases hfirst : s.brain.lookup env lib mention with
  | some m' =>
    have hlooked : lookedUp (fun q => (s.brain.lookup env lib q).isSome)
        s.brain.entityPolicy.canonicalForm mention = [mention] := by
      simp [lookedUp, hfirst]
    have hover : s.NotTakenOver lib m.key mention :=
      hsteady m hm mention (by rw [hlooked]; exact List.mem_singleton_self _)
    obtain rfl : m' = m := by
      unfold AssertingBrain.found at hm
      rw [hfirst] at hm
      exact Option.some.inj hm
    rcases h.resolveIn_file_of_lookup hfirst hover with heq | ⟨y, hy, hlower, hyk, -⟩
    · rw [Option.map_or, heq, Option.some_or]
    · -- the alias was learned from a mention that is on record
      rw [← hyk, ← h.kept y hy]
      unfold TextLibrary.foundIn
      rw [TextLibrary.resolveIn_congr hlower.symm,
        TextLibrary.resolveIn_congr ((hform y hy).1 hlower.symm)]
  | none =>
    have hlooked : lookedUp (fun q => (s.brain.lookup env lib q).isSome)
        s.brain.entityPolicy.canonicalForm mention =
        [mention, s.brain.entityPolicy.canonicalForm mention] := by
      simp [lookedUp, hfirst]
    have hover : s.NotTakenOver lib m.key mention :=
      hsteady m hm mention (by rw [hlooked]; exact List.mem_cons_self)
    have hover' : s.NotTakenOver lib m.key (s.brain.entityPolicy.canonicalForm mention) :=
      hsteady m hm _ (by rw [hlooked]; exact List.mem_cons_of_mem _ (List.mem_singleton_self _))
    have hsecond : s.brain.lookup env lib (s.brain.entityPolicy.canonicalForm mention) = some m := by
      unfold AssertingBrain.found at hm
      rw [hfirst] at hm
      exact hm
    rcases h.resolveIn_file_of_lookup_eq_none hfirst hover with hnone | heq
    · rw [hnone, Option.none_or]
      rcases h.resolveIn_file_of_lookup hsecond hover' with heq | ⟨y, hy, hlower, -, hne⟩
      · exact heq
      · exact absurd ((hform y hy).2 hlower.symm) hne
    · rw [Option.map_or, heq, Option.some_or]

/-! ## One more mention -/

/-- Another brain with the same entities. -/
theorem Remembers.of_brain (h : s.Remembers env lib created) {brain : AssertingBrain ι}
    (hontology : brain.ontology = s.brain.ontology) (hpolicy : brain.entityPolicy = s.brain.entityPolicy)
    (hruntime : brain.runtimeEntities = s.brain.runtimeEntities) :
    Remembers env lib { s with brain } created where
  entities := by
    dsimp only
    rw [hontology]
    exact h.entities
  valid := h.valid
  grown := by
    dsimp only
    rw [hruntime]
    exact h.grown
  unknown := by
    dsimp only
    rw [hruntime, hontology]
    exact h.unknown
  apart := by
    dsimp only
    rw [hruntime]
    exact h.apart
  learned := by
    dsimp only
    rw [hruntime, hpolicy]
    exact h.learned
  kept := by
    dsimp only
    rw [hpolicy]
    exact h.kept
  ids := h.ids

/-- One more mention that the file resolves right. -/
theorem Remembers.resolved_append (h : s.Remembers env lib created) {mention : String}
    {m : MatchedMention}
    (hkept : (lib.foundIn s.brain.entityPolicy.canonicalForm s.file.entities mention).map
      OntologyEntity.key = some m.key)
    (hid : m.entityId = env.entityId m.entityType m.canonical) :
    Remembers env lib { s with resolved := s.resolved ++ [(mention, m)] } created where
  entities := h.entities
  valid := h.valid
  grown := h.grown
  unknown := h.unknown
  apart := h.apart
  learned := by
    intro r hr n hn
    exact (h.learned r hr n hn).imp_right fun ⟨y, hy, hyn⟩ => ⟨y, List.mem_append_left _ hy, hyn⟩
  kept := by
    intro y hy
    rcases List.mem_append.1 hy with hy | hy
    · exact h.kept y hy
    · rw [List.mem_singleton.1 hy]
      exact hkept
  ids := by
    intro y hy
    rcases List.mem_append.1 hy with hy | hy
    · exact h.ids y hy
    · rw [List.mem_singleton.1 hy]
      exact hid

theorem names_withAlias (e : OntologyEntity) (name : String) :
    ∀ n ∈ (e.withAlias name).names, n ∈ e.names ∨ n = name := by
  unfold OntologyEntity.withAlias
  split
  · exact fun n hn => Or.inl hn
  · intro n hn
    have hsplit : n = e.canonical ∨ n ∈ e.aliases ∨ n = name := by
      simpa [OntologyEntity.names] using hn
    rcases hsplit with rfl | hn | rfl
    · exact Or.inl List.mem_cons_self
    · exact Or.inl (List.mem_cons_of_mem _ hn)
    · exact Or.inr rfl

theorem names_subset_withAlias (e : OntologyEntity) (name : String) :
    ∀ n ∈ e.names, n ∈ (e.withAlias name).names := by
  unfold OntologyEntity.withAlias
  split
  · exact fun n hn => hn
  · intro n hn
    rcases List.mem_cons.1 hn with rfl | hn
    · exact List.mem_cons_self
    · exact List.mem_cons_of_mem _ (List.mem_append_left _ hn)

/-- An alias goes to the entity with the key, if it was created. -/
theorem runtimeEntities_ensureAlias (b : AssertingBrain ι) (m : MatchedMention) (name : String) :
    (b.ensureAlias m.canonical m.entityType name).runtimeEntities = b.runtimeEntities ∨
      ∃ i, ∃ r, b.runtimeEntities[i]? = some r ∧ r.key = m.key ∧
        (b.ensureAlias m.canonical m.entityType name).runtimeEntities =
          b.runtimeEntities.modify i fun _ => r.withAlias name := by
  unfold AssertingBrain.ensureAlias
  dsimp only
  split
  · rename_i i hi
    obtain ⟨hlt, hkey, -⟩ := List.findIdx?_eq_some_iff_getElem.1 hi
    have hget := List.getElem?_eq_getElem hlt
    refine Or.inr ⟨i, b.runtimeEntities[i], hget, ?_, ?_⟩
    · have hboth := of_decide_eq_true hkey
      exact Prod.ext hboth.2 hboth.1
    · refine List.ext_getElem? fun j => ?_
      rw [List.getElem?_modify, List.getElem?_modify]
      by_cases hij : i = j
      · subst hij
        simp [hget]
      · simp [hij]
  · exact Or.inl rfl

/-- **A mention that is found under its canonical form**, and becomes an alias. -/
theorem Remembers.ensureAlias (h : s.Remembers env lib created) {mention : String}
    {m : MatchedMention} (hnone : s.brain.lookup env lib mention = none)
    (hm : s.brain.lookup env lib (s.brain.entityPolicy.canonicalForm mention) = some m)
    (hrecord : (mention, m) ∈ s.resolved) :
    Remembers env lib { s with brain := s.brain.ensureAlias m.canonical m.entityType mention }
      created := by
  have hform : lib.toLowercase (s.brain.entityPolicy.canonicalForm mention) ≠
      lib.toLowercase mention := fun heq => by
    have hsome : (s.brain.lookup env lib (s.brain.entityPolicy.canonicalForm mention)).isSome =
        (s.brain.lookup env lib mention).isSome := AssertingBrain.lookup_isSome_congr heq
    rw [hm, hnone] at hsome
    cases hsome
  rcases runtimeEntities_ensureAlias s.brain m mention with hsame | ⟨i, r, hi, hkey, hmodified⟩
  · exact h.of_brain rfl rfl hsame
  · have hr : r ∈ s.brain.runtimeEntities := List.mem_of_getElem? hi
    have hothers : ∀ x ∈ s.brain.runtimeEntities, ∀ n ∈ x.names,
        lib.toLowercase mention ≠ lib.toLowercase n := fun x hx n hn heq => by
      have hnot := AssertingBrain.isNamed_of_lookup_eq_none hnone x (List.mem_append_right _ hx)
      rw [TextLibrary.isNamed_iff.2 ⟨n, hn, heq.symm⟩] at hnot
      cases hnot
    have hunknown := AssertingBrain.resolveIn_of_lookup_eq_none hnone
    refine ⟨h.entities, h.valid, ?_, ?_, ?_, ?_, h.kept, h.ids⟩
    · intro c hc
      dsimp only
      rw [hmodified, exists_mem_modify_iff hi]
      refine ((exists_mem_iff_at hi).1 (h.grown c hc)).imp_left fun ⟨hck, hnames⟩ => ?_
      exact ⟨(AssertingBrain.key_withAlias r mention).trans hck,
        fun n hn => names_subset_withAlias r mention n (hnames n hn)⟩
    · dsimp only
      rw [hmodified]
      refine forall_mem_modify h.unknown fun _ _ n hn => ?_
      rcases names_withAlias r mention n hn with hn | rfl
      · exact h.unknown r hr n hn
      · exact hunknown
    · dsimp only
      rw [hmodified]
      refine pairwise_modify TextLibrary.Distinct.symm h.apart fun _ _ x hx n hn n' hn' => ?_
      rcases names_withAlias r mention n hn with hn | rfl
      · exact rel_of_pairwise TextLibrary.Distinct.symm h.apart hi x hx n hn n' hn'
      · exact hothers x (List.mem_of_mem_eraseIdx hx) n' hn'
    · dsimp only
      rw [hmodified]
      refine forall_mem_modify h.learned fun _ _ n hn => ?_
      rw [AssertingBrain.key_withAlias]
      rcases names_withAlias r mention n hn with hn | rfl
      · exact h.learned r hr n hn
      · exact Or.inr ⟨_, hrecord, rfl, hkey.symm, hform⟩

/-- **An entity that is created.** -/
theorem Remembers.create (h : s.Remembers env lib created) {mention : String} {e : OntologyEntity}
    (hnone : s.brain.lookup env lib mention = none)
    (hnone' : s.brain.lookup env lib (s.brain.entityPolicy.canonicalForm mention) = none)
    (hcanonical : e.canonical = s.brain.entityPolicy.canonicalForm mention)
    (hnames : ∀ n ∈ e.names, n = mention ∨ n = s.brain.entityPolicy.canonicalForm mention)
    (hsteady : s.SteadyCreated lib e) :
    Remembers env lib
      { s with
        brain := { s.brain with runtimeEntities := s.brain.runtimeEntities ++ [e] }
        file := s.file.appendEntity e } (created ++ [e]) := by
  have hmissing : ∀ n ∈ e.names, s.brain.lookup env lib n = none := fun n hn => by
    rcases hnames n hn with rfl | rfl
    · exact hnone
    · exact hnone'
  have hnew : e.key ∉ s.file.entities.map OntologyEntity.key := fun hmem => by
    obtain ⟨a, ha, hkey⟩ := List.mem_map.1 hmem
    have hunknown := AssertingBrain.key_notMem_of_lookup_eq_none (hcanonical ▸ hnone')
    rw [h.entities] at ha
    refine hunknown (List.mem_map.2 ?_)
    rcases List.mem_append.1 ha with ha | ha
    · exact ⟨a, List.mem_append_left _ ha, hkey⟩
    · obtain ⟨r, hr, hrk, -⟩ := h.grown a ha
      exact ⟨r, List.mem_append_right _ hr, hrk.trans hkey⟩
  refine ⟨?_, h.valid.appendEntity hsteady.1 hnew, ?_, ?_, ?_, ?_, ?_, h.ids⟩
  · show s.file.entities ++ [e] = _
    rw [h.entities, List.append_assoc]
  · intro c hc
    rcases List.mem_append.1 hc with hc | hc
    · obtain ⟨r, hr, hrest⟩ := h.grown c hc
      exact ⟨r, List.mem_append_left _ hr, hrest⟩
    · rw [List.mem_singleton.1 hc]
      exact ⟨e, List.mem_append_right _ (List.mem_singleton_self e), rfl, fun n hn => hn⟩
  · intro r hr n hn
    rcases List.mem_append.1 hr with hr | hr
    · exact h.unknown r hr n hn
    · rw [List.mem_singleton.1 hr] at hn
      have hunknown := AssertingBrain.resolveIn_of_lookup_eq_none (hmissing n hn)
      exact hunknown
  · refine List.pairwise_append.2 ⟨h.apart, List.pairwise_singleton _ _, ?_⟩
    intro r hr e' he' n hn n' hn' heq
    rw [List.mem_singleton.1 he'] at hn'
    have hnot := AssertingBrain.isNamed_of_lookup_eq_none (hmissing n' hn') r
      (List.mem_append_right _ hr)
    rw [TextLibrary.isNamed_iff.2 ⟨n, hn, heq⟩] at hnot
    cases hnot
  · intro r hr n hn
    rcases List.mem_append.1 hr with hr | hr
    · exact (h.learned r hr n hn).imp_left fun ⟨c, hc, hrest⟩ => ⟨c, List.mem_append_left _ hc, hrest⟩
    · obtain rfl := List.mem_singleton.1 hr
      exact Or.inl ⟨r, List.mem_append_right _ (List.mem_singleton_self r), rfl, hn⟩
  · intro y hy
    have hsame : ∀ name ∈ lookedUp (fun q => (lib.resolveIn s.file.entities q).isSome)
        s.brain.entityPolicy.canonicalForm y.1,
        lib.resolveIn (s.file.entities ++ [e]) name = lib.resolveIn s.file.entities name := by
      intro name hname
      by_cases hexact : ∃ a ∈ s.file.entities, lib.isNamed name a = true
      · obtain ⟨a, ha, hnamed⟩ := hexact
        exact TextLibrary.resolveIn_append_of_named ha hnamed
      · push Not at hexact
        obtain ⟨hunnamed, hover⟩ := hsteady.2 y hy name hname fun a ha => by simpa using hexact a ha
        have hnotNamed : ∀ a ∈ [e], lib.isNamed name a = false := by simpa using hunnamed
        have hnever : ∀ a ∈ [e], lib.TakesOver s.file.entities name a → False := by simpa using hover
        rcases TextLibrary.resolveIn_append (fun _ => False) hnotNamed hnever with
          hsame | ⟨_, -, hf, -⟩
        · exact hsame
        · exact hf.elim
    have hkept := h.kept y hy
    show (lib.foundIn _ (s.file.entities ++ [e]) y.1).map _ = _
    rw [← hkept]
    unfold TextLibrary.foundIn
    cases hfirst : lib.resolveIn s.file.entities y.1 with
    | some a =>
      rw [hsame y.1 (by simp [lookedUp, hfirst]), hfirst]
      rfl
    | none =>
      rw [hsame y.1 (by simp [lookedUp, hfirst]), hfirst,
        hsame (s.brain.entityPolicy.canonicalForm y.1) (by simp [lookedUp, hfirst])]

/-- **One mention.** -/
theorem Remembers.resolve (h : s.Remembers env lib created) (args : AssertArgs ι)
    (x : String × Except AssertError String) (hsteady : s.Steady env lib args x) :
    ∃ created', (s.resolve env lib args x).Remembers env lib created' := by
  obtain ⟨hform, hfound, hcreated⟩ := hsteady
  have hid := (AssertingBrain.resolveWith_spec env lib args s.brain x.1 x.2).2
  have hcases := AssertingBrain.resolves env lib s.brain args x.1 x.2
  unfold FiledBrain.resolve
  generalize (s.brain.resolveWith env lib args x.1 x.2).1 = brain' at hcases
  generalize hresult : (s.brain.resolveWith env lib args x.1 x.2).2 = result at hcases hid
  generalize s.brain.created env lib args x.1 x.2 = e? at hcases hcreated
  cases hcases with
  | failed e => exact ⟨created, h⟩
  | @known m hm =>
    refine ⟨created, h.resolved_append (h.foundIn_of_found hform hfound ?_) (hid m rfl).2⟩
    unfold AssertingBrain.found
    rw [hm]
    rfl
  | @learned m hnone hm =>
    have hkept := h.foundIn_of_found hform hfound (m := m) (by
      unfold AssertingBrain.found
      rw [hnone, hm]
      rfl)
    have hrecorded := h.resolved_append hkept (hid m rfl).2
    exact ⟨created, hrecorded.ensureAlias hnone hm
      (List.mem_append_right _ (List.mem_singleton_self _))⟩
  | @created e hnone hnone' hcanonical hnames hmention =>
    have hnew := h.create hnone hnone' hcanonical hnames (hcreated e rfl)
    refine ⟨created ++ [e], hnew.resolved_append ?_ rfl⟩
    have hnamed : lib.isNamed x.1 e = true := TextLibrary.isNamed_iff.2 ⟨x.1, hmention, rfl⟩
    have hkey := hnew.resolveIn_file_of_named
      (List.mem_append_right _ (List.mem_singleton_self e)) hnamed
    unfold TextLibrary.foundIn
    rw [Option.map_or, hkey]
    rfl

/-- Some mentions. -/
theorem Remembers.resolveAll (args : AssertArgs ι) (l : List (String × Except AssertError String))
    (h : s.Remembers env lib created) (hsteady : s.SteadyAll env lib args l) :
    ∃ created', (s.resolveAll env lib args l).Remembers env lib created' := by
  induction l generalizing s created with
  | nil => exact ⟨created, h⟩
  | cons x rest ih =>
    obtain ⟨created', h'⟩ := h.resolve args x hsteady.1
    unfold FiledBrain.resolveAll
    split
    · exact ih h' hsteady.2
    · exact ⟨created', h'⟩

end FiledBrain

/-! ## Calls -/

namespace AssertingBrain

/-- The two resolve alike. -/
structure SameEntities (b b' : AssertingBrain ι) : Prop where
  ontology : b'.ontology = b.ontology
  entityPolicy : b'.entityPolicy = b.entityPolicy
  runtimeEntities : b'.runtimeEntities = b.runtimeEntities

theorem SameEntities.refl (b : AssertingBrain ι) : SameEntities b b := ⟨rfl, rfl, rfl⟩

theorem sameEntities_writeTripleWithDoc [LinearOrder ι] {clock : Clock ι} (b : AssertingBrain ι)
    (args : AssertArgs ι) (subject : MatchedMention) (predicate : String) (object : MatchedMention)
    (sourceDocId : Option Bytes32) :
    SameEntities b (b.writeTripleWithDoc clock args subject predicate object sourceDocId).1 :=
  ⟨rfl, rfl, rfl⟩

/-- What is found is what a mention resolves to. -/
theorem resolveWith_of_found {env : Env} {lib : TextLibrary} {b : AssertingBrain ι} {mention : String}
    {m : MatchedMention} (h : b.found env lib mention = some m) (args : AssertArgs ι)
    (newType : Except AssertError String) :
    (b.resolveWith env lib args mention newType).2 = .ok m := by
  unfold found at h
  unfold resolveWith
  cases hfirst : b.lookup env lib mention with
  | some m' =>
    rw [hfirst] at h
    cases h
    rfl
  | none =>
    rw [hfirst, Option.none_or] at h
    cases hpolicy : b.entityPolicy with
    | strict | autoCreate =>
      rw [hpolicy] at h
      exact absurd (hfirst.symm.trans h) nofun
    | autoCreateWithCanonicalizer f =>
      rw [hpolicy] at h
      have hsecond : b.lookup env lib (f mention) = some m := h
      simp only [hsecond]

end AssertingBrain

namespace FiledBrain

variable {env : Env} {lib : TextLibrary} {s : FiledBrain ι}

theorem resolveAll_pair (args : AssertArgs ι) (x y : String × Except AssertError String) :
    (s.resolveAll env lib args [x, y]).brain =
      (s.brain.resolveBoth env lib args x.1 x.2 y.1 y.2).1 := by
  unfold resolveAll AssertingBrain.resolveBoth
  dsimp only
  split
  · rename_i hx
    rw [hx]
    unfold resolveAll
    split <;> rfl
  · rename_i hx
    rw [hx]
    rfl

variable [LinearOrder ι] {clock : Clock ι}

variable (env lib s clock) in
theorem sameEntities_assertTypedWithDoc (args : AssertArgs ι) (subject : String × String)
    (predicate : String) (object : String × String) (sourceDocId : Option Bytes32) :
    AssertingBrain.SameEntities
      (s.resolveAll env lib args (if s.brain.readOnly then []
        else [(subject.2, .ok subject.1), (object.2, .ok object.1)])).brain
      (s.brain.assertTypedWithDoc env lib clock args subject predicate object sourceDocId).1 := by
  unfold AssertingBrain.assertTypedWithDoc
  cases hread : s.brain.readOnly with
  | true => exact .refl _
  | false =>
    simp only [Bool.false_eq_true, if_false]
    rw [resolveAll_pair]
    split
    · rename_i hboth
      rw [hboth]
      exact .refl _
    · rename_i hboth
      rw [hboth]
      split
      · exact AssertingBrain.sameEntities_writeTripleWithDoc ..
      · split
        · exact .refl _
        · exact AssertingBrain.sameEntities_writeTripleWithDoc ..

variable (env lib s clock) in
/-- What a call makes of the entities is what its mentions do. -/
theorem sameEntities_outcome (c : AssertCall ι) : AssertingBrain.SameEntities
    (s.resolveAll env lib (s.brain.mentions c).args (s.brain.mentions c).mentions).brain
    (s.brain.outcome env lib clock c).1 := by
  cases c with
  | assert args subject predicate object =>
    unfold AssertingBrain.outcome AssertingBrain.assert AssertingBrain.mentions
    dsimp only
    cases hread : s.brain.readOnly with
    | true => exact .refl _
    | false =>
      simp only [Bool.false_eq_true, if_false]
      cases hdeclared : s.brain.declared predicate with
      | none => exact .refl _
      | some p =>
        dsimp only
        rw [resolveAll_pair]
        split
        · rename_i hboth
          rw [hboth]
          exact .refl _
        · rename_i hboth
          rw [hboth]
          split
          · exact .refl _
          · exact AssertingBrain.sameEntities_writeTripleWithDoc ..
  | assertTyped args subject predicate object =>
    exact sameEntities_assertTypedWithDoc env lib s clock args subject predicate object none
  | assertTypedFrom args memoryId subject predicate object =>
    unfold AssertingBrain.outcome AssertingBrain.assertTypedFrom AssertingBrain.memoryDocId
      AssertingBrain.mentions
    dsimp only
    cases hmemory : s.brain.memories.getMemory memoryId with
    | none => exact .refl _
    | some memory =>
      have hsame := sameEntities_assertTypedWithDoc env lib s clock args subject predicate object
        (some (env.blake3 (utf8 memory.content)))
      cases hread : s.brain.readOnly with
      | true =>
        rw [hread] at hsame
        exact hsame
      | false =>
        rw [hread] at hsame
        exact hsame

omit [LinearOrder ι] in
theorem resolveAll_pair_ok {args : AssertArgs ι} {x y : String × Except AssertError String}
    {brain : AssertingBrain ι} {subject object : MatchedMention}
    (h : s.brain.resolveBoth env lib args x.1 x.2 y.1 y.2 = (brain, .ok (subject, object))) :
    (s.resolveAll env lib args [x, y]).resolved =
      s.resolved ++ [(x.1, subject), (y.1, object)] := by
  unfold AssertingBrain.resolveBoth at h
  dsimp only at h
  split at h
  · cases h
  · rename_i m hx
    cases hy : ((s.brain.resolveWith env lib args x.1 x.2).1.resolveWith env lib args y.1 y.2).2 with
    | error e =>
      rw [hy] at h
      cases h
    | ok m' =>
      rw [hy] at h
      cases h
      simp [resolveAll, resolve, hx, hy]

theorem resolved_assertTypedWithDoc {args : AssertArgs ι} {subject : String × String}
    {predicate : String} {object : String × String} {sourceDocId : Option Bytes32} {r : AssertResult}
    (h : (s.brain.assertTypedWithDoc env lib clock args subject predicate object sourceDocId).2 =
      .ok r) :
    (s.resolveAll env lib args (if s.brain.readOnly then []
      else [(subject.2, .ok subject.1), (object.2, .ok object.1)])).resolved =
      s.resolved ++ [(subject.2, r.subject), (object.2, r.object)] := by
  unfold AssertingBrain.assertTypedWithDoc at h
  cases hread : s.brain.readOnly with
  | true =>
    rw [hread] at h
    cases h
  | false =>
    simp only [hread, Bool.false_eq_true, if_false] at h ⊢
    split at h
    · cases h
    · rename_i hboth
      have hresolved := resolveAll_pair_ok (x := (subject.2, .ok subject.1))
        (y := (object.2, .ok object.1)) hboth
      split at h
      · cases h
        exact hresolved
      · split at h
        · cases h
        · cases h
          exact hresolved

/-- What a call that goes through says it joined is what is on record. -/
theorem resolved_of_outcome {c : AssertCall ι} {r : AssertResult}
    (h : (s.brain.outcome env lib clock c).2 = .ok r) :
    (s.call env lib clock c).resolved =
      s.resolved ++ [(c.ends.1, r.subject), (c.ends.2, r.object)] := by
  cases c with
  | assert args subject predicate object =>
    unfold AssertingBrain.outcome AssertingBrain.assert at h
    unfold FiledBrain.call AssertingBrain.mentions AssertCall.ends
    dsimp only at h ⊢
    cases hread : s.brain.readOnly with
    | true =>
      rw [hread] at h
      cases h
    | false =>
      simp only [hread, Bool.false_eq_true, if_false] at h
      cases hdeclared : s.brain.declared predicate with
      | none =>
        rw [hdeclared] at h
        cases h
      | some p =>
        rw [hdeclared] at h
        dsimp only at h ⊢
        split at h
        · cases h
        · rename_i hboth
          have hresolved := resolveAll_pair_ok
            (x := (subject, inferSingleType subject (some p.domain) predicate))
            (y := (object, inferSingleType object (some p.range) predicate)) hboth
          split at h
          · cases h
          · cases h
            exact hresolved
  | assertTyped args subject predicate object => exact resolved_assertTypedWithDoc h
  | assertTypedFrom args memoryId subject predicate object =>
    unfold AssertingBrain.outcome AssertingBrain.assertTypedFrom AssertingBrain.memoryDocId at h
    unfold FiledBrain.call AssertingBrain.mentions AssertCall.ends
    dsimp only at h ⊢
    cases hmemory : s.brain.memories.getMemory memoryId with
    | none =>
      rw [hmemory] at h
      cases h
    | some memory =>
      rw [hmemory] at h
      have hresolved := resolved_assertTypedWithDoc h
      cases hread : s.brain.readOnly with
      | true =>
        rw [hread] at hresolved
        exact hresolved
      | false =>
        rw [hread] at hresolved
        exact hresolved

/-- **One call.** -/
theorem Remembers.call {created : List OntologyEntity} (h : s.Remembers env lib created)
    (c : AssertCall ι) (hsteady : s.SteadyCall env lib c) :
    ∃ created', (s.call env lib clock c).Remembers env lib created' := by
  obtain ⟨created', h'⟩ := h.resolveAll _ _ hsteady
  have hsame := sameEntities_outcome env lib s clock c
  exact ⟨created', h'.of_brain hsame.ontology hsame.entityPolicy hsame.runtimeEntities⟩

/-- A brain that was opened on a file. -/
def opened (o : PredicateOntology) (entityPolicy : EntityPolicy) (readOnly : Bool)
    (brainId : Bytes32) (memories : Store) : FiledBrain ι :=
  { brain := .opened o entityPolicy readOnly brainId memories, file := .ofOntology o }

omit [LinearOrder ι] in
theorem remembers_opened (o : PredicateOntology) (entityPolicy : EntityPolicy) (readOnly : Bool)
    (brainId : Bytes32) (memories : Store) :
    (opened o entityPolicy readOnly brainId memories : FiledBrain ι).Remembers env lib [] where
  entities := (List.append_nil _).symm
  valid := OntologyFile.valid_of_fromToml (OntologyFile.fromToml_eq_ok_iff.2 rfl)
  grown := nofun
  unknown := nofun
  apart := List.Pairwise.nil
  learned := nofun
  kept := nofun
  ids := nofun

/-! ## After a restart -/

omit [LinearOrder ι] in
/-- A brain that is opened with the ontology of the file resolves what was resolved. -/
theorem Remembers.resolveWith_reopened {created : List OntologyEntity}
    (h : s.Remembers env lib created) {o : PredicateOntology} (hload : s.file.fromToml = .ok o)
    (y : String × MatchedMention) (hy : y ∈ s.resolved) (args : AssertArgs ι)
    (newType : Except AssertError String) :
    ∃ m, ((s.brain.reopened o).resolveWith env lib args y.1 newType).2 = .ok m ∧
      m.entityId = y.2.entityId ∧ m.key = y.2.key := by
  have hentities : s.file.entities = o.entities := by
    rw [OntologyFile.fromToml_eq_ok_iff.1 hload]
    rfl
  have hlookup : ∀ name, ((s.brain.reopened o).lookup env lib name).map MatchedMention.key =
      (lib.resolveIn s.file.entities name).map OntologyEntity.key := fun name => by
    rw [AssertingBrain.lookup_map_key, hentities]
    exact congrArg _ (Option.or_none)
  have hfound : ((s.brain.reopened o).found env lib y.1).map MatchedMention.key = some y.2.key := by
    rw [← h.kept y hy]
    unfold AssertingBrain.found TextLibrary.foundIn
    rw [Option.map_or, Option.map_or, hlookup, hlookup]
    rfl
  obtain ⟨m, hm, hkey⟩ := Option.map_eq_some_iff.1 hfound
  have hresolved := AssertingBrain.resolveWith_of_found hm args newType
  have hid := ((AssertingBrain.resolveWith_spec env lib args (s.brain.reopened o) y.1 newType).2 m
    hresolved).2
  refine ⟨m, hresolved, ?_, hkey⟩
  rw [hid, h.ids y hy]
  obtain ⟨htype, hcanonical⟩ := Prod.mk.inj hkey
  rw [htype, hcanonical]

/-- **Every run.**  A brain is opened on a file, calls are made, and the brain is opened again on
the file as it is by then: if the calls' mentions were such that they keep their entities, each one
that was resolved, to one that was created or to one of the ontology, resolves to it again. -/
theorem resolves_after_reopening (env : Env) (lib : TextLibrary) (clock : Clock ι)
    (file : OntologyFile) (o : PredicateOntology) (hload : file.fromToml = .ok o)
    (entityPolicy : EntityPolicy) (readOnly : Bool) (brainId : Bytes32) (memories : Store)
    (calls : List (AssertCall ι))
    (hsteady : AllSteps (call env lib clock) (SteadyCall env lib)
      { brain := .opened o entityPolicy readOnly brainId memories, file } calls) (n : ℕ) :
    ∃ o', (run (call env lib clock)
        { brain := .opened o entityPolicy readOnly brainId memories, file }
        (calls.take n)).file.fromToml = .ok o' ∧
      ∀ y ∈ (run (call env lib clock)
          { brain := .opened o entityPolicy readOnly brainId memories, file }
          (calls.take n)).resolved,
        ∀ (args : AssertArgs ι) (newType : Except AssertError String),
          ∃ m, (((run (call env lib clock)
              { brain := .opened o entityPolicy readOnly brainId memories, file }
              (calls.take n)).brain.reopened o').resolveWith env lib args y.1 newType).2 = .ok m ∧
            m.entityId = y.2.entityId ∧ m.key = y.2.key := by
  obtain rfl := OntologyFile.fromToml_eq_ok_iff.1 hload
  rw [← List.take_append_drop n calls, allSteps_append] at hsteady
  obtain ⟨created, hremembers⟩ := run_invariant_of_allSteps
    (I := fun s : FiledBrain ι => ∃ created, s.Remembers env lib created)
    (fun _ c ⟨_, h⟩ hc => h.call c hc)
    ⟨[], remembers_opened o entityPolicy readOnly brainId memories⟩ hsteady.1
  obtain ⟨o', ho'⟩ := hremembers.valid.exists_fromToml
  exact ⟨o', ho', hremembers.resolveWith_reopened ho'⟩

end FiledBrain

/-! ## Names that are too close -/

/-- Anna Meyer, and who knows whom. -/
def meyerOntology : PredicateOntology where
  entities := [{ entityType := "person", canonical := "anna meyer", visibility := .priv }]
  named := by decide
  canonicalsPerType := by decide
  predicates := [{ name := "knows", domain := ["person"], range := ["person"] }]
  predicateNames := by decide
  knownTypes := by decide

/-- How close the names are that are written alike. -/
def meyerLibrary : TextLibrary where
  toLowercase s := if s = "Dr Bob" then "dr bob" else s
  isAlphanumeric := Char.isAlphanum
  isWhitespace := Char.isWhitespace
  normalizedDamerauLevenshtein a b :=
    if a = b then 1
    else if a = "anna meier" ∧ b = "anna meyer" then 9 / 10
    else if a = "anna meier" ∧ b = "anna meiers" then 10 / 11
    else if a = "anna meiers" ∧ b = "anna meyer" then 9 / 11
    else 0

/-- A canonicaliser that takes one title off. -/
def withoutTitle (s : String) : String := if s = "Dr Bob" then "bob" else s

/-- Bob is introduced with his title and without. -/
def bobIntroduced : List (AssertCall (Fin 5)) :=
  [.assertTyped { now := day 0 } ("person", "bob") "knows" ("person", "anna meier"),
    .assertTyped { now := day 1 } ("person", "Dr Bob") "knows" ("person", "anna meyer")]

theorem resolves_after_reopening_bob :
    ∃ o', (run (FiledBrain.call workEnv meyerLibrary newYear)
        { brain := .opened meyerOntology (.autoCreateWithCanonicalizer withoutTitle) false
            (Env.bytesOf 32 0) {}, file := .ofOntology meyerOntology }
        (bobIntroduced.take 2)).file.fromToml = .ok o' ∧
      ∀ y ∈ (run (FiledBrain.call workEnv meyerLibrary newYear)
          { brain := .opened meyerOntology (.autoCreateWithCanonicalizer withoutTitle) false
              (Env.bytesOf 32 0) {}, file := .ofOntology meyerOntology }
          (bobIntroduced.take 2)).resolved,
        ∀ (args : AssertArgs (Fin 5)) (newType : Except AssertError String),
          ∃ m, (((run (FiledBrain.call workEnv meyerLibrary newYear)
              { brain := .opened meyerOntology (.autoCreateWithCanonicalizer withoutTitle) false
                  (Env.bytesOf 32 0) {}, file := .ofOntology meyerOntology }
              (bobIntroduced.take 2)).brain.reopened o').resolveWith workEnv meyerLibrary args y.1
                newType).2 = .ok m ∧ m.entityId = y.2.entityId ∧ m.key = y.2.key := by
  have hsteady : AllSteps (FiledBrain.call workEnv meyerLibrary newYear)
      (FiledBrain.SteadyCall workEnv meyerLibrary)
      { brain := .opened meyerOntology (.autoCreateWithCanonicalizer withoutTitle) false
          (Env.bytesOf 32 0) {}, file := .ofOntology meyerOntology } bobIntroduced := by
    decide +kernel
  exact FiledBrain.resolves_after_reopening workEnv meyerLibrary newYear (.ofOntology meyerOntology)
    meyerOntology (OntologyFile.fromToml_eq_ok_iff.2 rfl) (.autoCreateWithCanonicalizer withoutTitle)
    false (Env.bytesOf 32 0) {} bobIntroduced hsteady 2

/-- The brain before the calls. -/
def meyerBrain (entityPolicy : EntityPolicy) : FiledBrain (Fin 5) where
  brain := .opened meyerOntology entityPolicy false (Env.bytesOf 32 0) {}
  file := .ofOntology meyerOntology

/-- Anna Meier is close to Anna Meyer, and knows a new Anna Meiers. -/
def meierKnowsMeiers : FiledBrain (Fin 5) :=
  (meyerBrain .autoCreate).call workEnv meyerLibrary newYear
    (.assertTyped { now := day 0 } ("person", "anna meier") "knows" ("person", "anna meiers"))

/-- Bob, then Dr Bob, and in the end dr bob, which is known by the alias only. -/
def bobWithoutCase : FiledBrain (Fin 5) :=
  run (FiledBrain.call workEnv meyerLibrary newYear)
    (meyerBrain (.autoCreateWithCanonicalizer withoutTitle))
    [.assertTyped { now := day 0 } ("person", "bob") "knows" ("person", "Dr Bob"),
      .assertTyped { now := day 1 } ("person", "dr bob") "knows" ("person", "bob")]

/-- After a restart Anna Meier is Anna Meiers, and dr bob is a new person. -/
theorem resolved_otherwise_after_reopening :
    (meierKnowsMeiers.resolved.map fun y => (y.1, y.2.canonical)) =
        [("anna meier", "anna meyer"), ("anna meiers", "anna meiers")] ∧
      (meierKnowsMeiers.file.fromToml.toOption.bind fun o =>
        ((meierKnowsMeiers.brain.reopened o).found workEnv meyerLibrary "anna meier").map
          MatchedMention.canonical) = some "anna meiers" ∧
      (bobWithoutCase.resolved.map fun y => (y.1, y.2.canonical)) =
        [("bob", "bob"), ("Dr Bob", "bob"), ("dr bob", "bob"), ("bob", "bob")] ∧
      (bobWithoutCase.file.fromToml.toOption.map fun o =>
        ((bobWithoutCase.brain.reopened o).found workEnv meyerLibrary "dr bob").map
          MatchedMention.canonical) = some none := by
  decide +kernel

end Spectral
