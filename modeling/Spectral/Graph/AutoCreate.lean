import Spectral.Lib.Threads
import Spectral.Graph.OntologyFile

/-!
# Entities that calls create

Under two of the policies an assertion creates the entities it does not know: it looks the mention
up, writes an entity to the ontology file, and adds it to the list of those that were created.
Only the writing holds the lock of the file, so calls can come between each other's steps.

* `Resolving.advance` — a step of a call; `iterate_advance_resolveWith` says what a call does that
  nobody comes between.
* `Asserting` — a brain, its file and the calls under way, in any order of steps.
* `fromToml_of_orderly` — the file is accepted in every state that is reached, as long as nothing
  without a name is created, and nothing that another call is creating.

The triple a call writes in the end is left out: it touches neither the file nor the entities.
-/

namespace Spectral

open Spectral.Lib

variable {ι : Type}

/-- The entity that `auto_create_entity` writes. -/
def AssertArgs.newEntity (args : AssertArgs ι) (canonical mention entityType : String) :
    OntologyEntity :=
  { entityType, canonical, aliases := if mention ≠ canonical then [mention] else []
    visibility := args.visibility }

theorem AssertingBrain.autoCreateEntity_eq (env : Env) (b : AssertingBrain ι) (args : AssertArgs ι)
    (canonical mention entityType : String) :
    b.autoCreateEntity env args canonical mention entityType =
      match args.file (args.newEntity canonical mention entityType) with
      | some e => (b, .error e)
      | none =>
        ({ b with runtimeEntities :=
            b.runtimeEntities ++ [args.newEntity canonical mention entityType] },
          .ok (env.matched mention (args.newEntity canonical mention entityType) .exact)) := rfl

/-- Where a call is with the mention that it resolves. -/
inductive ResolvePhase where
  /-- The mention is looked up. -/
  | mention
  /-- What the canonicaliser makes of it is looked up. -/
  | canonical (name : String)
  /-- It was found under that name, and becomes an alias. -/
  | learn (found : MatchedMention)
  /-- An entity is written to the file. -/
  | append (entity : OntologyEntity)
  /-- The entity that was written is added to those that were created. -/
  | push (entity : OntologyEntity)

/-- The entity that is written next. -/
def ResolvePhase.appending : ResolvePhase → Option OntologyEntity
  | .append entity => some entity
  | _ => none

/-- The entity that was written and is not yet among those that were created. -/
def ResolvePhase.pushing : ResolvePhase → Option OntologyEntity
  | .push entity => some entity
  | _ => none

/-- A call under way. -/
structure Resolving (ι : Type) where
  args : AssertArgs ι
  /-- The mentions that are left, each with the type it gets if it has to be created. -/
  mentions : List (String × Except AssertError String)
  phase : ResolvePhase := .mention

namespace Resolving

/-- The mention is resolved. -/
def resolved (c : Resolving ι) : Resolving ι :=
  { c with mentions := c.mentions.tail, phase := .mention }

/-- The call has failed. -/
def failed (c : Resolving ι) : Resolving ι := { c with mentions := [], phase := .mention }

/-- An entity has to be created. -/
def creates (c : Resolving ι) (canonical mention : String) (newType : Except AssertError String) :
    Resolving ι :=
  match newType with
  | .error _ => c.failed
  | .ok entityType => { c with phase := .append (c.args.newEntity canonical mention entityType) }

variable (env : Env) (lib : TextLibrary)

/-- One step of `resolve_or_create` or `resolve_or_create_typed`: nothing comes between what a
step reads and what it writes. -/
def advance (b : AssertingBrain ι) (file : OntologyFile) (c : Resolving ι) :
    AssertingBrain ι × OntologyFile × Resolving ι :=
  match c.mentions with
  | [] => (b, file, c)
  | (mention, newType) :: _ =>
    match c.phase with
    | .mention =>
      match b.lookup env lib mention with
      | some _ => (b, file, c.resolved)
      | none =>
        match b.entityPolicy with
        | .strict => (b, file, c.failed)
        | .autoCreate => (b, file, c.creates mention mention newType)
        | .autoCreateWithCanonicalizer f => (b, file, { c with phase := .canonical (f mention) })
    | .canonical name =>
      match b.lookup env lib name with
      | some m => (b, file, { c with phase := .learn m })
      | none => (b, file, c.creates name mention newType)
    | .learn m => (b.ensureAlias m.canonical m.entityType mention, file, c.resolved)
    | .append entity =>
      match c.args.file entity with
      | some _ => (b, file, c.failed)
      | none => (b, file.appendEntity entity, { c with phase := .push entity })
    | .push entity =>
      ({ b with runtimeEntities := b.runtimeEntities ++ [entity] }, file, c.resolved)

/-- The entity that a call starts to create with its next step. -/
def starting (b : AssertingBrain ι) (c : Resolving ι) : Option OntologyEntity :=
  match c.mentions with
  | [] => none
  | (mention, newType) :: _ =>
    match c.phase with
    | .mention =>
      match b.lookup env lib mention, b.entityPolicy with
      | none, .autoCreate => newType.toOption.map (c.args.newEntity mention mention)
      | _, _ => none
    | .canonical name =>
      match b.lookup env lib name with
      | none => newType.toOption.map (c.args.newEntity name mention)
      | some _ => none
    | _ => none

/-- The key of the entity that a call is creating: it starts with the lookup that finds nothing,
and ends when the entity is among those that were created. -/
def creating (c : Resolving ι) : Option (String × String) :=
  (c.phase.appending.or c.phase.pushing).map OntologyEntity.key

end Resolving

/-- The mentions a call resolves; none, if it is refused before. -/
def AssertingBrain.mentions (b : AssertingBrain ι) : AssertCall ι → Resolving ι
  | .assert args subject predicate object =>
    { args
      mentions :=
        match b.readOnly, b.declared predicate with
        | false, some p =>
          [(subject, inferSingleType subject (some p.domain) predicate),
            (object, inferSingleType object (some p.range) predicate)]
        | _, _ => [] }
  | .assertTyped args subject _ object =>
    { args, mentions := if b.readOnly then [] else [(subject.2, .ok subject.1), (object.2, .ok object.1)] }
  | .assertTypedFrom args memoryId subject _ object =>
    { args
      mentions :=
        match b.memories.getMemory memoryId, b.readOnly with
        | some _, false => [(subject.2, .ok subject.1), (object.2, .ok object.1)]
        | _, _ => [] }

/-- A brain, the file of its ontology, and the calls under way. -/
structure Asserting (ι : Type) where
  brain : AssertingBrain ι
  file : OntologyFile
  calls : List (Resolving ι) := []

/-- A call is made, or one goes on. -/
inductive AssertStep (ι : Type) where
  | call (c : AssertCall ι)
  | advance (i : ℕ)

namespace Asserting

variable (env : Env) (lib : TextLibrary)

/-- One step. -/
def step (s : Asserting ι) : AssertStep ι → Asserting ι
  | .call c => { s with calls := s.calls ++ [s.brain.mentions c] }
  | .advance i =>
    match s.calls[i]? with
    | none => s
    | some c =>
      let (brain, file, c') := c.advance env lib s.brain s.file
      { brain, file, calls := s.calls.modify i fun _ => c' }

/-- What is created has a type and a name, and no other call is creating it. -/
def Orderly (s : Asserting ι) : AssertStep ι → Prop
  | .call _ => True
  | .advance i =>
    ∀ c ∈ s.calls[i]?, ∀ e ∈ c.starting env lib s.brain,
      (e.entityType ≠ "" ∧ e.canonical ≠ "") ∧
        ∀ c' ∈ s.calls.eraseIdx i, c'.creating ≠ some e.key

instance (s : Asserting ι) : (a : AssertStep ι) → Decidable (s.Orderly env lib a)
  | .call _ => inferInstanceAs (Decidable True)
  | .advance i => inferInstanceAs (Decidable
      (∀ c ∈ s.calls[i]?, ∀ e ∈ c.starting env lib s.brain,
        (e.entityType ≠ "" ∧ e.canonical ≠ "") ∧
          ∀ c' ∈ s.calls.eraseIdx i, c'.creating ≠ some e.key))

end Asserting

/-! ## What a step can do -/

namespace Resolving

/-- What a step of a call makes of the brain, of the file and of the call. -/
inductive Advances (env : Env) (lib : TextLibrary) (b : AssertingBrain ι) (file : OntologyFile)
    (c : Resolving ι) : AssertingBrain ι → OntologyFile → Resolving ι → Prop where
  /-- There is nothing left to do. -/
  | done : Advances env lib b file c b file c
  /-- A mention is looked up, or the file cannot be written. -/
  | quiet {c'} (hwas : c.phase.pushing = none) (hnow : c'.phase.appending = none)
      (hnow' : c'.phase.pushing = none) : Advances env lib b file c b file c'
  | starts {c' entity} (hwas : c.phase.pushing = none)
      (hstart : c.starting env lib b = some entity) (hnow : c'.phase = .append entity)
      (hmissing : b.lookup env lib entity.canonical = none) : Advances env lib b file c b file c'
  | learn {c'} (canonical entityType name : String) (hwas : c.phase.pushing = none)
      (hnow : c'.phase = .mention) :
      Advances env lib b file c (b.ensureAlias canonical entityType name) file c'
  | append {c' entity} (hwas : c.phase = .append entity) (hnow : c'.phase = .push entity) :
      Advances env lib b file c b (file.appendEntity entity) c'
  | push {c' entity} (hwas : c.phase = .push entity) (hnow : c'.phase = .mention) :
      Advances env lib b file c { b with runtimeEntities := b.runtimeEntities ++ [entity] } file c'

variable {env : Env} {lib : TextLibrary} {b : AssertingBrain ι} {file : OntologyFile}
  {c : Resolving ι}

/-- A lookup that finds nothing and leads to a new entity. -/
theorem advances_creates {canonical mention : String} {newType : Except AssertError String}
    (hwas : c.phase.pushing = none)
    (hstart : c.starting env lib b = newType.toOption.map (c.args.newEntity canonical mention))
    (hmissing : b.lookup env lib canonical = none) :
    Advances env lib b file c b file (c.creates canonical mention newType) := by
  cases newType with
  | error e => exact .quiet hwas rfl rfl
  | ok entityType => exact .starts hwas hstart rfl hmissing

/-- **Every step.** -/
theorem advances (env : Env) (lib : TextLibrary) (b : AssertingBrain ι) (file : OntologyFile)
    (c : Resolving ι) :
    Advances env lib b file c (c.advance env lib b file).1 (c.advance env lib b file).2.1
      (c.advance env lib b file).2.2 := by
  obtain ⟨args, mentions, phase⟩ := c
  cases mentions with
  | nil => exact .done
  | cons first rest =>
    obtain ⟨mention, newType⟩ := first
    cases phase with
    | mention =>
      unfold advance
      dsimp only
      split
      · exact .quiet rfl rfl rfl
      · rename_i hmissing
        split
        · exact .quiet rfl rfl rfl
        · rename_i hpolicy
          refine advances_creates rfl ?_ hmissing
          simp only [starting, hmissing, hpolicy]
        · exact .quiet rfl rfl rfl
    | canonical name =>
      unfold advance
      dsimp only
      split
      · exact .quiet rfl rfl rfl
      · rename_i hmissing
        refine advances_creates rfl ?_ hmissing
        simp only [starting, hmissing]
    | learn found => exact .learn _ _ _ rfl rfl
    | append entity =>
      unfold advance
      dsimp only
      split
      · exact .quiet rfl rfl rfl
      · exact .append rfl rfl
    | push entity => exact .push rfl rfl

end Resolving

/-! ## Names that are not found -/

theorem TextLibrary.isNamed_canonical (lib : TextLibrary) (e : OntologyEntity) :
    lib.isNamed e.canonical e = true := by
  simp [TextLibrary.isNamed]

namespace AssertingBrain

variable {env : Env} {lib : TextLibrary} {b : AssertingBrain ι}

/-- A name that is not found is no entity's name. -/
theorem isNamed_of_lookup_eq_none {name : String} (h : b.lookup env lib name = none) :
    ∀ e ∈ b.ontology.entities ++ b.runtimeEntities, lib.isNamed name e = false := by
  obtain ⟨hontology, hruntime⟩ := Option.or_eq_none_iff.1 h
  intro e he
  rcases List.mem_append.1 he with he | he
  · unfold TextLibrary.resolveOne at hontology
    split at hontology
    · cases hontology
    · rename_i hnone
      simpa using List.find?_eq_none.1 hnone e he
  · unfold resolveFromRuntime at hruntime
    simpa using List.find?_eq_none.1 (Option.map_eq_none_iff.1 hruntime) e he

/-- An entity whose canonical name is not found has a key that no entity has. -/
theorem key_notMem_of_lookup_eq_none {entity : OntologyEntity}
    (h : b.lookup env lib entity.canonical = none) :
    entity.key ∉ (b.ontology.entities ++ b.runtimeEntities).map OntologyEntity.key := by
  intro hmem
  obtain ⟨e, he, hkey⟩ := List.mem_map.1 hmem
  have hcanonical : e.canonical = entity.canonical := congrArg Prod.snd hkey
  have hnot := isNamed_of_lookup_eq_none h e he
  rw [← hcanonical, lib.isNamed_canonical] at hnot
  cases hnot

theorem key_withAlias (e : OntologyEntity) (name : String) : (e.withAlias name).key = e.key := by
  unfold OntologyEntity.withAlias
  split <;> rfl

/-- An alias changes no key. -/
theorem map_key_ensureAlias (b : AssertingBrain ι) (canonical entityType name : String) :
    (b.ensureAlias canonical entityType name).runtimeEntities.map OntologyEntity.key =
      b.runtimeEntities.map OntologyEntity.key := by
  unfold ensureAlias
  dsimp only
  split
  · exact map_modify_of_eq fun e => key_withAlias e name
  · rfl

end AssertingBrain

/-! ## The file is accepted all along -/

namespace Resolving

/-- Two calls do not create the same entity. -/
def Apart (c c' : Resolving ι) : Prop := ∀ k, c.creating = some k → c'.creating ≠ some k

theorem Apart.symm (c c' : Resolving ι) (h : c.Apart c') : c'.Apart c :=
  fun k hk hk' => h k hk' hk

end Resolving

namespace Asserting

/-- The file keeps the rules; what it has that no lookup finds is about to be added by the call
that wrote it; what a call is about to write it does not have. -/
structure Loadable (s : Asserting ι) : Prop where
  valid : s.file.Valid
  covered : ∀ e ∈ s.file.entities,
    e.key ∈ (s.brain.ontology.entities ++ s.brain.runtimeEntities).map OntologyEntity.key ∨
      ∃ c ∈ s.calls, c.phase.pushing.map OntologyEntity.key = some e.key
  fresh : ∀ c ∈ s.calls, ∀ e ∈ c.phase.appending,
    (e.entityType ≠ "" ∧ e.canonical ≠ "") ∧ e.key ∉ s.file.entities.map OntologyEntity.key
  apart : s.calls.Pairwise Resolving.Apart

variable {env : Env} {lib : TextLibrary} {s : Asserting ι} {i : ℕ} {c : Resolving ι}

/-- A key that a lookup finds, or another call is about to add. -/
theorem Loadable.covered_modify (h : s.Loadable) (hi : s.calls[i]? = some c) {c' : Resolving ι}
    (hwas : c.phase.pushing = none) : ∀ e ∈ s.file.entities,
    e.key ∈ (s.brain.ontology.entities ++ s.brain.runtimeEntities).map OntologyEntity.key ∨
      ∃ x ∈ s.calls.modify i fun _ => c', x.phase.pushing.map OntologyEntity.key = some e.key := by
  intro e he
  refine (h.covered e he).imp_right fun hpushing => (exists_mem_modify_iff hi).2 ?_
  refine ((exists_mem_iff_at hi).1 hpushing).imp_left fun hc => ?_
  rw [hwas] at hc
  cases hc

theorem apart_modify (h : s.calls.Pairwise Resolving.Apart) {c' : Resolving ι}
    (hc' : ∀ x ∈ s.calls.eraseIdx i, c'.Apart x) :
    (s.calls.modify i fun _ => c').Pairwise Resolving.Apart :=
  pairwise_modify Resolving.Apart.symm h fun _ _ => hc'

theorem apart_of_creating_eq_none {c' x : Resolving ι} (h : c'.creating = none) : c'.Apart x := by
  intro k hk
  rw [h] at hk
  cases hk

/-- A call that is about to write nothing. -/
theorem Loadable.quiet (h : s.Loadable) (hi : s.calls[i]? = some c) {c' : Resolving ι}
    (hwas : c.phase.pushing = none) (hnow : c'.phase.appending = none)
    (hcreating : c'.creating = none) :
    Loadable { s with calls := s.calls.modify i fun _ => c' } := by
  refine ⟨h.valid, h.covered_modify hi hwas, ?_, apart_modify h.apart fun x _ =>
    apart_of_creating_eq_none hcreating⟩
  refine forall_mem_modify h.fresh fun _ _ e he => ?_
  rw [hnow] at he
  cases he

/-- What no lookup finds and no other call is about to add is not in the file. -/
theorem Loadable.notMem_file (h : s.Loadable) (hi : s.calls[i]? = some c) {entity : OntologyEntity}
    (hwas : c.phase.pushing = none) (hmissing : s.brain.lookup env lib entity.canonical = none)
    (hothers : ∀ x ∈ s.calls.eraseIdx i, x.creating ≠ some entity.key) :
    entity.key ∉ s.file.entities.map OntologyEntity.key := by
  intro hmem
  obtain ⟨e, he, hkey⟩ := List.mem_map.1 hmem
  rcases h.covered e he with hknown | hpushing
  · rw [hkey] at hknown
    exact AssertingBrain.key_notMem_of_lookup_eq_none hmissing hknown
  · rcases (exists_mem_iff_at hi).1 hpushing with hc | ⟨x, hx, hpush⟩
    · rw [hwas] at hc
      cases hc
    · refine hothers x hx ?_
      obtain ⟨a, ha, hak⟩ := Option.map_eq_some_iff.1 hpush
      unfold Resolving.creating
      cases hphase : x.phase <;> simp_all [ResolvePhase.pushing, ResolvePhase.appending]

/-- A call that starts to create an entity, which no other call is creating. -/
theorem Loadable.starts (h : s.Loadable) (hi : s.calls[i]? = some c) {c' : Resolving ι}
    {entity : OntologyEntity} (hwas : c.phase.pushing = none) (hnow : c'.phase = .append entity)
    (hmissing : s.brain.lookup env lib entity.canonical = none)
    (hnamed : entity.entityType ≠ "" ∧ entity.canonical ≠ "")
    (hothers : ∀ x ∈ s.calls.eraseIdx i, x.creating ≠ some entity.key) :
    Loadable { s with calls := s.calls.modify i fun _ => c' } := by
  have hcreating : c'.creating = some entity.key := by
    simp [Resolving.creating, hnow, ResolvePhase.appending]
  refine ⟨h.valid, h.covered_modify hi hwas, ?_, apart_modify h.apart fun x hx k hk => ?_⟩
  · refine forall_mem_modify h.fresh fun _ _ e he => ?_
    rw [hnow] at he
    cases he
    exact ⟨hnamed, h.notMem_file hi hwas hmissing hothers⟩
  · rw [hcreating] at hk
    cases hk
    exact hothers x hx

/-- A call that learns an alias, which is no new key. -/
theorem Loadable.learn (h : s.Loadable) (hi : s.calls[i]? = some c) {c' : Resolving ι}
    (hwas : c.phase.pushing = none) (hnow : c'.phase = .mention)
    (canonical entityType name : String) :
    Loadable { s with
      brain := s.brain.ensureAlias canonical entityType name
      calls := s.calls.modify i fun _ => c' } := by
  have hcalls : Loadable { s with calls := s.calls.modify i fun _ => c' } := h.quiet hi hwas
    (by rw [hnow]; rfl)
    (by simp [Resolving.creating, hnow, ResolvePhase.appending, ResolvePhase.pushing])
  refine ⟨hcalls.valid, fun e he => ?_, hcalls.fresh, hcalls.apart⟩
  refine (hcalls.covered e he).imp_left fun hknown => ?_
  rw [List.map_append, AssertingBrain.map_key_ensureAlias, ← List.map_append]
  exact hknown

/-- A call that writes its entity to the file. -/
theorem Loadable.append (h : s.Loadable) (hi : s.calls[i]? = some c) {c' : Resolving ι}
    {entity : OntologyEntity} (hwas : c.phase = .append entity) (hnow : c'.phase = .push entity) :
    Loadable { s with
      file := s.file.appendEntity entity, calls := s.calls.modify i fun _ => c' } := by
  have hcreating : c.creating = some entity.key := by
    simp [Resolving.creating, hwas, ResolvePhase.appending]
  have hcreating' : c'.creating = some entity.key := by
    simp [Resolving.creating, hnow, ResolvePhase.appending, ResolvePhase.pushing]
  have hapart := rel_of_pairwise Resolving.Apart.symm h.apart hi
  obtain ⟨hnamed, hnew⟩ := h.fresh c (List.mem_of_getElem? hi) entity (by rw [hwas]; rfl)
  refine ⟨h.valid.appendEntity hnamed hnew, ?_, ?_, apart_modify h.apart fun x hx k hk => ?_⟩
  · intro e he
    rcases List.mem_append.1 he with he | he
    · exact h.covered_modify hi (by rw [hwas]; rfl) e he
    · refine Or.inr ((exists_mem_modify_iff hi).2 (Or.inl ?_))
      rw [hnow, List.mem_singleton.1 he]
      rfl
  · refine (forall_mem_modify_iff hi).2 ⟨fun e he => ?_, fun x hx e he => ?_⟩
    · rw [hnow] at he
      cases he
    · obtain ⟨hnamed', hnew'⟩ := h.fresh x (List.mem_of_mem_eraseIdx hx) e he
      refine ⟨hnamed', fun hmem => ?_⟩
      have hx' : x.creating = some e.key := by
        simp [Resolving.creating, Option.mem_def.1 he]
      have hsplit : e.key ∈ s.file.entities.map OntologyEntity.key ++ [entity.key] := by
        simpa [OntologyFile.appendEntity] using hmem
      rcases List.mem_append.1 hsplit with hmem | hmem
      · exact hnew' hmem
      · rw [List.mem_singleton.1 hmem] at hx'
        exact hapart x hx _ hcreating hx'
  · exact hapart x hx k (hcreating.trans (hcreating'.symm.trans hk))

/-- A call that adds its entity to those the lookups go through. -/
theorem Loadable.push (h : s.Loadable) (hi : s.calls[i]? = some c) {c' : Resolving ι}
    {entity : OntologyEntity} (hwas : c.phase = .push entity) (hnow : c'.phase = .mention) :
    Loadable { s with
      brain := { s.brain with runtimeEntities := s.brain.runtimeEntities ++ [entity] }
      calls := s.calls.modify i fun _ => c' } := by
  refine ⟨h.valid, ?_, ?_, apart_modify h.apart fun x _ => ?_⟩
  · intro e he
    dsimp only
    rw [← List.append_assoc, List.map_append, List.mem_append]
    rcases h.covered e he with hknown | hpushing
    · exact Or.inl (Or.inl hknown)
    · rcases (exists_mem_iff_at hi).1 hpushing with hc | hothers
      · rw [hwas] at hc
        exact Or.inl (Or.inr (List.mem_singleton.2 (Option.some.inj hc).symm))
      · exact Or.inr ((exists_mem_modify_iff hi).2 (Or.inr hothers))
  · refine forall_mem_modify h.fresh fun _ _ e he => ?_
    rw [hnow] at he
    cases he
  · exact apart_of_creating_eq_none (by simp [Resolving.creating, hnow, ResolvePhase.appending,
      ResolvePhase.pushing])

/-- **A step of a call.** -/
theorem Loadable.advances (h : s.Loadable) (hi : s.calls[i]? = some c)
    {brain : AssertingBrain ι} {file : OntologyFile} {c' : Resolving ι}
    (hstep : Resolving.Advances env lib s.brain s.file c brain file c')
    (horderly : ∀ e ∈ c.starting env lib s.brain, (e.entityType ≠ "" ∧ e.canonical ≠ "") ∧
      ∀ x ∈ s.calls.eraseIdx i, x.creating ≠ some e.key) :
    Loadable { brain, file, calls := s.calls.modify i fun _ => c' } := by
  cases hstep with
  | done =>
    rw [modify_const_of_getElem? hi]
    exact h
  | quiet hwas hnow hnow' =>
    exact h.quiet hi hwas hnow (by simp [Resolving.creating, hnow, hnow'])
  | @starts _ entity hwas hstart hnow hmissing =>
    obtain ⟨hnamed, hothers⟩ := horderly entity hstart
    exact h.starts hi hwas hnow hmissing hnamed hothers
  | learn canonical entityType name hwas hnow =>
    exact h.learn hi hwas hnow canonical entityType name
  | append hwas hnow => exact h.append hi hwas hnow
  | push hwas hnow => exact h.push hi hwas hnow

theorem mentions_phase (b : AssertingBrain ι) (c : AssertCall ι) : (b.mentions c).phase = .mention := by
  cases c <;> rfl

/-- **One step.** -/
theorem Loadable.step (h : s.Loadable) (a : AssertStep ι) (horderly : s.Orderly env lib a) :
    (s.step env lib a).Loadable := by
  cases a with
  | call c =>
    have hphase := mentions_phase s.brain c
    have hquiet : (s.brain.mentions c).creating = none := by
      simp [Resolving.creating, hphase, ResolvePhase.appending, ResolvePhase.pushing]
    refine ⟨h.valid, ?_, ?_, ?_⟩
    · intro e he
      exact (h.covered e he).imp_right fun ⟨x, hx, hpush⟩ => ⟨x, List.mem_append_left _ hx, hpush⟩
    · intro x hx
      rcases List.mem_append.1 hx with hx | hx
      · exact h.fresh x hx
      · rw [List.mem_singleton.1 hx, hphase]
        exact nofun
    · refine List.pairwise_append.2 ⟨h.apart, List.pairwise_singleton _ _, fun x _ y hy => ?_⟩
      rw [List.mem_singleton.1 hy]
      exact Resolving.Apart.symm _ _ (apart_of_creating_eq_none hquiet)
  | advance i =>
    unfold Asserting.step
    dsimp only
    split
    · exact h
    · rename_i c hi
      exact h.advances hi (Resolving.advances env lib s.brain s.file c) (horderly c hi)

/-- A brain that was opened. -/
def opened (o : PredicateOntology) (entityPolicy : EntityPolicy) (readOnly : Bool)
    (brainId : Bytes32) (memories : Store) : Asserting ι :=
  { brain := .opened o entityPolicy readOnly brainId memories, file := .ofOntology o }

theorem loadable_opened (o : PredicateOntology) (entityPolicy : EntityPolicy) (readOnly : Bool)
    (brainId : Bytes32) (memories : Store) :
    (opened o entityPolicy readOnly brainId memories : Asserting ι).Loadable where
  valid := OntologyFile.valid_of_fromToml (OntologyFile.fromToml_eq_ok_iff.2 rfl)
  covered := by
    intro e he
    exact Or.inl (List.mem_map_of_mem (List.mem_append_left _ he))
  fresh := nofun
  apart := List.Pairwise.nil

/-- **Every order of steps.**  A brain is opened on a file, under any policy, and any calls are
made, each with its steps between those of the others: if what is created has a type and a name,
and is not being created by another call, the file is accepted in every state. -/
theorem fromToml_of_orderly (env : Env) (lib : TextLibrary) (file : OntologyFile)
    (o : PredicateOntology) (hload : file.fromToml = .ok o) (entityPolicy : EntityPolicy)
    (readOnly : Bool) (brainId : Bytes32) (memories : Store) (steps : List (AssertStep ι))
    (horderly : AllSteps (step env lib) (Orderly env lib)
      { brain := .opened o entityPolicy readOnly brainId memories, file } steps) (n : ℕ) :
    ∃ o', (run (step env lib)
      { brain := .opened o entityPolicy readOnly brainId memories, file }
      (steps.take n)).file.fromToml = .ok o' := by
  obtain rfl := OntologyFile.fromToml_eq_ok_iff.1 hload
  rw [← List.take_append_drop n steps, allSteps_append] at horderly
  have hloadable : Loadable (run (step env lib)
      (opened o entityPolicy readOnly brainId memories) (steps.take n)) :=
    run_invariant_of_allSteps (fun _ a h ha => h.step a ha)
      (loadable_opened o entityPolicy readOnly brainId memories) horderly.1
  exact hloadable.valid.exists_fromToml

end Asserting

/-! ## A call that nobody comes between -/

namespace AssertingBrain

/-- An entity, if it has a type and the file can be written. -/
def newEntity (args : AssertArgs ι) (canonical mention : String)
    (newType : Except AssertError String) : Option OntologyEntity :=
  (newType.toOption.map (args.newEntity canonical mention)).filter fun e => args.file e = none

/-- The entity that is written to the file when a mention is resolved. -/
def created (env : Env) (lib : TextLibrary) (b : AssertingBrain ι) (args : AssertArgs ι)
    (mention : String) (newType : Except AssertError String) : Option OntologyEntity :=
  match b.lookup env lib mention with
  | some _ => none
  | none =>
    match b.entityPolicy with
    | .strict => none
    | .autoCreate => newEntity args mention mention newType
    | .autoCreateWithCanonicalizer f =>
      match b.lookup env lib (f mention) with
      | some _ => none
      | none => newEntity args (f mention) mention newType

end AssertingBrain

/-- The entity, if there is one, at the end of the file. -/
def OntologyFile.appendCreated (file : OntologyFile) (e : Option OntologyEntity) : OntologyFile :=
  e.elim file file.appendEntity

namespace Resolving

variable (env : Env) (lib : TextLibrary)

/-- A step, when there is no other call. -/
def advanceAlone (s : AssertingBrain ι × OntologyFile × Resolving ι) :
    AssertingBrain ι × OntologyFile × Resolving ι :=
  s.2.2.advance env lib s.1 s.2.1

/-- What a call goes on with when a mention was resolved, or was not. -/
def after (args : AssertArgs ι) (rest : List (String × Except AssertError String)) {α : Type} :
    Except AssertError α → Resolving ι
  | .ok _ => { args, mentions := rest }
  | .error _ => { args, mentions := [] }

variable (b : AssertingBrain ι) (file : OntologyFile) (args : AssertArgs ι) (mention : String)
  (rest : List (String × Except AssertError String))

/-- A new entity is written and then added. -/
theorem iterate_advance_creates (canonical : String) (newType : Except AssertError String)
    (entityType : String) :
    ∃ n, (advanceAlone env lib)^[n] (b, file,
        { args, mentions := (mention, newType) :: rest
          phase := .append (args.newEntity canonical mention entityType) }) =
      ((b.autoCreateEntity env args canonical mention entityType).1,
        file.appendCreated (AssertingBrain.newEntity args canonical mention (.ok entityType)),
        after args rest (b.autoCreateEntity env args canonical mention entityType).2) := by
  rw [AssertingBrain.autoCreateEntity_eq]
  cases hfile : args.file (args.newEntity canonical mention entityType) with
  | some e =>
    refine ⟨1, ?_⟩
    simp [advanceAlone, advance, hfile, AssertingBrain.newEntity, OntologyFile.appendCreated, after,
      failed, Except.toOption, Option.filter]
  | none =>
    refine ⟨2, ?_⟩
    simp [advanceAlone, advance, hfile, AssertingBrain.newEntity, OntologyFile.appendCreated, after,
      resolved, Except.toOption, Option.filter]

/-- The same, when the entity may lack a type. -/
theorem iterate_advance_newType (canonical : String) (newType : Except AssertError String) :
    ∃ n, (advanceAlone env lib)^[n] (b, file,
        creates { args, mentions := (mention, newType) :: rest } canonical mention newType) =
      match newType with
      | .error _ => (b, file, { args, mentions := [] })
      | .ok entityType =>
        ((b.autoCreateEntity env args canonical mention entityType).1,
          file.appendCreated (AssertingBrain.newEntity args canonical mention newType),
          after args rest (b.autoCreateEntity env args canonical mention entityType).2) := by
  cases newType with
  | error e => exact ⟨0, rfl⟩
  | ok entityType =>
    exact iterate_advance_creates env lib b file args mention rest canonical _ entityType

/-- **A mention, by a call alone.**  Its steps do what resolving the mention does, and write the
entity that is created. -/
theorem iterate_advance_resolveWith (newType : Except AssertError String) :
    ∃ n, (advanceAlone env lib)^[n] (b, file, { args, mentions := (mention, newType) :: rest }) =
      ((b.resolveWith env lib args mention newType).1,
        file.appendCreated (b.created env lib args mention newType),
        after args rest (b.resolveWith env lib args mention newType).2) := by
  unfold AssertingBrain.resolveWith AssertingBrain.created
  cases hfound : b.lookup env lib mention with
  | some m =>
    refine ⟨1, ?_⟩
    simp [advanceAlone, advance, hfound, resolved, after, OntologyFile.appendCreated]
  | none =>
    cases hpolicy : b.entityPolicy with
    | strict =>
      refine ⟨1, ?_⟩
      simp [advanceAlone, advance, hfound, hpolicy, failed, after, OntologyFile.appendCreated]
    | autoCreate =>
      obtain ⟨n, hn⟩ := iterate_advance_newType env lib b file args mention rest mention newType
      refine ⟨n + 1, ?_⟩
      rw [Function.iterate_succ_apply]
      have hfirst : advanceAlone env lib (b, file, { args, mentions := (mention, newType) :: rest }) =
          (b, file, creates { args, mentions := (mention, newType) :: rest } mention mention newType) := by
        simp [advanceAlone, advance, hfound, hpolicy]
      rw [hfirst, hn]
      cases newType with
      | error e => simp [after, AssertingBrain.newEntity, OntologyFile.appendCreated, Except.toOption]
      | ok entityType => rfl
    | autoCreateWithCanonicalizer f =>
      dsimp only
      have hfirst : advanceAlone env lib (b, file, { args, mentions := (mention, newType) :: rest }) =
          (b, file, { args, mentions := (mention, newType) :: rest, phase := .canonical (f mention) }) := by
        simp [advanceAlone, advance, hfound, hpolicy]
      cases hcanonical : b.lookup env lib (f mention) with
      | some m =>
        refine ⟨3, ?_⟩
        rw [Function.iterate_succ_apply, hfirst]
        simp [advanceAlone, advance, hcanonical, resolved, after, OntologyFile.appendCreated]
      | none =>
        obtain ⟨n, hn⟩ := iterate_advance_newType env lib b file args mention rest (f mention) newType
        refine ⟨n + 2, ?_⟩
        rw [Function.iterate_succ_apply, hfirst, Function.iterate_succ_apply]
        have hsecond : advanceAlone env lib
            (b, file, { args, mentions := (mention, newType) :: rest, phase := .canonical (f mention) }) =
            (b, file, creates { args, mentions := (mention, newType) :: rest } (f mention) mention
              newType) := by
          cases newType <;> simp [advanceAlone, advance, hcanonical, creates, failed]
        rw [hsecond, hn]
        cases newType with
        | error e => simp [after, AssertingBrain.newEntity, OntologyFile.appendCreated, Except.toOption]
        | ok entityType => rfl

/-- **Both mentions, by a call alone.** -/
theorem iterate_advance_resolveBoth (subject : String) (subjectType : Except AssertError String)
    (object : String) (objectType : Except AssertError String) :
    ∃ n file', (advanceAlone env lib)^[n]
        (b, file, { args, mentions := [(subject, subjectType), (object, objectType)] }) =
      ((b.resolveBoth env lib args subject subjectType object objectType).1, file',
        { args, mentions := [] }) := by
  obtain ⟨n, hn⟩ := iterate_advance_resolveWith env lib b file args subject
    [(object, objectType)] subjectType
  unfold AssertingBrain.resolveBoth
  dsimp only
  cases hs : (b.resolveWith env lib args subject subjectType).2 with
  | error e =>
    rw [hs] at hn
    exact ⟨n, _, hn⟩
  | ok s =>
    rw [hs] at hn
    obtain ⟨m, hm⟩ := iterate_advance_resolveWith env lib
      (b.resolveWith env lib args subject subjectType).1
      (file.appendCreated (b.created env lib args subject subjectType)) args object [] objectType
    refine ⟨m + n, (file.appendCreated (b.created env lib args subject subjectType)).appendCreated
      ((b.resolveWith env lib args subject subjectType).1.created env lib args object objectType), ?_⟩
    rw [Function.iterate_add_apply, hn]
    refine hm.trans ?_
    cases ((b.resolveWith env lib args subject subjectType).1.resolveWith env lib args object
      objectType).2 <;> rfl

end Resolving

/-! ## Files that do not open -/

/-- A brain whose ontology is of people and projects, and which creates the entities it does not
know. -/
def workAsserting : Asserting (Fin 5) where
  brain := workBrain
  file := .ofOntology workOntology

/-- Carol is introduced by two calls, one after the other. -/
def carolIntroduced : List (AssertStep (Fin 5)) :=
  [.call (.assertTyped { now := day 0 } ("person", "carol") "knows" ("person", "alice")),
    .advance 0, .advance 0, .advance 0, .advance 0,
    .call (.assertTyped { now := day 1 } ("person", "alice") "knows" ("person", "carol")),
    .advance 1, .advance 1]

theorem fromToml_of_orderly_carol : ∃ o', (run (Asserting.step workEnv .plain) workAsserting
    (carolIntroduced.take 8)).file.fromToml = .ok o' := by
  have horderly : AllSteps (Asserting.step workEnv .plain) (Asserting.Orderly workEnv .plain)
      workAsserting carolIntroduced := by decide +kernel
  exact Asserting.fromToml_of_orderly workEnv .plain (.ofOntology workOntology) workOntology
    (OntologyFile.fromToml_eq_ok_iff.2 rfl) .autoCreate false (Env.bytesOf 32 0) {} carolIntroduced
    horderly 8

/-- Somebody without a name. -/
def namelessKnowsAlice : List (AssertStep (Fin 5)) :=
  [.call (.assertTyped { now := day 0 } ("person", "") "knows" ("person", "alice")),
    .advance 0, .advance 0, .advance 0, .advance 0]

/-- Carol is introduced by two calls at once: neither finds her, and both write her. -/
def carolAtOnce : List (AssertStep (Fin 5)) :=
  [.call (.assertTyped { now := day 0 } ("person", "carol") "knows" ("person", "alice")),
    .call (.assertTyped { now := day 0 } ("person", "alice") "knows" ("person", "carol")),
    .advance 1, .advance 0, .advance 1, .advance 0, .advance 1]

/-- The file of people and projects opens; after either it does not. -/
theorem unloadable_after_assertions :
    (OntologyFile.ofOntology workOntology).validate = .ok () ∧
      (run (Asserting.step workEnv .plain) workAsserting namelessKnowsAlice).file.validate =
        .error (.ontology "entity has empty canonical") ∧
      (run (Asserting.step workEnv .plain) workAsserting carolAtOnce).file.validate =
        .error (.ontology "duplicate canonical 'carol' for type 'person'") := by
  decide +kernel

end Spectral
