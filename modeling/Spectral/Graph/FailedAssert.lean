import Spectral.Graph.Reopen

/-!
# Assertions that are refused

An assertion that is refused returns an error about a mention, or about the predicate and the types
it would join.  By then the mentions may have been resolved, and what was created for them is in the
file and in the brain.

* `Alters` — resolving a mention creates an entity, or adds an alias to one that was created.
* `UnchangedOnRefusal` — the call leaves the file, the entities and the graph as they were, if it is
  refused.
* `AltersOnSuccess` — a call that alters something is not refused; `unchangedOnRefusal_iff` — such
  calls, and no others, leave everything as it was.
-/

namespace Spectral

open Spectral.Lib

variable {ι : Type}

/-- An error about a mention, or about a predicate and the types it joins. -/
def AssertError.IsRefusal : AssertError → Prop
  | .unresolvedMention .. | .ambiguousEntityType .. | .invalidPredicate .. | .ontology _ => True
  | .readOnly _ | .schema _ | .file _ => False

instance : DecidablePred AssertError.IsRefusal
  | .unresolvedMention .. | .ambiguousEntityType .. | .invalidPredicate .. | .ontology _ =>
    isTrue trivial
  | .readOnly _ | .schema _ | .file _ => isFalse id

/-- A type that is not inferred is a refusal. -/
theorem isRefusal_of_inferSingleType {mention predicate : String} {allowed : Option (List String)}
    {e : AssertError} (h : inferSingleType mention allowed predicate = .error e) : e.IsRefusal := by
  unfold inferSingleType at h
  split at h <;> cases h <;> trivial

namespace AssertingBrain

section

variable (env : Env) (lib : TextLibrary) (b : AssertingBrain ι) (args : AssertArgs ι)
  (x : String × Except AssertError String)

/-- The entity that is to be written for a mention that is not found. -/
def writes : Option OntologyEntity :=
  match b.found env lib x.1, b.entityPolicy with
  | some _, _ | none, .strict => none
  | none, .autoCreate | none, .autoCreateWithCanonicalizer _ =>
    x.2.toOption.map (args.newEntity (b.entityPolicy.canonicalForm x.1) x.1)

omit env lib args x in
/-- The first created entity with the name and the type lacks the alias. -/
def FirstLacks (canonical entityType name : String) : Prop :=
  ∃ e ∈ b.runtimeEntities.find? fun e => e.canonical = canonical ∧ e.entityType = entityType,
    ∀ a ∈ e.aliases, eqIgnoreAsciiCase a name = false

/-- The mention is found under its canonical form only, and that entity was created, and does not
have it as an alias. -/
def LacksAlias (mention : String) : Prop :=
  b.lookup env lib mention = none ∧
    ∃ m ∈ b.lookup env lib (b.entityPolicy.canonicalForm mention),
      b.FirstLacks m.canonical m.entityType mention

/-- Resolving the mention creates an entity, or adds an alias. -/
def Alters : Prop := (b.created env lib args x.1 x.2).isSome ∨ b.LacksAlias env lib x.1

/-- The mention is found, or can be created. -/
def Resolvable : Prop := (b.found env lib x.1).isSome ∨ (b.created env lib args x.1 x.2).isSome

/-- The mention is not found, and not created for another reason than that the file fails. -/
def Refused : Prop :=
  b.found env lib x.1 = none ∧ ∀ e ∈ b.writes env lib args x, ∃ err ∈ args.file e, err.IsRefusal

/-- The brain, with what is created or added for a mention. -/
def taught : AssertingBrain ι :=
  match b.created env lib args x.1 x.2, b.lookup env lib x.1,
    b.lookup env lib (b.entityPolicy.canonicalForm x.1) with
  | some e, _, _ => { b with runtimeEntities := b.runtimeEntities ++ [e] }
  | none, none, some m => b.ensureAlias m.canonical m.entityType x.1
  | none, _, _ => b

/-- The check of the types: those of what the mentions stand for, or those the caller names. -/
def PassesTypes : AssertCall ι → Prop
  | .assert args subject predicate object =>
    ∀ p ∈ b.declared predicate,
      ∀ s ∈ b.target env lib subject (inferSingleType subject (some p.domain) predicate),
        ∀ o ∈ (b.taught env lib args (subject, inferSingleType subject (some p.domain)
            predicate)).target env lib object (inferSingleType object (some p.range) predicate),
          s.1 ∈ p.domain ∧ o.1 ∈ p.range
  | .assertTyped _ subject predicate object | .assertTypedFrom _ _ subject predicate object =>
    b.Fits predicate subject.1 object.1

/-- When the subject alters something, the object is not refused; when either does and both are
resolved, the types pass the check. -/
def AltersOnSuccess (c : AssertCall ι) : Prop :=
  match (b.mentions c).mentions with
  | [x, y] =>
    (b.Alters env lib (b.mentions c).args x →
      ¬ (b.taught env lib (b.mentions c).args x).Refused env lib (b.mentions c).args y) ∧
    (b.Resolvable env lib (b.mentions c).args x →
      (b.taught env lib (b.mentions c).args x).Resolvable env lib (b.mentions c).args y →
      (b.Alters env lib (b.mentions c).args x ∨
        (b.taught env lib (b.mentions c).args x).Alters env lib (b.mentions c).args y) →
      b.PassesTypes env lib c)
  | _ => True

end

variable {env : Env} {lib : TextLibrary} {b b' : AssertingBrain ι} {args : AssertArgs ι}
  {x y : String × Except AssertError String}

/-! ## Resolving a mention -/

variable (args) in
/-- A mention that is not found is created, unless the policy is strict. -/
theorem resolveWith_of_missing (hmissing : b.found env lib x.1 = none)
    (hpolicy : b.entityPolicy ≠ .strict) :
    b.writes env lib args x =
        x.2.toOption.map (args.newEntity (b.entityPolicy.canonicalForm x.1) x.1) ∧
      b.created env lib args x.1 x.2 = newEntity args (b.entityPolicy.canonicalForm x.1) x.1 x.2 ∧
      b.resolveWith env lib args x.1 x.2 =
        match x.2 with
        | .error e => (b, .error e)
        | .ok t => b.autoCreateEntity env args (b.entityPolicy.canonicalForm x.1) x.1 t := by
  obtain ⟨hmention, hcanonical⟩ := Option.or_eq_none_iff.1 hmissing
  unfold writes created resolveWith
  rw [hmissing, hmention]
  cases hform : b.entityPolicy with
  | strict => exact absurd hform hpolicy
  | autoCreate => exact ⟨rfl, rfl, by cases x.2 <;> rfl⟩
  | autoCreateWithCanonicalizer f =>
    rw [hform] at hcanonical
    have hlookup : b.lookup env lib (f x.1) = none := hcanonical
    refine ⟨rfl, ?_, ?_⟩
    · simp only [hlookup, EntityPolicy.canonicalForm]
    · cases x.2 <;> simp only [hlookup, EntityPolicy.canonicalForm]

/-- A mention that is found may become an alias. -/
theorem resolveWith_fst_of_found {m : MatchedMention} (h : b.found env lib x.1 = some m) :
    (b.resolveWith env lib args x.1 x.2).1 = b.taught env lib args x := by
  unfold found at h
  unfold resolveWith taught created
  cases hmention : b.lookup env lib x.1 with
  | some m' => rfl
  | none =>
    rw [hmention, Option.none_or] at h
    cases hpolicy : b.entityPolicy with
    | strict | autoCreate =>
      rw [hpolicy] at h
      exact absurd (hmention.symm.trans h) nofun
    | autoCreateWithCanonicalizer f =>
      rw [hpolicy] at h
      have hcanonical : b.lookup env lib (f x.1) = some m := h
      simp only [hcanonical, EntityPolicy.canonicalForm]

/-- A mention is resolved, and what that adds is in the brain; or it is not, and nothing is. -/
theorem resolveWith_cases (env : Env) (lib : TextLibrary) (b : AssertingBrain ι)
    (args : AssertArgs ι) (hx : ∀ e, x.2 = .error e → e.IsRefusal) :
    (∃ m, b.resolveWith env lib args x.1 x.2 = (b.taught env lib args x, .ok m) ∧
      b.Resolvable env lib args x) ∨
    (∃ e, b.resolveWith env lib args x.1 x.2 = (b, .error e) ∧ ¬ b.Resolvable env lib args x ∧
      b.created env lib args x.1 x.2 = none ∧ (e.IsRefusal ↔ b.Refused env lib args x)) := by
  cases hfound : b.found env lib x.1 with
  | some m =>
    refine Or.inl ⟨m, Prod.ext ?_ (resolveWith_of_found hfound args x.2), Or.inl (by simp [hfound])⟩
    exact resolveWith_fst_of_found hfound
  | none =>
    by_cases hpolicy : b.entityPolicy = .strict
    · right
      obtain ⟨hmention, -⟩ := Option.or_eq_none_iff.1 hfound
      have hwrites : b.writes env lib args x = none := by
        unfold writes
        rw [hfound, hpolicy]
      have hcreated : b.created env lib args x.1 x.2 = none := by
        unfold created
        rw [hmention, hpolicy]
      refine ⟨.unresolvedMention x.1 (lib.findNearest b.ontology.toOntology x.1), ?_, ?_, hcreated,
        ?_⟩
      · unfold resolveWith
        rw [hmention, hpolicy]
      · simp [Resolvable, hfound, hcreated]
      · exact iff_of_true trivial ⟨hfound, by simp [hwrites]⟩
    · obtain ⟨hwrites, hcreated, hresolve⟩ := resolveWith_of_missing args hfound hpolicy
      rw [hresolve]
      cases htype : x.2 with
      | error e =>
        rw [htype] at hwrites hcreated
        refine Or.inr ⟨e, rfl, ?_, hcreated, iff_of_true (hx e htype) ⟨hfound, ?_⟩⟩
        · simp [Resolvable, hfound, htype, hcreated, newEntity, Except.toOption]
        · simp [hwrites, Except.toOption]
      | ok t =>
        rw [htype] at hwrites hcreated
        dsimp only
        rw [autoCreateEntity_eq]
        cases hfile : args.file (args.newEntity (b.entityPolicy.canonicalForm x.1) x.1 t) with
        | some err =>
          have hnone : b.created env lib args x.1 (.ok t) = none := by
            simp [hcreated, newEntity, Except.toOption, Option.filter, hfile]
          refine Or.inr ⟨err, rfl, ?_, hnone, ?_⟩
          · simp [Resolvable, hfound, htype, hnone]
          · simp [Refused, hfound, hwrites, Except.toOption, hfile]
        | none =>
          have hsome : b.created env lib args x.1 (.ok t) =
              some (args.newEntity (b.entityPolicy.canonicalForm x.1) x.1 t) := by
            simp [hcreated, newEntity, Except.toOption, Option.filter, hfile]
          refine Or.inl ⟨_, Prod.ext ?_ rfl, Or.inr (by rw [htype, hsome]; rfl)⟩
          unfold taught
          rw [htype, hsome]

/-! ## What is altered -/

/-- How many names the created entities have: what is altered only adds to them. -/
def countNames (b : AssertingBrain ι) : ℕ := (b.runtimeEntities.map fun e => e.names.length).sum

theorem length_names_withAlias {e : OntologyEntity} {name : String}
    (h : ∀ a ∈ e.aliases, eqIgnoreAsciiCase a name = false) :
    (e.withAlias name).names.length = e.names.length + 1 := by
  have hnone : ¬ (e.aliases.any fun a => eqIgnoreAsciiCase a name) = true := by simpa using h
  simp [OntologyEntity.withAlias, hnone, OntologyEntity.names]

/-- An alias that is lacking is one name more. -/
theorem countNames_ensureAlias {canonical entityType name : String}
    (h : b.FirstLacks canonical entityType name) :
    (b.ensureAlias canonical entityType name).countNames = b.countNames + 1 := by
  obtain ⟨e, hfind, hlacks⟩ := h
  rw [Option.mem_def, List.find?_eq_bind_findIdx?_getElem?, Option.bind_eq_some_iff] at hfind
  obtain ⟨i, hi, hget⟩ := hfind
  obtain ⟨hlt, rfl⟩ := List.getElem?_eq_some_iff.1 hget
  have hsplit : b.runtimeEntities = b.runtimeEntities.take i ++
      b.runtimeEntities[i] :: b.runtimeEntities.drop (i + 1) := by
    rw [← List.drop_eq_getElem_cons hlt, List.take_append_drop]
  have hafter : (b.ensureAlias canonical entityType name).runtimeEntities =
      b.runtimeEntities.take i ++
        b.runtimeEntities[i].withAlias name :: b.runtimeEntities.drop (i + 1) := by
    unfold ensureAlias
    simp only [hi]
    exact List.modify_eq_take_cons_drop hlt
  have hbefore : b.countNames = ((b.runtimeEntities.take i ++
      b.runtimeEntities[i] :: b.runtimeEntities.drop (i + 1)).map fun e => e.names.length).sum := by
    rw [← hsplit]
    rfl
  rw [hbefore, countNames, hafter]
  simp only [List.map_append, List.map_cons, List.sum_append, List.sum_cons,
    length_names_withAlias hlacks]
  omega

/-- One that is not lacking changes nothing. -/
theorem ensureAlias_eq_self {canonical entityType name : String}
    (h : ¬ b.FirstLacks canonical entityType name) :
    b.ensureAlias canonical entityType name = b := by
  unfold ensureAlias
  split
  · rename_i i hi
    have hlt := (List.findIdx?_eq_some_iff_getElem.1 hi).1
    have hfind : (b.runtimeEntities.find? fun e =>
        e.canonical = canonical ∧ e.entityType = entityType) = some b.runtimeEntities[i] := by
      rw [List.find?_eq_bind_findIdx?_getElem?, hi]
      exact List.getElem?_eq_getElem hlt
    -- the entity has the alias, and stays as it is
    have hhas : b.runtimeEntities[i].withAlias name = b.runtimeEntities[i] := by
      refine if_pos ?_
      by_contra hnone
      exact h ⟨_, hfind, by simpa using hnone⟩
    have hsame : (b.runtimeEntities.modify i fun e => e.withAlias name) = b.runtimeEntities := by
      rw [List.modify_eq_take_cons_drop hlt, hhas, ← List.drop_eq_getElem_cons hlt,
        List.take_append_drop]
    rw [hsame]
  · rfl

/-- A mention that alters nothing leaves the brain as it was. -/
theorem taught_of_not_alters (h : ¬ b.Alters env lib args x) :
    b.taught env lib args x = b ∧ b.created env lib args x.1 x.2 = none := by
  obtain ⟨hcreated, hlacks⟩ := not_or.1 h
  have hnone : b.created env lib args x.1 x.2 = none := by simpa using hcreated
  refine ⟨?_, hnone⟩
  unfold taught
  rw [hnone]
  split
  · rename_i hcontra
    cases hcontra
  · rename_i m _ hmention hcanonical
    exact ensureAlias_eq_self fun hfirst => hlacks ⟨hmention, m, hcanonical, hfirst⟩
  · rfl

/-- What alters something adds to the names. -/
theorem countNames_lt_taught (h : b.Alters env lib args x) :
    b.countNames < (b.taught env lib args x).countNames := by
  unfold taught
  cases hcreated : b.created env lib args x.1 x.2 with
  | some e => simp [countNames, OntologyEntity.names]
  | none =>
    obtain ⟨hmention, m, hcanonical, hfirst⟩ := h.resolve_left (by simp [hcreated])
    rw [hmention, Option.mem_def.1 hcanonical]
    dsimp only
    rw [countNames_ensureAlias hfirst]
    exact Nat.lt_succ_self _

variable (env lib args) in
/-- Nothing is taken away. -/
theorem countNames_le_taught (b : AssertingBrain ι) (x : String × Except AssertError String) :
    b.countNames ≤ (b.taught env lib args x).countNames := by
  by_cases h : b.Alters env lib args x
  · exact (countNames_lt_taught h).le
  · rw [(taught_of_not_alters h).1]

/-- When the created entities are the same, nothing was altered: not by the object, and not by the
subject before it. -/
theorem not_alters_of_same_both
    (h : ((b.taught env lib args x).taught env lib args y).runtimeEntities = b.runtimeEntities) :
    ¬ (b.Alters env lib args x ∨ (b.taught env lib args x).Alters env lib args y) := by
  have hcount : ((b.taught env lib args x).taught env lib args y).countNames = b.countNames := by
    rw [countNames, h, countNames]
  have hle := countNames_le_taught env lib args b x
  have hle' := countNames_le_taught env lib args (b.taught env lib args x) y
  rintro (halters | halters)
  · have hlt := countNames_lt_taught halters
    omega
  · have hlt := countNames_lt_taught halters
    omega

theorem not_alters_of_same (h : (b.taught env lib args x).runtimeEntities = b.runtimeEntities) :
    ¬ b.Alters env lib args x := by
  intro halters
  have hlt := countNames_lt_taught halters
  rw [countNames, countNames, h] at hlt
  exact lt_irrefl _ hlt

/-- What alters something is resolved. -/
theorem Alters.resolvable (h : b.Alters env lib args x) : b.Resolvable env lib args x := by
  rcases h with hcreated | ⟨hmention, m, hcanonical, -⟩
  · exact Or.inr hcreated
  · refine Or.inl ?_
    rw [found, hmention, Option.mem_def.1 hcanonical]
    rfl

/-- What is refused is not resolved. -/
theorem Refused.not_resolvable (h : b.Refused env lib args x) : ¬ b.Resolvable env lib args x := by
  obtain ⟨hfound, hfile⟩ := h
  rintro (hsome | hcreated)
  · simp [hfound] at hsome
  · by_cases hpolicy : b.entityPolicy = .strict
    · obtain ⟨hmention, -⟩ := Option.or_eq_none_iff.1 hfound
      unfold created at hcreated
      rw [hmention, hpolicy] at hcreated
      cases hcreated
    · obtain ⟨hwrites, hnew, -⟩ := resolveWith_of_missing args hfound hpolicy
      rw [hnew, newEntity, Option.isSome_filter] at hcreated
      obtain ⟨e, he, hnone⟩ := (Option.any_eq_true _ _).1 hcreated
      obtain ⟨err, herr, -⟩ := hfile e (hwrites.trans he)
      rw [Option.mem_def, of_decide_eq_true hnone] at herr
      cases herr

/-! ## Resolving both mentions -/

/-- The subject, then the object with what was added for the subject. -/
theorem resolveBoth_cases (env : Env) (lib : TextLibrary) (b : AssertingBrain ι)
    (args : AssertArgs ι) (hx : ∀ e, x.2 = .error e → e.IsRefusal)
    (hy : ∀ e, y.2 = .error e → e.IsRefusal) :
    (¬ b.Resolvable env lib args x ∧ ∃ e,
      b.resolveBoth env lib args x.1 x.2 y.1 y.2 = (b, .error e)) ∨
    (b.Resolvable env lib args x ∧ ¬ (b.taught env lib args x).Resolvable env lib args y ∧ ∃ e,
      b.resolveBoth env lib args x.1 x.2 y.1 y.2 = (b.taught env lib args x, .error e) ∧
        (e.IsRefusal ↔ (b.taught env lib args x).Refused env lib args y)) ∨
    (b.Resolvable env lib args x ∧ (b.taught env lib args x).Resolvable env lib args y ∧ ∃ s o,
      b.resolveBoth env lib args x.1 x.2 y.1 y.2 =
        ((b.taught env lib args x).taught env lib args y, .ok (s, o))) := by
  unfold resolveBoth
  rcases resolveWith_cases env lib b args hx with ⟨m, hm, hres⟩ | ⟨e, he, hnot, -, -⟩
  · rw [hm]
    dsimp only
    rcases resolveWith_cases env lib (b.taught env lib args x) args hy with
      ⟨m', hm', hres'⟩ | ⟨e, he, hnot, -, hrefused⟩
    · exact Or.inr (Or.inr ⟨hres, hres', m, m', by rw [hm']; rfl⟩)
    · exact Or.inr (Or.inl ⟨hres, hnot, e, by rw [he]; rfl, hrefused⟩)
  · exact Or.inl ⟨hnot, e, by rw [he]⟩

/-! ## The check of the types -/

theorem checkTypes_cases (p : OntologyPredicate) (subjectType objectType : String) :
    ((subjectType ∈ p.domain ∧ objectType ∈ p.range) ∧
      checkTypes p subjectType objectType = .ok ()) ∨
    (¬ (subjectType ∈ p.domain ∧ objectType ∈ p.range) ∧ ∃ e,
      checkTypes p subjectType objectType = .error e ∧ e.IsRefusal) := by
  unfold checkTypes
  by_cases hd : subjectType ∈ p.domain
  · by_cases hr : objectType ∈ p.range
    · exact Or.inl ⟨⟨hd, hr⟩, by simp [hd, hr]⟩
    · refine Or.inr ⟨fun h => hr h.2, .invalidPredicate p.name subjectType objectType, ?_, trivial⟩
      simp [hd, hr]
  · refine Or.inr ⟨fun h => hd h.1, .invalidPredicate p.name subjectType objectType, ?_, trivial⟩
    simp [hd]

variable [LinearOrder ι] {clock : Clock ι}

/-- How a call ends that resolves two mentions: with the error of a mention, with a refusal of the
types, or with a triple. -/
structure Ends (env : Env) (lib : TextLibrary) (clock : Clock ι) (b : AssertingBrain ι)
    (c : AssertCall ι) (x y : String × Except AssertError String) : Prop where
  subjectType : ∀ e, x.2 = .error e → e.IsRefusal
  objectType : ∀ e, y.2 = .error e → e.IsRefusal
  error : ∀ b' e, b.resolveBoth env lib (b.mentions c).args x.1 x.2 y.1 y.2 = (b', .error e) →
    b.outcome env lib clock c = (b', .error e)
  passes : ∀ b' s o, b.resolveBoth env lib (b.mentions c).args x.1 x.2 y.1 y.2 = (b', .ok (s, o)) →
    b.PassesTypes env lib c → ∃ r, (b.outcome env lib clock c).2 = .ok r
  fails : ∀ b' s o, b.resolveBoth env lib (b.mentions c).args x.1 x.2 y.1 y.2 = (b', .ok (s, o)) →
    ¬ b.PassesTypes env lib c →
      ∃ e, b.outcome env lib clock c = (b', .error e) ∧ e.IsRefusal

theorem assertTypedWithDoc_of_error (hwritable : b.readOnly = false)
    {subject object : String × String} {predicate : String} {sourceDocId : Option Bytes32}
    {e : AssertError}
    (hboth : b.resolveBoth env lib args subject.2 (.ok subject.1) object.2 (.ok object.1) =
      (b', .error e)) :
    b.assertTypedWithDoc env lib clock args subject predicate object sourceDocId =
      (b', .error e) := by
  unfold assertTypedWithDoc
  rw [hwritable, hboth]
  rfl

/-- `assert_typed_with_doc`, when both mentions are resolved. -/
theorem assertTypedWithDoc_of_both (hwritable : b.readOnly = false)
    {subject object : String × String} {predicate : String} {sourceDocId : Option Bytes32} {s o : MatchedMention}
    (hboth : b.resolveBoth env lib args subject.2 (.ok subject.1) object.2 (.ok object.1) =
      (b', .ok (s, o))) :
    (b.Fits predicate subject.1 object.1 → ∃ r,
      (b.assertTypedWithDoc env lib clock args subject predicate object sourceDocId).2 = .ok r) ∧
    (¬ b.Fits predicate subject.1 object.1 → ∃ e,
      b.assertTypedWithDoc env lib clock args subject predicate object sourceDocId =
        (b', .error e) ∧ e.IsRefusal) := by
  unfold assertTypedWithDoc Fits
  rw [hwritable, hboth]
  simp only [Bool.false_eq_true, if_false]
  cases hdeclared : b.declared predicate with
  | none => exact ⟨fun _ => ⟨_, rfl⟩, fun h => absurd (fun _ hp => nomatch hp) h⟩
  | some p =>
    simp only [Option.mem_def, Option.some.injEq, forall_eq']
    rcases checkTypes_cases p subject.1 object.1 with ⟨hfits, hcheck⟩ | ⟨hfits, e, hcheck, he⟩
    · rw [hcheck]
      exact ⟨fun _ => ⟨_, rfl⟩, fun h => absurd hfits h⟩
    · rw [hcheck]
      exact ⟨fun h => absurd h hfits, fun _ => ⟨e, rfl, he⟩⟩

section Assert

variable {subject predicate object : String} {p : OntologyPredicate}

theorem assert_of_error (hwritable : b.readOnly = false) (hdeclared : b.declared predicate = some p)
    {e : AssertError}
    (hboth : b.resolveBoth env lib args subject (inferSingleType subject (some p.domain) predicate)
      object (inferSingleType object (some p.range) predicate) = (b', .error e)) :
    b.assert env lib clock args subject predicate object = (b', .error e) := by
  unfold assert
  rw [hwritable, hdeclared]
  dsimp only
  rw [hboth]
  rfl

/-- `assert`, when both mentions are resolved. -/
theorem assert_of_both (hwritable : b.readOnly = false) (hdeclared : b.declared predicate = some p)
    {s o : MatchedMention}
    (hboth : b.resolveBoth env lib args subject (inferSingleType subject (some p.domain) predicate)
      object (inferSingleType object (some p.range) predicate) = (b', .ok (s, o))) :
    (s.entityType ∈ p.domain ∧ o.entityType ∈ p.range → ∃ r,
      (b.assert env lib clock args subject predicate object).2 = .ok r) ∧
    (¬ (s.entityType ∈ p.domain ∧ o.entityType ∈ p.range) → ∃ e,
      b.assert env lib clock args subject predicate object = (b', .error e) ∧ e.IsRefusal) := by
  unfold assert
  rw [hwritable, hdeclared]
  dsimp only
  rw [hboth]
  simp only [Bool.false_eq_true, if_false]
  rcases checkTypes_cases p s.entityType o.entityType with ⟨hfits, hcheck⟩ | ⟨hfits, e, hcheck, he⟩
  · rw [hcheck]
    exact ⟨fun _ => ⟨_, rfl⟩, fun h => absurd hfits h⟩
  · rw [hcheck]
    exact ⟨fun h => absurd h hfits, fun _ => ⟨e, rfl, he⟩⟩

omit [LinearOrder ι] in
/-- The types of what the mentions stand for are those of what they were resolved to. -/
theorem passesTypes_assert_iff (hdeclared : b.declared predicate = some p) {s o : MatchedMention}
    (hboth : b.resolveBoth env lib args subject (inferSingleType subject (some p.domain) predicate)
      object (inferSingleType object (some p.range) predicate) = (b', .ok (s, o))) :
    b.PassesTypes env lib (.assert args subject predicate object) ↔
      s.entityType ∈ p.domain ∧ o.entityType ∈ p.range := by
  obtain ⟨-, hends⟩ := resolveBoth_spec env lib args b subject
    (inferSingleType subject (some p.domain) predicate) object
    (inferSingleType object (some p.range) predicate)
  rw [hboth] at hends
  obtain ⟨htargets, -, -⟩ := hends s o rfl
  obtain ⟨s', hs, hrest⟩ := Option.bind_eq_some_iff.1 htargets
  obtain ⟨o', ho, hpair⟩ := Option.map_eq_some_iff.1 hrest
  obtain ⟨rfl, rfl⟩ := Prod.mk.inj hpair
  have htaught : (b.resolveWith env lib args subject
      (inferSingleType subject (some p.domain) predicate)).1 =
        b.taught env lib args (subject, inferSingleType subject (some p.domain) predicate) := by
    rcases resolveWith_cases (x := (subject, inferSingleType subject (some p.domain) predicate))
      env lib b args (fun _ => isRefusal_of_inferSingleType) with ⟨m, hm, -⟩ | ⟨e, he, -⟩
    · exact congrArg Prod.fst hm
    · unfold resolveBoth at hboth
      dsimp only at hboth he
      rw [he] at hboth
      cases hboth
  rw [htaught] at ho
  simp only [PassesTypes, hdeclared, Option.mem_def, Option.some.injEq, forall_eq', hs, ho]

end Assert

variable (env lib clock) in
/-- **Every call** that resolves two mentions. -/
theorem ends_of_mentions {c : AssertCall ι} (h : (b.mentions c).mentions = [x, y]) :
    b.Ends env lib clock c x y := by
  cases c with
  | assert args subject predicate object =>
    unfold mentions at h
    dsimp only at h
    split at h
    · rename_i p hwritable hdeclared
      obtain ⟨rfl, rfl⟩ : (subject, inferSingleType subject (some p.domain) predicate) = x ∧
          (object, inferSingleType object (some p.range) predicate) = y := by simpa using h
      refine ⟨fun _ => isRefusal_of_inferSingleType, fun _ => isRefusal_of_inferSingleType,
        fun _ _ hboth => assert_of_error hwritable hdeclared hboth, fun b' s o hboth hpass => ?_,
        fun b' s o hboth hpass => ?_⟩
      · exact (assert_of_both hwritable hdeclared hboth).1
          ((passesTypes_assert_iff hdeclared hboth).1 hpass)
      · exact (assert_of_both hwritable hdeclared hboth).2 fun hfits =>
          hpass ((passesTypes_assert_iff hdeclared hboth).2 hfits)
    · cases h
  | assertTyped args subject predicate object =>
    unfold mentions at h
    dsimp only at h
    split at h
    · cases h
    · rename_i hwritable
      obtain ⟨rfl, rfl⟩ : (subject.2, (.ok subject.1 : Except AssertError String)) = x ∧
          (object.2, (.ok object.1 : Except AssertError String)) = y := by simpa using h
      have hwritable' : b.readOnly = false := by simpa using hwritable
      exact ⟨nofun, nofun, fun _ _ hboth => assertTypedWithDoc_of_error hwritable' hboth,
        fun _ _ _ hboth => (assertTypedWithDoc_of_both hwritable' hboth).1,
        fun _ _ _ hboth => (assertTypedWithDoc_of_both hwritable' hboth).2⟩
  | assertTypedFrom args memoryId subject predicate object =>
    unfold mentions at h
    dsimp only at h
    split at h
    · rename_i memory hmemory hwritable
      obtain ⟨rfl, rfl⟩ : (subject.2, (.ok subject.1 : Except AssertError String)) = x ∧
          (object.2, (.ok object.1 : Except AssertError String)) = y := by simpa using h
      have hcall : b.outcome env lib clock
          (.assertTypedFrom args memoryId subject predicate object) =
          b.assertTypedWithDoc env lib clock args subject predicate object
            (some (env.blake3 (utf8 memory.content))) := by
        simp only [outcome, assertTypedFrom, memoryDocId, hmemory]
      refine ⟨nofun, nofun, fun b' e hboth => ?_, fun b' s o hboth => ?_, fun b' s o hboth => ?_⟩
      · exact hcall.trans (assertTypedWithDoc_of_error hwritable hboth)
      · rw [hcall]
        exact (assertTypedWithDoc_of_both hwritable hboth).1
      · rw [hcall]
        exact (assertTypedWithDoc_of_both hwritable hboth).2
    · cases h

variable (env lib clock) in
/-- A call that resolves no mentions leaves everything as it was. -/
theorem outcome_of_no_mentions {c : AssertCall ι} (h : (b.mentions c).mentions = []) :
    ∃ e, b.outcome env lib clock c = (b, .error e) := by
  cases c with
  | assert args subject predicate object =>
    cases hread : b.readOnly with
    | true => exact ⟨.readOnly "assert", by simp [outcome, assert, hread]⟩
    | false =>
      cases hdeclared : b.declared predicate with
      | none => exact ⟨_, by simp only [outcome, assert, hread, hdeclared]; rfl⟩
      | some p => simp [mentions, hread, hdeclared] at h
  | assertTyped args subject predicate object =>
    cases hread : b.readOnly with
    | true =>
      exact ⟨.readOnly "assert_typed", by simp [outcome, assertTyped, assertTypedWithDoc, hread]⟩
    | false => simp [mentions, hread] at h
  | assertTypedFrom args memoryId subject predicate object =>
    cases hmemory : b.memories.getMemory memoryId with
    | none => exact ⟨_, by simp only [outcome, assertTypedFrom, memoryDocId, hmemory]; rfl⟩
    | some memory =>
      cases hread : b.readOnly with
      | true =>
        refine ⟨.readOnly "assert_typed", ?_⟩
        simp [outcome, assertTypedFrom, memoryDocId, hmemory, assertTypedWithDoc, hread]
      | false => simp [mentions, hread, hmemory] at h

omit [LinearOrder ι] in
theorem mentions_nil_or_pair (b : AssertingBrain ι) (c : AssertCall ι) :
    (b.mentions c).mentions = [] ∨ ∃ x y, (b.mentions c).mentions = [x, y] := by
  cases c <;> unfold mentions <;> dsimp only <;> split <;> simp

end AssertingBrain

/-! ## Refusals -/

namespace FiledBrain

variable {env : Env} {lib : TextLibrary} {s : FiledBrain ι} {args : AssertArgs ι}
  {x y : String × Except AssertError String}

/-- The file is the same, and so are the entities that were created and the graph. -/
structure Unchanged (s s' : FiledBrain ι) : Prop where
  file : s'.file = s.file
  runtimeEntities : s'.brain.runtimeEntities = s.brain.runtimeEntities
  store : s'.brain.store = s.brain.store

/-- If the call is refused, nothing changes. -/
def UnchangedOnRefusal [LinearOrder ι] (env : Env) (lib : TextLibrary) (clock : Clock ι)
    (s : FiledBrain ι) (c : AssertCall ι) : Prop :=
  ∀ e, (s.brain.outcome env lib clock c).2 = .error e → e.IsRefusal →
    s.Unchanged (s.call env lib clock c)

/-- Mentions that alter nothing leave the file as it was. -/
theorem file_resolveAll_pair (hx : ∀ e, x.2 = .error e → e.IsRefusal)
    (hnot : ¬ s.brain.Alters env lib args x)
    (hnot' : s.brain.Resolvable env lib args x →
      ¬ (s.brain.taught env lib args x).Alters env lib args y) :
    (s.resolveAll env lib args [x, y]).file = s.file := by
  have hnone := (AssertingBrain.taught_of_not_alters hnot).2
  unfold resolveAll
  rcases AssertingBrain.resolveWith_cases env lib s.brain args hx with ⟨m, hm, hres⟩ | ⟨e, he, -⟩
  · rw [hm]
    have hnone' := (AssertingBrain.taught_of_not_alters (hnot' hres)).2
    have hbrain : (s.resolve env lib args x).brain = s.brain.taught env lib args x := by
      rw [resolve, hm]
    have hlast : (resolveAll env lib args (s.resolve env lib args x) [y]) =
        (s.resolve env lib args x).resolve env lib args y := by
      unfold resolveAll
      split <;> rfl
    dsimp only
    rw [hlast]
    show ((s.resolve env lib args x).file.appendCreated
      ((s.resolve env lib args x).brain.created env lib args y.1 y.2)) = s.file
    rw [hbrain, hnone']
    show s.file.appendCreated (s.brain.created env lib args x.1 x.2) = s.file
    rw [hnone]
    rfl
  · rw [he]
    show s.file.appendCreated (s.brain.created env lib args x.1 x.2) = s.file
    rw [hnone]
    rfl

variable [LinearOrder ι] {clock : Clock ι}

theorem call_file (c : AssertCall ι) : (s.call env lib clock c).file =
    (s.resolveAll env lib (s.brain.mentions c).args (s.brain.mentions c).mentions).file := rfl

theorem call_brain (c : AssertCall ι) :
    (s.call env lib clock c).brain = (s.brain.outcome env lib clock c).1 := rfl

theorem unchanged_of_brain {c : AssertCall ι}
    (hbrain : (s.brain.outcome env lib clock c).1 = s.brain)
    (hfile : (s.call env lib clock c).file = s.file) : s.Unchanged (s.call env lib clock c) where
  file := hfile
  runtimeEntities := by rw [call_brain, hbrain]
  store := by rw [call_brain, hbrain]

/-- **Refusals.**  A call that is refused leaves the file, the created entities and the graph as
they were exactly when a call that alters something is not refused. -/
theorem unchangedOnRefusal_iff (env : Env) (lib : TextLibrary) (clock : Clock ι) (s : FiledBrain ι)
    (c : AssertCall ι) :
    s.UnchangedOnRefusal env lib clock c ↔ s.brain.AltersOnSuccess env lib c := by
  rcases s.brain.mentions_nil_or_pair c with hnil | ⟨x, y, hpair⟩
  · obtain ⟨e, he⟩ := AssertingBrain.outcome_of_no_mentions env lib clock hnil
    refine iff_of_true (fun _ _ _ => unchanged_of_brain (congrArg Prod.fst he) ?_)
      (by simp [AssertingBrain.AltersOnSuccess, hnil])
    rw [call_file, hnil]
    rfl
  have hends := AssertingBrain.ends_of_mentions env lib clock hpair
  have hfile : ∀ hnot hnot', (s.call env lib clock c).file = s.file := fun hnot hnot' => by
    rw [call_file, hpair]
    exact file_resolveAll_pair hends.subjectType hnot hnot'
  unfold AssertingBrain.AltersOnSuccess
  rw [hpair]
  dsimp only
  rcases AssertingBrain.resolveBoth_cases env lib s.brain (s.brain.mentions c).args
    hends.subjectType hends.objectType with ⟨hnot, e, hboth⟩ | ⟨hres, hnot, e, hboth, hrefused⟩ |
      ⟨hres, hres', s', o, hboth⟩
  · -- the subject is not resolved, and nothing is altered
    have hcall := hends.error _ e hboth
    refine iff_of_true (fun _ _ _ => unchanged_of_brain (congrArg Prod.fst hcall) ?_)
      ⟨fun halters => absurd halters.resolvable hnot, fun hres => absurd hres hnot⟩
    exact hfile (fun halters => hnot halters.resolvable) fun hres => absurd hres hnot
  · -- the object is not resolved
    have hcall := hends.error _ e hboth
    constructor
    · intro h
      refine ⟨fun halters hrefuses => ?_, fun _ hres' => absurd hres' hnot⟩
      have hsame := (h e (congrArg Prod.snd hcall) (hrefused.2 hrefuses)).runtimeEntities
      rw [call_brain, hcall] at hsame
      exact AssertingBrain.not_alters_of_same (hsame) halters
    · rintro ⟨hobject, -⟩ e' he' hkind
      rw [hcall] at he'
      cases he'
      have hnone : ¬ s.brain.Alters env lib (s.brain.mentions c).args x := fun halters =>
        hobject halters (hrefused.1 hkind)
      refine unchanged_of_brain ?_ (hfile hnone fun _ halters => hnot halters.resolvable)
      rw [hcall]
      exact (AssertingBrain.taught_of_not_alters hnone).1
  · -- both are resolved, and the types are checked
    by_cases hpass : s.brain.PassesTypes env lib c
    · obtain ⟨r, hr⟩ := hends.passes _ s' o hboth hpass
      refine iff_of_true (fun e he => ?_)
        ⟨fun _ hrefuses => hrefuses.not_resolvable hres', fun _ _ _ => hpass⟩
      rw [hr] at he
      cases he
    · obtain ⟨e, hcall, hkind⟩ := hends.fails _ s' o hboth hpass
      constructor
      · intro h
        have hsame := (h e (congrArg Prod.snd hcall) hkind).runtimeEntities
        rw [call_brain, hcall] at hsame
        refine ⟨fun _ hrefuses => hrefuses.not_resolvable hres', fun _ _ halters => ?_⟩
        exact absurd halters (AssertingBrain.not_alters_of_same_both hsame)
      · rintro ⟨-, htypes⟩ e' - -
        have hnone : ¬ (s.brain.Alters env lib (s.brain.mentions c).args x ∨
            (s.brain.taught env lib (s.brain.mentions c).args x).Alters env lib
              (s.brain.mentions c).args y) := fun halters => hpass (htypes hres hres' halters)
        obtain ⟨hnone, hnone'⟩ := not_or.1 hnone
        refine unchanged_of_brain ?_ (hfile hnone fun _ => hnone')
        rw [hcall]
        exact ((AssertingBrain.taught_of_not_alters hnone').1).trans
          (AssertingBrain.taught_of_not_alters hnone).1

end FiledBrain

/-! ## Dave -/

/-- The people and projects, with their file. -/
def workFiled : FiledBrain (Fin 5) where
  brain := workBrain
  file := .ofOntology workOntology

/-- The call is refused. -/
def refusedAtWork (c : AssertCall (Fin 5)) : Bool :=
  match (workBrain.outcome workEnv .plain newYear c).2 with
  | .error e => decide e.IsRefusal
  | .ok _ => false

theorem not_unchangedOnRefusal {c : AssertCall (Fin 5)} (hrefused : refusedAtWork c = true)
    (hfile : (workFiled.call workEnv .plain newYear c).file ≠ workFiled.file) :
    ¬ workFiled.UnchangedOnRefusal workEnv .plain newYear c := by
  intro h
  unfold refusedAtWork at hrefused
  split at hrefused
  · rename_i e he
    exact hfile (h e he (of_decide_eq_true hrefused)).file
  · cases hrefused

/-- A type that the ontology does not have, and an object of the wrong type: both calls are refused,
and Dave is in the file. -/
theorem refused_calls_create :
    (¬ workFiled.UnchangedOnRefusal workEnv .plain newYear
      (.assertTyped { now := day 0 } ("banana", "dave") "knows" ("person", "alice"))) ∧
    ¬ workFiled.UnchangedOnRefusal workEnv .plain newYear
      (.assert { now := day 0 } "dave" "knows" "spectral") :=
  ⟨not_unchangedOnRefusal (by decide +kernel) (by decide +kernel),
    not_unchangedOnRefusal (by decide +kernel) (by decide +kernel)⟩

end Spectral
