import Spectral.Graph.Reopen

/-!
# Distinct entities

The id of an entity is the digest of its type, a colon and its canonical name.  A colon may also be
in the type or in the name, so one text may be split at several places.

* `Clash` — two pairs of a type and a name are one text, split at two places.
* `entityPreimage_eq_iff` — what is hashed determines the pair, up to a clash.
* `StaysDistinct` — the entities that two assertions name have ids of their own, and the second
  leaves what only the first names as it is.  `staysDistinct_iff`: if and only if none clash.
* `not_clash_of_no_colon` — types without a colon do not clash.
-/

namespace Spectral

open Spectral.Lib

variable {ι : Type}

/-! ## What is hashed -/

/-- What `entity_id` hashes. -/
def entityPreimage (p : String × String) : List UInt8 :=
  entitySalt ++ utf8 p.1 ++ utf8 ":" ++ utf8 p.2

theorem entityId_eq (env : Env) (p : String × String) :
    env.entityId p.1 p.2 = env.blake3 (entityPreimage p) := rfl

/-- The type of the second entity goes on with a colon, and the name of the first one with what
follows there. -/
def Resplit (p q : String × String) : Prop :=
  ∃ w, q.1 = p.1 ++ ":" ++ w ∧ p.2 = w ++ ":" ++ q.2

/-- One text is split into both pairs. -/
def Clash (p q : String × String) : Prop := Resplit p q ∨ Resplit q p

theorem Resplit.toList_eq {p q : String × String} (h : Resplit p q) :
    p.1.toList ++ ':' :: p.2.toList = q.1.toList ++ ':' :: q.2.toList := by
  obtain ⟨w, htype, hname⟩ := h
  rw [htype, hname]
  simp [String.toList_append]

/-- Where two splits of one text differ, the pairs clash. -/
theorem toList_eq_iff {p q : String × String} :
    p.1.toList ++ ':' :: p.2.toList = q.1.toList ++ ':' :: q.2.toList ↔ p = q ∨ Clash p q := by
  have hcolon : (":" : String).toList = [':'] := rfl
  -- the shorter type ends where the other one has a colon
  have hsplit : ∀ {p q : String × String} {more : List Char}, q.1.toList = p.1.toList ++ more →
      ':' :: p.2.toList = more ++ ':' :: q.2.toList → p = q ∨ Resplit p q := by
    intro p q more htype hrest
    cases more with
    | nil =>
      rw [List.append_nil] at htype
      rw [List.nil_append] at hrest
      exact Or.inl (Prod.ext (String.toList_injective htype.symm)
        (String.toList_injective (List.cons.inj hrest).2))
    | cons c w =>
      obtain ⟨rfl, hname⟩ : ':' = c ∧ p.2.toList = w ++ ':' :: q.2.toList := by simpa using hrest
      refine Or.inr ⟨String.ofList w, String.toList_injective ?_, String.toList_injective ?_⟩
      · simp [String.toList_append, hcolon, htype]
      · simp [String.toList_append, hcolon, hname]
  constructor
  · intro h
    rcases List.append_eq_append_iff.1 h with ⟨more, htype, hname⟩ | ⟨more, htype, hname⟩
    · exact (hsplit htype hname).imp_right Or.inl
    · exact (hsplit htype hname).imp Eq.symm Or.inr
  · rintro (rfl | h | h)
    · rfl
    · exact h.toList_eq
    · exact h.toList_eq.symm

/-- What is hashed determines the pair, up to a clash. -/
theorem entityPreimage_eq_iff {p q : String × String} :
    entityPreimage p = entityPreimage q ↔ p = q ∨ Clash p q := by
  have happend : ∀ p : String × String,
      entityPreimage p = entitySalt ++ utf8 (p.1 ++ ":" ++ p.2) := by
    intro p
    simp [entityPreimage, utf8_append]
  have htext : ∀ p : String × String,
      (p.1 ++ ":" ++ p.2).toList = p.1.toList ++ ':' :: p.2.toList := by
    intro p
    simp [String.toList_append]
  rw [happend, happend, List.append_cancel_left_eq, utf8_injective.eq_iff, ← toList_eq_iff, ← htext,
    ← htext]
  exact ⟨congrArg String.toList, fun h => String.toList_injective h⟩

theorem Clash.ne {p q : String × String} (h : Clash p q) : p ≠ q := by
  have hlonger : ∀ {p q : String × String}, Resplit p q → p ≠ q := by
    rintro p q ⟨w, htype, -⟩ rfl
    have hlength := congrArg (fun s => s.toList.length) htype
    simp [String.toList_append] at hlength
  rcases h with h | h
  · exact hlonger h
  · exact (hlonger h).symm

/-- Types without a colon do not clash. -/
theorem not_clash_of_no_colon {p q : String × String} (hp : ':' ∉ p.1.toList)
    (hq : ':' ∉ q.1.toList) : ¬ Clash p q := by
  have hcolon : ∀ {p q : String × String}, Resplit p q → ':' ∈ q.1.toList := by
    rintro p q ⟨w, htype, -⟩
    rw [htype]
    simp [String.toList_append]
  rintro (h | h)
  · exact hq (hcolon h)
  · exact hp (hcolon h)

/-- The digests of what is hashed for two entities do not collide. -/
def Env.NoCollision (env : Env) (p q : String × String) : Prop :=
  env.blake3 (entityPreimage p) = env.blake3 (entityPreimage q) → entityPreimage p = entityPreimage q

instance (env : Env) (p q : String × String) : Decidable (env.NoCollision p q) :=
  inferInstanceAs (Decidable (_ → _))

/-- The ids of two entities are one if and only if they are one entity, or clash. -/
theorem entityId_eq_iff {env : Env} {p q : String × String} (h : env.NoCollision p q) :
    env.entityId p.1 p.2 = env.entityId q.1 q.2 ↔ p = q ∨ Clash p q := by
  rw [entityId_eq, entityId_eq, ← entityPreimage_eq_iff]
  exact ⟨h, congrArg env.blake3⟩

/-! ## What is left as it is -/

/-- The node of an entity is as it was, and so are the triples a walk finds from it. -/
structure GraphStore.LeavesEntity (id : EntityId) (g g' : GraphStore ι) : Prop where
  node : g'.getEntity id = g.getEntity id
  triples : ∀ outgoing, g'.findTriplesDirected id outgoing = g.findTriplesDirected id outgoing

namespace GraphStore

variable {g g' g'' : GraphStore ι} {id : EntityId}

theorem LeavesEntity.refl (id : EntityId) (g : GraphStore ι) : LeavesEntity id g g :=
  ⟨rfl, fun _ => rfl⟩

theorem LeavesEntity.trans (h : LeavesEntity id g g') (h' : LeavesEntity id g' g'') :
    LeavesEntity id g g'' :=
  ⟨h'.node.trans h.node, fun outgoing => (h'.triples outgoing).trans (h.triples outgoing)⟩

/-- The node of another entity is not touched. -/
theorem leavesEntity_upsertEntity {e : Entity ι} (h : e.id ≠ id) :
    LeavesEntity id g (g.upsertEntity e) := by
  refine ⟨Option.ext fun a => ?_, fun _ => rfl⟩
  rw [getEntity_eq_some, getEntity_eq_some]
  refine exists_congr fun r => ?_
  rw [mem_upsertEntity]
  constructor
  · rintro ⟨⟨hr, -⟩ | ⟨old, -, -, rfl⟩ | ⟨-, rfl⟩, hid, hrow⟩
    · exact ⟨hr, hid, hrow⟩
    · exact absurd hid h
    · exact absurd hid h
  · rintro ⟨hr, hid, hrow⟩
    exact ⟨Or.inl ⟨hr, fun heq => h (heq.symm.trans hid)⟩, hid, hrow⟩

/-- A triple between other entities is not found from this one. -/
theorem leavesEntity_of_stored {t : Triple ι} (hentities : g'.entities = g.entities)
    (hstored : g'.stored = g.stored ∨ g'.stored = g.stored ++ [t])
    (hends : ∀ outgoing, t.near outgoing ≠ id) : LeavesEntity id g g' := by
  refine ⟨by unfold getEntity; rw [hentities], fun outgoing => ?_⟩
  show g'.stored.filter _ = g.stored.filter _
  rcases hstored with h | h
  · rw [h]
  · rw [h, List.filter_append, List.filter_cons_of_neg (by simpa using hends outgoing),
      List.filter_nil, List.append_nil]

theorem stored_insertTriple (t : Triple ι) (g : GraphStore ι) :
    (g.insertTriple t).stored = g.stored ∨ (g.insertTriple t).stored = g.stored ++ [t] := by
  unfold stored
  rw [triples_insertTriple]
  split
  · exact Or.inr (by rw [List.map_append]; rfl)
  · exact Or.inl rfl

theorem stored_retireOthers (g : GraphStore ι) (fromId : EntityId) (predicate : String)
    (toId : EntityId) (stamp : String) (rowid : ℕ) (agent : Option String) :
    (g.retireOthers fromId predicate toId stamp rowid agent).1.stored = g.stored := by
  unfold stored
  rw [triples_retireOthers, List.map_map]
  exact List.map_congr_left fun r _ => retired_triple _ _ _ _ _ _ r

/-- What is retired stays stored. -/
theorem stored_insertTripleSuperseding [LinearOrder ι] (clock : Clock ι) (t : Triple ι) (n : ℕ)
    (g : GraphStore ι) : (g.insertTripleSuperseding clock t n).1.stored = g.stored ∨
      (g.insertTripleSuperseding clock t n).1.stored = g.stored ++ [t] := by
  unfold insertTripleSuperseding insertTripleSupersedingBy
  split
  · exact Or.inl rfl
  · dsimp only
    rw [stored_retireOthers]
    exact stored_insertTriple t g

end GraphStore

namespace AssertingBrain

variable {env : Env} {lib : TextLibrary} {b b' : AssertingBrain ι} {args : AssertArgs ι}

variable [LinearOrder ι] {clock : Clock ι}

/-- A triple is written between two entities: every other one is left as it is. -/
theorem leavesEntity_writeTripleWithDoc {id : EntityId} {s o : MatchedMention} {predicate : String}
    {sourceDocId : Option Bytes32} (hs : s.entityId ≠ id) (ho : o.entityId ≠ id) :
    GraphStore.LeavesEntity id b.store
      (b.writeTripleWithDoc clock args s predicate o sourceDocId).1.store := by
  have hupserts : GraphStore.LeavesEntity id b.store
      ((b.store.upsertEntity (endRow args s)).upsertEntity (endRow args o)) :=
    (GraphStore.leavesEntity_upsertEntity hs).trans (GraphStore.leavesEntity_upsertEntity ho)
  refine hupserts.trans ?_
  unfold writeTripleWithDoc
  dsimp only
  split
  · refine GraphStore.leavesEntity_of_stored
      (GraphStore.adds_insertTripleSuperseding clock _ _ _).entities
      (GraphStore.stored_insertTripleSuperseding clock _ _ _) fun outgoing => ?_
    cases outgoing
    · exact ho
    · exact hs
  · refine GraphStore.leavesEntity_of_stored (GraphStore.adds_insertTriple _ _).entities
      (GraphStore.stored_insertTriple _ _) fun outgoing => ?_
    cases outgoing
    · exact ho
    · exact hs

/-- What a call comes to: an error that leaves the graph as it is, or a triple between two
entities that have their own ids. -/
inductive Written (env : Env) (clock : Clock ι) (b : AssertingBrain ι) :
    AssertingBrain ι × Except AssertError AssertResult → Prop
  | refused {b' : AssertingBrain ι} {e : AssertError} (hsame : SameGraph b b') :
    Written env clock b (b', .error e)
  | written {b' : AssertingBrain ι} {args : AssertArgs ι} {s o : MatchedMention} {predicate : String}
      {sourceDocId : Option Bytes32} (hsame : SameGraph b b')
      (hs : s.entityId = env.entityId s.entityType s.canonical)
      (ho : o.entityId = env.entityId o.entityType o.canonical) :
    Written env clock b (b'.writeTripleWithDoc clock args s predicate o sourceDocId)

theorem written_assertTypedWithDoc (b : AssertingBrain ι) (subject : String × String)
    (predicate : String) (object : String × String) (sourceDocId : Option Bytes32) :
    Written env clock b
      (b.assertTypedWithDoc env lib clock args subject predicate object sourceDocId) := by
  obtain ⟨hsame, hends⟩ := resolveBoth_spec env lib args b subject.2 (.ok subject.1) object.2
    (.ok object.1)
  unfold assertTypedWithDoc
  split
  · exact .refused ⟨rfl, rfl⟩
  · split
    · rename_i hboth
      rw [hboth] at hsame
      exact .refused hsame
    · rename_i s o hboth
      rw [hboth] at hsame hends
      obtain ⟨-, hs, ho⟩ := hends s o rfl
      split
      · exact .written hsame hs ho
      · split
        · exact .refused hsame
        · exact .written hsame hs ho

variable (env lib clock) in
/-- **Every call.** -/
theorem written_outcome (b : AssertingBrain ι) (c : AssertCall ι) :
    Written env clock b (b.outcome env lib clock c) := by
  cases c with
  | assert args subject predicate object =>
    show Written env clock b (b.assert env lib clock args subject predicate object)
    unfold assert
    split
    · exact .refused ⟨rfl, rfl⟩
    · split
      · exact .refused ⟨rfl, rfl⟩
      · rename_i p hp
        obtain ⟨hsame, hends⟩ := resolveBoth_spec env lib args b subject
          (inferSingleType subject (some p.domain) predicate) object
          (inferSingleType object (some p.range) predicate)
        split
        · rename_i hboth
          rw [hboth] at hsame
          exact .refused hsame
        · rename_i s o hboth
          rw [hboth] at hsame hends
          obtain ⟨-, hs, ho⟩ := hends s o rfl
          split
          · exact .refused hsame
          · exact .written hsame hs ho
  | assertTyped args subject predicate object =>
    exact written_assertTypedWithDoc b subject predicate object none
  | assertTypedFrom args memoryId subject predicate object =>
    show Written env clock b
      (b.assertTypedFrom env lib clock args memoryId subject predicate object)
    unfold assertTypedFrom
    split
    · exact .refused ⟨rfl, rfl⟩
    · exact written_assertTypedWithDoc b subject predicate object _

/-! ## Two assertions -/

variable (env lib clock) in
/-- The entities that a call names, by their types and canonical names: those that its mentions
resolved to.  A call that is refused names none. -/
def named (b : AssertingBrain ι) (c : AssertCall ι) : List (String × String) :=
  match (b.outcome env lib clock c).2 with
  | .ok r => [r.subject.key, r.object.key]
  | .error _ => []

/-- A call leaves every entity as it is whose id is none of the entities it names. -/
theorem leavesEntity_outcome {c : AssertCall ι} {id : EntityId}
    (h : ∀ q ∈ b.named env lib clock c, env.entityId q.1 q.2 ≠ id) :
    GraphStore.LeavesEntity id b.store (b.outcome env lib clock c).1.store := by
  have hwritten := written_outcome env lib clock b c
  unfold named at h
  generalize b.outcome env lib clock c = out at h hwritten
  cases hwritten with
  | refused hsame =>
    rw [hsame.1]
    exact .refl id b.store
  | @written b' args s o predicate sourceDocId hsame hs ho =>
    have hsubject : s.entityId ≠ id := hs ▸ h s.key List.mem_cons_self
    have hobject : o.entityId ≠ id := ho ▸ h o.key (List.mem_cons_of_mem _ List.mem_cons_self)
    rw [← hsame.1]
    exact leavesEntity_writeTripleWithDoc hsubject hobject

/-- Of the entities that two assertions name, those with another type or name have another id, and
the second assertion leaves the node and the triples of those as they are that it does not name. -/
structure StaysDistinct (env : Env) (lib : TextLibrary) (clock : Clock ι) (b₁ : AssertingBrain ι)
    (c₁ : AssertCall ι) (b₂ : AssertingBrain ι) (c₂ : AssertCall ι) : Prop where
  ids : ∀ p ∈ b₁.named env lib clock c₁, ∀ q ∈ b₂.named env lib clock c₂, p ≠ q →
    env.entityId p.1 p.2 ≠ env.entityId q.1 q.2
  graph : ∀ p ∈ b₁.named env lib clock c₁, p ∉ b₂.named env lib clock c₂ →
    GraphStore.LeavesEntity (env.entityId p.1 p.2) b₂.store (b₂.outcome env lib clock c₂).1.store

/-- **Any two assertions**, on any states of a brain: the entities that they name stay distinct if
and only if none of them clash. -/
theorem staysDistinct_iff (env : Env) (lib : TextLibrary) (clock : Clock ι)
    (b₁ b₂ : AssertingBrain ι) (c₁ c₂ : AssertCall ι)
    (hfree : ∀ p ∈ b₁.named env lib clock c₁, ∀ q ∈ b₂.named env lib clock c₂,
      env.NoCollision p q) :
    StaysDistinct env lib clock b₁ c₁ b₂ c₂ ↔
      ∀ p ∈ b₁.named env lib clock c₁, ∀ q ∈ b₂.named env lib clock c₂, ¬ Clash p q := by
  constructor
  · intro h p hp q hq hclash
    exact h.ids p hp q hq hclash.ne ((entityId_eq_iff (hfree p hp q hq)).2 (Or.inr hclash))
  · intro h
    have hids : ∀ p ∈ b₁.named env lib clock c₁, ∀ q ∈ b₂.named env lib clock c₂, p ≠ q →
        env.entityId p.1 p.2 ≠ env.entityId q.1 q.2 := by
      intro p hp q hq hne hid
      rcases (entityId_eq_iff (hfree p hp q hq)).1 hid with heq | hclash
      · exact hne heq
      · exact h p hp q hq hclash
    refine ⟨hids, fun p hp hother => leavesEntity_outcome fun q hq hid => ?_⟩
    exact hids p hp q hq (fun heq => hother (heq ▸ hq)) hid.symm

end AssertingBrain

/-! ## Two entities in one node -/

/-- Carol is introduced, and then works on a project. -/
theorem introductions_distinct : AssertingBrain.StaysDistinct workEnv .plain newYear workBrain
    (.assertTyped { now := day 1 } ("person", "carol") "knows" ("person", "alice"))
    (workBrain.call workEnv .plain newYear
      (.assertTyped { now := day 1 } ("person", "carol") "knows" ("person", "alice")))
    (.assert { now := day 2 } "carol" "works_on" "spectral") := by
  refine (AssertingBrain.staysDistinct_iff workEnv .plain newYear workBrain _ _ _
    (by decide +kernel)).2 fun p hp q hq => ?_
  have hplain : ∀ p ∈ workBrain.named workEnv .plain newYear
      (.assertTyped { now := day 1 } ("person", "carol") "knows" ("person", "alice")),
      ':' ∉ p.1.toList := by decide +kernel
  have hplain' : ∀ p ∈ (workBrain.call workEnv .plain newYear
      (.assertTyped { now := day 1 } ("person", "carol") "knows" ("person", "alice"))).named workEnv
        .plain newYear (.assert { now := day 2 } "carol" "works_on" "spectral"),
      ':' ∉ p.1.toList := by decide +kernel
  exact not_clash_of_no_colon (hplain p hp) (hplain' q hq)

/-- Alice, and an id for one text that splits in two ways. -/
def splitEnv : Env := .ofRecords
  [(entityPreimage ("person", "alice"), 1), (entityPreimage ("note", "todo:milk"), 2)] []

/-- A note that Alice likes. -/
def likesNote : AssertCall (Fin 5) :=
  .assertTyped { now := day 0 } ("person", "alice") "likes" ("note", "todo:milk")

/-- A note to do that Alice likes. -/
def likesTodo : AssertCall (Fin 5) :=
  .assertTyped { now := day 1 } ("person", "alice") "likes" ("note:todo", "milk")

/-- The second note is written into the node of the first one. -/
theorem note_rewritten :
    (∀ p ∈ workBrain.named splitEnv .plain newYear likesNote,
      ∀ q ∈ (workBrain.call splitEnv .plain newYear likesNote).named splitEnv .plain newYear likesTodo,
        splitEnv.NoCollision p q) ∧
    ¬ AssertingBrain.StaysDistinct splitEnv .plain newYear workBrain likesNote
      (workBrain.call splitEnv .plain newYear likesNote) likesTodo := by
  refine ⟨by decide +kernel, fun h => ?_⟩
  have hnote : ("note", "todo:milk") ∈ workBrain.named splitEnv .plain newYear likesNote := by
    decide +kernel
  have htodo : ("note:todo", "milk") ∈
      (workBrain.call splitEnv .plain newYear likesNote).named splitEnv .plain newYear likesTodo := by
    decide +kernel
  exact h.ids _ hnote _ htodo (by decide) (by decide +kernel)

end Spectral
