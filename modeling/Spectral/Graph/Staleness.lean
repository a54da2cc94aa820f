import Mathlib.Data.List.Lex
import Mathlib.Data.Prod.Lex
import Spectral.Lib.Grouping
import Spectral.Lib.Ranking
import Spectral.Graph.Assert
import Spectral.Graph.Superseding

/-!
# Slots with several objects

A slot that is not functional can have several live objects, and what to make of them needs judgement.
The detection selects the slots with several live rows, takes as many of them as the limit allows, and
leaves out those that are functional.

* `multiValuedLiveGroups`, `detectCandidates` — the query with its loop, and the detection.
* `Contested` — the slot is not functional and has two live objects: what is to be detected.
* `slots_detectCandidates` — what is detected: of the first slots with several live rows, those that
  are not functional.
* `detect_exact_iff` — that is as many contested slots as the limit allows exactly if none of the
  slots it takes repeats one object only, and none is functional as long as there are contested
  ones behind the limit.
-/

namespace Spectral

open Spectral.Lib

/-- A slot: a subject and a predicate. -/
structure Slot where
  subject : EntityId
  predicate : String

namespace Slot

/-- The two columns, as they are compared: the blob by its bytes, then the text. -/
def columns (slot : Slot) : List ℕ ×ₗ String :=
  toLex (slot.subject.toList.map UInt8.toNat, slot.predicate)

theorem columns_injective : Function.Injective columns := by
  rintro ⟨subject, predicate⟩ ⟨subject', predicate'⟩ h
  obtain ⟨hbytes, hpredicate⟩ := Prod.mk.inj (toLex.injective h)
  have hsubject : subject = subject' :=
    Vector.toList_inj.1 (List.map_injective_iff.2 (fun _ _ h => UInt8.toNat_inj.1 h) hbytes)
  exact congr (congrArg mk hsubject) hpredicate

instance : LinearOrder Slot := LinearOrder.lift' columns columns_injective

end Slot

/-- The slot of a triple. -/
def Triple.slot {ι : Type} (t : Triple ι) : Slot := ⟨t.fromId, t.predicate⟩

theorem Triple.slot_eq_iff {ι : Type} {t : Triple ι} {slot : Slot} :
    t.slot = slot ↔ t.InSlot slot.subject slot.predicate := by
  obtain ⟨subject, predicate⟩ := slot
  exact ⟨fun h => ⟨congrArg Slot.subject h, congrArg Slot.predicate h⟩,
    fun ⟨hsubject, hpredicate⟩ => congr (congrArg Slot.mk hsubject) hpredicate⟩

/-- `LiveSlot`. -/
structure LiveSlot (ι : Type) where
  slot : Slot
  objects : List (ℕ × EntityId × ι)

/-- `CandidateObject`. -/
structure CandidateObject (ι : Type) where
  rowid : ℕ
  object : EntityId
  objectCanonical : String
  assertedAt : ι

/-- `SupersessionCandidate`. -/
structure SupersessionCandidate (ι : Type) where
  slot : Slot
  subjectCanonical : String
  subjectType : String
  objects : List (CandidateObject ι)

/-! ## Detection -/

section

variable {ι : Type} [LinearOrder ι] (clock : Clock ι)

namespace GraphStore

variable (g : GraphStore ι)

/-- `HAVING COUNT(*) > 1`: the slot has several live rows. -/
def Crowded (slot : Slot) : Prop :=
  1 < g.triples.countP fun r => decide r.Live && decide (r.triple.slot = slot)

instance (slot : Slot) : Decidable (g.Crowded slot) := inferInstanceAs (Decidable (1 < _))

/-- The slot of a row with its id. -/
def rowSlot (p : TripleRow ι × ℕ) : Slot := p.1.triple.slot

/-- `ORDER BY from_id, predicate, asserted_at, rowid`. -/
def rowOrder (p : TripleRow ι × ℕ) : Slot ×ₗ String ×ₗ ℕ :=
  toLex (rowSlot p, toLex (clock.toRfc3339 p.1.triple.assertedAt, p.2))

/-- The rows the query returns, with their ids. -/
def crowdedRows : List (TripleRow ι × ℕ) :=
  ((g.triples.zipIdx 1).filter fun p => decide p.1.Live && decide (g.Crowded (rowSlot p))).insertionSort
    fun p q => rowOrder clock p ≤ rowOrder clock q

/-- What the loop makes of the rows of a slot. -/
def liveSlot (slot : Slot) (rows : List (TripleRow ι × ℕ)) : LiveSlot ι :=
  ⟨slot, rows.map fun p => (p.2, p.1.triple.toId, p.1.triple.assertedAt)⟩

/-- `multi_valued_live_groups`: neighbours of one slot are grouped, and a group too many ends the
loop. -/
def multiValuedLiveGroups (limit : ℕ) : List (LiveSlot ι) :=
  (((g.crowdedRows clock).splitBy fun p q => rowSlot p = rowSlot q).take limit).filterMap fun rows =>
    rows.head?.map fun p => liveSlot (rowSlot p) rows

end GraphStore

namespace AssertingBrain

variable (b : AssertingBrain ι)

/-- The type of a subject; empty if the entity is missing. -/
def subjectType (id : EntityId) : String := ((b.store.getEntity id).map Entity.entityType).getD ""

/-- The canonical name of an entity; empty if it is missing. -/
def canonicalOf (id : EntityId) : String := ((b.store.getEntity id).map Entity.canonical).getD ""

/-- The slot belongs to a predicate that is declared functional for the type of its subject. -/
def FunctionalSlot (slot : Slot) : Prop :=
  b.ontology.predicateIsSingleValued slot.predicate (b.subjectType slot.subject) = true

instance (slot : Slot) : Decidable (b.FunctionalSlot slot) := inferInstanceAs (Decidable (_ = true))

/-- The candidate for a slot. -/
def candidate (live : LiveSlot ι) : SupersessionCandidate ι :=
  { slot := live.slot, subjectCanonical := b.canonicalOf live.slot.subject
    subjectType := b.subjectType live.slot.subject
    objects := live.objects.map fun o => ⟨o.1, o.2.1, b.canonicalOf o.2.1, o.2.2⟩ }

/-- `detect_candidates`. -/
def detectCandidates (limit : ℕ) : List (SupersessionCandidate ι) :=
  (b.store.multiValuedLiveGroups clock limit).filterMap fun live =>
    if b.FunctionalSlot live.slot then none else some (b.candidate live)

end AssertingBrain

/-! ## What is detected -/

namespace GraphStore

variable {clock : Clock ι} {g : GraphStore ι} {slot : Slot}

theorem mem_crowdedRows {p : TripleRow ι × ℕ} :
    p ∈ g.crowdedRows clock ↔
      p ∈ g.triples.zipIdx 1 ∧ p.1.Live ∧ g.Crowded (rowSlot p) := by
  rw [crowdedRows, List.mem_insertionSort, List.mem_filter, Bool.and_eq_true, decide_eq_true_iff,
    decide_eq_true_iff]

/-- The query returns the rows in the order of their slots. -/
theorem pairwise_rowSlot_crowdedRows :
    ((g.crowdedRows clock).map rowSlot).Pairwise (· ≤ ·) := by
  refine List.pairwise_map.2 ((pairwise_sort_key (rowOrder clock) _).imp fun {p q} h => ?_)
  rcases (Prod.Lex.toLex_le_toLex.1 h) with hlt | ⟨heq, -⟩
  · exact hlt.le
  · exact heq.le

variable (clock g) in
/-- The slots with several live rows, in order. -/
def crowdedSlots : List Slot := ((g.crowdedRows clock).map rowSlot).dedup

theorem nodup_crowdedSlots : (g.crowdedSlots clock).Nodup := List.nodup_dedup _

theorem mem_crowdedSlots : slot ∈ g.crowdedSlots clock ↔ g.Crowded slot := by
  rw [crowdedSlots, List.mem_dedup, List.mem_map]
  constructor
  · rintro ⟨p, hp, rfl⟩
    exact (mem_crowdedRows.1 hp).2.2
  · intro h
    obtain ⟨r, hr, hlive⟩ := List.countP_pos_iff.1 (Nat.zero_lt_of_lt h)
    obtain ⟨hlive, hslot⟩ := Bool.and_eq_true_iff.1 hlive
    obtain ⟨i, hi, rfl⟩ := List.mem_iff_getElem.1 hr
    have hslot : g.triples[i].triple.slot = slot := of_decide_eq_true hslot
    refine ⟨(g.triples[i], 1 + i), mem_crowdedRows.2 ⟨?_, of_decide_eq_true hlive, ?_⟩, hslot⟩
    · exact List.mk_add_mem_zipIdx_iff_getElem?.2 (List.getElem?_eq_getElem hi)
    · show g.Crowded g.triples[i].triple.slot
      rw [hslot]
      exact h

/-- **The groups**: of each of the first slots, all its live rows. -/
theorem multiValuedLiveGroups_eq (limit : ℕ) : g.multiValuedLiveGroups clock limit =
    ((g.crowdedSlots clock).take limit).map fun slot =>
      liveSlot slot (withKey rowSlot (g.crowdedRows clock) slot) := by
  unfold multiValuedLiveGroups
  rw [splitBy_eq_map_dedup pairwise_rowSlot_crowdedRows, ← List.map_take, List.filterMap_map]
  refine (List.filterMap_congr fun slot hslot => ?_).trans (congrFun List.filterMap_eq_map _)
  have hin := List.mem_of_mem_take hslot
  obtain ⟨p, hp, hps⟩ := List.mem_map.1 (List.mem_dedup.1 hin)
  obtain ⟨q, hq⟩ := Option.ne_none_iff_exists'.1 (List.head?_eq_none_iff.not.2
    (List.ne_nil_of_mem (mem_withKey.2 ⟨hp, hps⟩)))
  rw [Function.comp_apply, hq, Option.map_some, (mem_withKey.1 (List.mem_of_mem_head? hq)).2]
  rfl

end GraphStore

namespace AssertingBrain

variable {clock : Clock ι} {b : AssertingBrain ι} {slot : Slot} {limit : ℕ}

/-- **What is detected**: the first slots with several live rows, without those that are functional. -/
theorem detectCandidates_eq (limit : ℕ) : b.detectCandidates clock limit =
    (((b.store.crowdedSlots clock).take limit).filter fun slot => ¬ b.FunctionalSlot slot).map
      fun slot => b.candidate (GraphStore.liveSlot slot
        (withKey GraphStore.rowSlot (b.store.crowdedRows clock) slot)) := by
  unfold detectCandidates
  rw [GraphStore.multiValuedLiveGroups_eq, List.filterMap_map, ← List.filterMap_eq_filter,
    List.map_filterMap]
  refine List.filterMap_congr fun slot _ => ?_
  by_cases h : b.FunctionalSlot slot <;> simp [GraphStore.liveSlot, h, Option.guard]

theorem slots_detectCandidates (limit : ℕ) :
    (b.detectCandidates clock limit).map SupersessionCandidate.slot =
      ((b.store.crowdedSlots clock).take limit).filter fun slot => ¬ b.FunctionalSlot slot := by
  rw [detectCandidates_eq, List.map_map]
  exact List.map_id'' (fun _ => rfl) _

/-- The objects of a candidate are the live ones of its slot. -/
theorem mem_objects_candidate {c : SupersessionCandidate ι} (hc : c ∈ b.detectCandidates clock limit)
    {o : EntityId} : (∃ x ∈ c.objects, x.object = o) ↔
      o ∈ b.store.liveObjects c.slot.subject c.slot.predicate := by
  rw [detectCandidates_eq] at hc
  obtain ⟨slot, hslot, rfl⟩ := List.mem_map.1 hc
  have hcrowded : b.store.Crowded slot :=
    GraphStore.mem_crowdedSlots.1 (List.mem_of_mem_take (List.mem_filter.1 hslot).1)
  have hobject : (∃ x ∈ (b.candidate (GraphStore.liveSlot slot (withKey GraphStore.rowSlot
      (b.store.crowdedRows clock) slot))).objects, x.object = o) ↔
        ∃ p ∈ withKey GraphStore.rowSlot (b.store.crowdedRows clock) slot, p.1.triple.toId = o := by
    simp only [candidate, GraphStore.liveSlot, List.map_map, List.mem_map, exists_exists_and_eq_and,
      Function.comp_apply]
  rw [hobject, GraphStore.mem_liveObjects]
  constructor
  · rintro ⟨p, hp, rfl⟩
    obtain ⟨hp, hslot⟩ := mem_withKey.1 hp
    obtain ⟨hin, hlive, -⟩ := GraphStore.mem_crowdedRows.1 hp
    exact ⟨p.1, List.fst_mem_of_mem_zipIdx hin, Triple.slot_eq_iff.1 hslot, hlive, rfl⟩
  · rintro ⟨r, hr, hin, hlive, rfl⟩
    obtain ⟨i, hi, rfl⟩ := List.mem_iff_getElem.1 hr
    have hslot : b.store.triples[i].triple.slot = slot := Triple.slot_eq_iff.2 hin
    refine ⟨(b.store.triples[i], 1 + i), mem_withKey.2 ⟨GraphStore.mem_crowdedRows.2
      ⟨List.mk_add_mem_zipIdx_iff_getElem?.2 (List.getElem?_eq_getElem hi), hlive, ?_⟩, hslot⟩, rfl⟩
    show b.store.Crowded b.store.triples[i].triple.slot
    rw [hslot]
    exact hcrowded

/-! ## What is to be detected -/

variable (b) in
/-- The slot is not functional, and has two live objects. -/
def Contested (slot : Slot) : Prop :=
  ¬ b.FunctionalSlot slot ∧ ∃ o ∈ b.store.liveObjects slot.subject slot.predicate,
    ∃ o' ∈ b.store.liveObjects slot.subject slot.predicate, o ≠ o'

instance (slot : Slot) : Decidable (b.Contested slot) := inferInstanceAs (Decidable (_ ∧ _))

variable (b) in
/-- The slots that have a live row. -/
def liveSlots : List Slot :=
  ((b.store.triples.filter fun r => r.Live).map fun r => r.triple.slot).dedup

variable (b) in
/-- The slots that are to be detected. -/
def contestedSlots : List Slot := b.liveSlots.filter fun slot => b.Contested slot

omit [LinearOrder ι] in
theorem Contested.crowded (h : b.Contested slot) : b.store.Crowded slot := by
  obtain ⟨-, o, ho, o', ho', hne⟩ := h
  obtain ⟨r, hr, hslot, hlive, rfl⟩ := GraphStore.mem_liveObjects.1 ho
  obtain ⟨r', hr', hslot', hlive', rfl⟩ := GraphStore.mem_liveObjects.1 ho'
  have hcounted : ∀ {r : TripleRow ι}, r ∈ b.store.triples → r.Live →
      r.triple.InSlot slot.subject slot.predicate → r ∈ b.store.triples.filter fun r =>
        decide r.Live && decide (r.triple.slot = slot) := fun hr hlive hin =>
    List.mem_filter.2 ⟨hr, Bool.and_eq_true_iff.2
      ⟨decide_eq_true hlive, decide_eq_true (Triple.slot_eq_iff.2 hin)⟩⟩
  have hin := hcounted hr hlive hslot
  have hin' := hcounted hr' hlive' hslot'
  unfold GraphStore.Crowded
  rw [List.countP_eq_length_filter]
  generalize b.store.triples.filter _ = rows at hin hin' ⊢
  match rows with
  | [] => exact absurd hin List.not_mem_nil
  | [x] => exact absurd (by rw [List.mem_singleton.1 hin, List.mem_singleton.1 hin']) hne
  | _ :: _ :: rows => exact Nat.one_lt_succ_succ _

omit [LinearOrder ι] in
theorem mem_contestedSlots : slot ∈ b.contestedSlots ↔ b.Contested slot := by
  rw [contestedSlots, List.mem_filter, decide_eq_true_iff, and_iff_right_of_imp]
  intro h
  obtain ⟨o, ho, -⟩ := h.2
  obtain ⟨r, hr, hin, hlive, -⟩ := GraphStore.mem_liveObjects.1 ho
  exact List.mem_dedup.2 (List.mem_map.2
    ⟨r, List.mem_filter.2 ⟨hr, decide_eq_true hlive⟩, Triple.slot_eq_iff.2 hin⟩)

variable (clock) in
/-- The contested slots are among those with several live rows. -/
theorem length_contestedSlots : b.contestedSlots.length =
    ((b.store.crowdedSlots clock).filter fun slot => b.Contested slot).length := by
  have hnodup : b.contestedSlots.Nodup := (List.nodup_dedup _).filter _
  refine List.Perm.length_eq ((List.perm_ext_iff_of_nodup hnodup
    (GraphStore.nodup_crowdedSlots.filter _)).2 fun slot => ?_)
  rw [mem_contestedSlots, List.mem_filter, decide_eq_true_iff]
  exact ⟨fun h => ⟨GraphStore.mem_crowdedSlots.2 h.crowded, h⟩, And.right⟩

variable (clock b) in
/-- The detection with this limit finds as many contested slots as the limit allows, each once; all
of them, if the limit is at least the number of live slots. -/
structure DetectsExactly (limit : ℕ) : Prop where
  nodup : ((b.detectCandidates clock limit).map SupersessionCandidate.slot).Nodup
  contested : ∀ slot ∈ (b.detectCandidates clock limit).map SupersessionCandidate.slot,
    b.Contested slot
  number : (b.detectCandidates clock limit).length = min limit b.contestedSlots.length
  all : b.liveSlots.length ≤ limit → ∀ slot, b.Contested slot →
    slot ∈ (b.detectCandidates clock limit).map SupersessionCandidate.slot

variable (clock b) in
/-- Of the slots with several live rows, none of the first `limit` has one object only, unless it is
functional; and none of them is functional, unless there is no contested slot behind them. -/
structure TakesContested (limit : ℕ) : Prop where
  objects : ∀ slot ∈ (b.store.crowdedSlots clock).take limit, ¬ b.FunctionalSlot slot →
    ∃ o ∈ b.store.liveObjects slot.subject slot.predicate,
      ∃ o' ∈ b.store.liveObjects slot.subject slot.predicate, o ≠ o'
  room : (∀ slot ∈ (b.store.crowdedSlots clock).take limit, ¬ b.FunctionalSlot slot) ∨
    ∀ slot ∈ (b.store.crowdedSlots clock).drop limit, ¬ b.Contested slot

/-- Where the slots it takes have several objects, the detection finds the contested ones in front of
the limit. -/
theorem slots_eq_contested (h : ∀ slot ∈ (b.store.crowdedSlots clock).take limit,
    ¬ b.FunctionalSlot slot → ∃ o ∈ b.store.liveObjects slot.subject slot.predicate,
      ∃ o' ∈ b.store.liveObjects slot.subject slot.predicate, o ≠ o') :
    (b.detectCandidates clock limit).map SupersessionCandidate.slot =
      ((b.store.crowdedSlots clock).take limit).filter fun slot => b.Contested slot := by
  rw [slots_detectCandidates]
  exact List.filter_congr fun slot hslot =>
    decide_eq_decide.2 ⟨fun hfree => ⟨hfree, h slot hslot hfree⟩, And.left⟩

/-- There is room for the contested slots in front of the limit: they are as many as the limit allows
exactly if no place is taken by a functional slot, or none is behind the limit. -/
theorem length_contested_iff_room (h : ∀ slot ∈ (b.store.crowdedSlots clock).take limit,
    ¬ b.FunctionalSlot slot → b.Contested slot) :
    (((b.store.crowdedSlots clock).take limit).filter fun slot => b.Contested slot).length =
        min limit b.contestedSlots.length ↔
      (∀ slot ∈ (b.store.crowdedSlots clock).take limit, ¬ b.FunctionalSlot slot) ∨
        ∀ slot ∈ (b.store.crowdedSlots clock).drop limit, ¬ b.Contested slot := by
  generalize hfront : (b.store.crowdedSlots clock).take limit = front at h ⊢
  generalize hback : (b.store.crowdedSlots clock).drop limit = back
  have htotal : b.contestedSlots.length = (front.filter fun slot => b.Contested slot).length +
      (back.filter fun slot => b.Contested slot).length := by
    rw [length_contestedSlots clock, ← List.length_append, ← List.filter_append, ← hfront,
      ← hback, List.take_append_drop]
  have hlimit : front.length ≤ limit := hfront ▸ List.length_take_le limit _
  have hle := List.length_filter_le (fun slot => decide (b.Contested slot)) front
  have hback0 : (back.filter fun slot => b.Contested slot).length = 0 ↔
      ∀ slot ∈ back, ¬ b.Contested slot := by
    simp [List.length_eq_zero_iff, List.filter_eq_nil_iff]
  have hall : (front.filter fun slot => b.Contested slot).length = front.length ↔
      ∀ slot ∈ front, ¬ b.FunctionalSlot slot := by
    rw [List.length_filter_eq_length_iff]
    exact forall₂_congr fun slot hslot => decide_eq_true_iff.trans ⟨And.left, h slot hslot⟩
  -- a slot behind the limit is there only if the front is full
  have hfull : back ≠ [] → front.length = limit := by
    intro hne
    rw [← hback, ne_eq, List.drop_eq_nil_iff] at hne
    rw [← hfront, List.length_take]
    omega
  rw [← hback0, ← hall]
  constructor
  · omega
  · rintro (hfree | hnone)
    · by_cases hne : back = []
      · rw [hne, List.filter_nil, List.length_nil] at htotal
        omega
      · have := hfull hne
        omega
    · omega

/-- **The detection** finds as many contested slots as the limit allows exactly if the slots it takes
are contested, as far as there are such. -/
theorem detect_exact_iff (clock : Clock ι) (b : AssertingBrain ι) (limit : ℕ) :
    b.DetectsExactly clock limit ↔ b.TakesContested clock limit := by
  constructor
  · intro h
    have hcontested : ∀ slot ∈ (b.store.crowdedSlots clock).take limit, ¬ b.FunctionalSlot slot →
        b.Contested slot := by
      intro slot hslot hfree
      refine h.contested slot ?_
      rw [slots_detectCandidates]
      exact List.mem_filter.2 ⟨hslot, decide_eq_true hfree⟩
    have hobjects := fun slot hslot hfree => (hcontested slot hslot hfree).2
    refine ⟨hobjects, (length_contested_iff_room hcontested).1 ?_⟩
    rw [← slots_eq_contested hobjects, List.length_map]
    exact h.number
  · intro h
    have hslots := slots_eq_contested h.objects
    have hnodup : ((b.detectCandidates clock limit).map SupersessionCandidate.slot).Nodup := by
      rw [hslots]
      exact (GraphStore.nodup_crowdedSlots.sublist (List.take_sublist _ _)).filter _
    have hcontested : ∀ slot ∈ (b.detectCandidates clock limit).map SupersessionCandidate.slot,
        b.Contested slot := by
      rw [hslots]
      exact fun slot hslot => of_decide_eq_true (List.mem_filter.1 hslot).2
    have hnumber : (b.detectCandidates clock limit).length = min limit b.contestedSlots.length := by
      rw [← List.length_map (f := SupersessionCandidate.slot), hslots]
      exact (length_contested_iff_room fun slot hslot hfree =>
        ⟨hfree, h.objects slot hslot hfree⟩).2 h.room
    refine ⟨hnodup, hcontested, hnumber, fun hlimit slot hslot => ?_⟩
    -- as many as there are, each once: all of them
    have hfew : b.contestedSlots.length ≤ b.liveSlots.length := List.length_filter_le _ _
    have hsub : ((b.detectCandidates clock limit).map SupersessionCandidate.slot).Subperm
        b.contestedSlots :=
      List.subperm_of_subset hnodup fun slot hin => mem_contestedSlots.2 (hcontested slot hin)
    refine (hsub.perm_of_length_le ?_).mem_iff.2 (mem_contestedSlots.2 hslot)
    rw [List.length_map, hnumber]
    omega

end AssertingBrain

end

/-! ## One city, asserted twice -/

/-- An ontology without predicates. -/
def noPredicates : PredicateOntology where
  entities := []
  named := by decide
  canonicalsPerType := by decide
  predicates := []
  predicateNames := by decide
  knownTypes := by decide

/-- A brain with this graph; no predicate is functional. -/
def plainBrain (store : GraphStore (Fin 5)) : AssertingBrain (Fin 5) :=
  { ontology := noPredicates, brainId := Env.bytesOf 32 9, memories := {}, store }

/-- A person, a city, and the same triple twice. -/
def twiceAsserted : GraphStore (Fin 5) :=
  run (GraphStore.call newYear) GraphStore.empty
    [.upsertEntity (place 0), .upsertEntity (place 1), .insertTriple (livesIn 1 (day 0)),
      .insertTriple (livesIn 1 (day 1))]

/-- Two rows of one object are detected as a slot with several objects. -/
theorem detected_twice :
    (plainBrain twiceAsserted).liveSlots.length ≤ 1 ∧
      ¬ (plainBrain twiceAsserted).DetectsExactly newYear 1 := by
  have hfound : (⟨Env.bytesOf 32 0, "lives_in"⟩ : Slot) ∈
      ((plainBrain twiceAsserted).detectCandidates newYear 1).map SupersessionCandidate.slot ∧
        ¬ (plainBrain twiceAsserted).Contested ⟨Env.bytesOf 32 0, "lives_in"⟩ := by
    decide +kernel
  exact ⟨by decide +kernel, fun h => hfound.2 (h.contested _ hfound.1)⟩

end Spectral
