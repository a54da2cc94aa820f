import Spectral.Lib.Run
import Spectral.Lib.Table
import Mathlib.Data.List.Sort
import Mathlib.Data.String.Basic

/-!
# The fields of an entity

Fields are written by hand or by an enrichment pass, and what was written by hand is not to be
overwritten by the pass.

* `setEntityField` — one write, and whether it was applied; `getEntityFields` — the fields of an
  entity.
* `winner` — the write that counts among several: the last one by hand, or else the last one.
* `fields_winner` — after any writes each field is the one that counts.
-/

namespace Spectral

open Spectral.Lib

/-- `FieldSource`. -/
inductive FieldSource where
  | manual
  | enriched
  deriving DecidableEq, Repr

/-- `FieldSource::as_str`. -/
def FieldSource.asStr : FieldSource → String
  | .manual => "manual"
  | .enriched => "enriched"

/-- `FieldSource::from_db`: an unknown text is not protected. -/
def FieldSource.fromDb (s : String) : FieldSource := if s = "manual" then .manual else .enriched

theorem FieldSource.fromDb_asStr (s : FieldSource) : fromDb s.asStr = s := by cases s <;> rfl

/-- A row of `entity_fields`. -/
structure EntityFieldRow where
  entityId : String
  fieldName : String
  value : String
  source : String
  sourceUrl : Option String
  updatedAt : String
  deriving DecidableEq

/-- The primary key of `entity_fields`. -/
abbrev EntityFieldRow.pk (r : EntityFieldRow) : String × String := (r.entityId, r.fieldName)

/-- The table `entity_fields`. -/
abbrev EntityFields := Table EntityFieldRow (SameKey EntityFieldRow.pk)

/-- `EntityField`. -/
structure EntityField where
  fieldName : String
  value : String
  source : FieldSource
  sourceUrl : Option String
  updatedAt : String
  deriving DecidableEq

/-- What `get_entity_fields` makes of a row. -/
def EntityFieldRow.field (r : EntityFieldRow) : EntityField where
  fieldName := r.fieldName
  value := r.value
  source := .fromDb r.source
  sourceUrl := r.sourceUrl
  updatedAt := r.updatedAt

/-- The arguments of a call of `set_entity_field`, and the time it is made. -/
structure FieldWrite where
  entityId : String
  fieldName : String
  value : String
  source : FieldSource
  sourceUrl : Option String := none
  now : String
  deriving DecidableEq

/-- The row a write writes. -/
def FieldWrite.row (w : FieldWrite) : EntityFieldRow where
  entityId := w.entityId
  fieldName := w.fieldName
  value := w.value
  source := w.source.asStr
  sourceUrl := w.sourceUrl
  updatedAt := w.now

/-- The field a write writes. -/
def FieldWrite.pk (w : FieldWrite) : String × String := (w.entityId, w.fieldName)

namespace EntityFields

/-- The stored row of a field. -/
def stored (t : EntityFields) (pk : String × String) : Option EntityFieldRow :=
  t.find? fun r => r.pk = pk

/-- `set_entity_field`, and whether the write was applied. -/
def setEntityField (t : EntityFields) (w : FieldWrite) : EntityFields × Bool :=
  let existing := (t.stored w.pk).map EntityFieldRow.source
  if w.source.asStr = "enriched" ∧ existing = some "manual" then (t, false)
  else (t.upsert w.row (fun _ => w.row) fun _ _ => rfl, true)

/-- `get_entity_fields`. -/
def getEntityFields (t : EntityFields) (entityId : String) : List EntityField :=
  ((t.rows.filter fun r => r.entityId = entityId).insertionSort fun a b =>
    a.fieldName ≤ b.fieldName).map EntityFieldRow.field

/-- A stored field that was written by hand. -/
def ByHand (r : Option EntityFieldRow) : Prop := r.map EntityFieldRow.source = some "manual"

instance (r : Option EntityFieldRow) : Decidable (ByHand r) :=
  inferInstanceAs (Decidable (_ = _))

/-- The row that counts after some writes of a field: the last one by hand, or the one that was
there if it was by hand, or else the last one. -/
def winner (before : Option EntityFieldRow) (writes : List FieldWrite) : Option EntityFieldRow :=
  match (writes.filter fun w => w.source = .manual).getLast? with
  | some w => some w.row
  | none => if ByHand before then before else (writes.getLast?.map FieldWrite.row).or before

variable {t : EntityFields} {w : FieldWrite} {pk : String × String}

theorem stored_eq_some {r : EntityFieldRow} : t.stored pk = some r ↔ r ∈ t ∧ r.pk = pk :=
  Table.find?_key_eq_some

/-- A write is applied unless it is an enrichment of what was written by hand. -/
theorem setEntityField_applied :
    (t.setEntityField w).2 = true ↔ ¬ (w.source = .enriched ∧ ByHand (t.stored w.pk)) := by
  have hsource : w.source.asStr = "enriched" ↔ w.source = .enriched := by
    cases w.source <;> simp [FieldSource.asStr]
  unfold setEntityField
  dsimp only
  split
  · rename_i h
    exact iff_of_false Bool.false_ne_true fun hnot => hnot ⟨hsource.1 h.1, h.2⟩
  · rename_i h
    exact iff_of_true rfl fun hboth => h ⟨hsource.2 hboth.1, hboth.2⟩

/-- **One write.**  It changes its own field only, and only if it is applied. -/
theorem stored_setEntityField :
    (t.setEntityField w).1.stored pk =
      if w.pk = pk ∧ (t.setEntityField w).2 = true then some w.row else t.stored pk := by
  unfold setEntityField
  dsimp only
  split
  · simp
  · ext r
    simp only [and_true, stored_eq_some, Table.mem_upsert]
    split
    · rename_i hpk
      subst hpk
      rw [Option.some.injEq]
      constructor
      · rintro ⟨⟨-, hne⟩ | ⟨a, -, -, rfl⟩ | ⟨-, rfl⟩, hr⟩
        · exact absurd hr hne
        · rfl
        · rfl
      · rintro rfl
        refine ⟨?_, rfl⟩
        by_cases hthere : ∃ a ∈ t, a.pk = w.row.pk
        · obtain ⟨a, ha, hkey⟩ := hthere
          exact Or.inr (Or.inl ⟨a, ha, hkey, rfl⟩)
        · exact Or.inr (Or.inr ⟨fun a ha hkey => hthere ⟨a, ha, hkey⟩, rfl⟩)
    · rename_i hpk
      rw [stored_eq_some]
      constructor
      · rintro ⟨⟨hr, -⟩ | ⟨a, -, -, rfl⟩ | ⟨-, rfl⟩, hkey⟩
        · exact ⟨hr, hkey⟩
        · exact absurd hkey hpk
        · exact absurd hkey hpk
      · rintro ⟨hr, rfl⟩
        exact ⟨Or.inl ⟨hr, fun h => hpk h.symm⟩, rfl⟩

/-! ## Which write counts -/

theorem byHand_row : ByHand (some w.row) ↔ w.source = .manual := by
  unfold ByHand FieldWrite.row
  cases w.source <;> simp [FieldSource.asStr]

theorem byHand_winner {before : Option EntityFieldRow} {writes : List FieldWrite} :
    ByHand (winner before writes) ↔
      (∃ w ∈ writes, w.source = .manual) ∨ ByHand before := by
  unfold winner
  split
  · rename_i w hlast
    obtain ⟨hw, hmanual⟩ := List.mem_filter.1 (List.mem_of_getLast? hlast)
    exact iff_of_true (byHand_row.2 (of_decide_eq_true hmanual))
      (Or.inl ⟨w, hw, of_decide_eq_true hmanual⟩)
  · rename_i hnone
    have hpass : ∀ w ∈ writes, w.source ≠ .manual := by
      simpa using List.filter_eq_nil_iff.1 (List.getLast?_eq_none_iff.1 hnone)
    have hnot : ¬ ∃ w ∈ writes, w.source = .manual := fun ⟨w, hw, hmanual⟩ => hpass w hw hmanual
    split
    · rename_i hbefore
      exact iff_of_true hbefore (Or.inr hbefore)
    · rename_i hbefore
      refine iff_of_false ?_ (not_or.2 ⟨hnot, hbefore⟩)
      cases hlast : writes.getLast? with
      | none => simpa using hbefore
      | some w =>
        intro hmanual
        exact hpass w (List.mem_of_getLast? hlast) (byHand_row.1 (by simpa using hmanual))

/-- **One more write.** -/
theorem winner_concat (before : Option EntityFieldRow) (writes : List FieldWrite) (w : FieldWrite) :
    winner before (writes ++ [w]) =
      if w.source = .enriched ∧ ByHand (winner before writes) then winner before writes
      else some w.row := by
  cases hsource : w.source with
  | manual => simp [winner, hsource]
  | enriched =>
    have hsame : ((writes ++ [w]).filter fun w => w.source = .manual) =
        writes.filter fun w => w.source = .manual := by
      simp [hsource]
    by_cases hkept : ByHand (winner before writes)
    · rw [if_pos ⟨rfl, hkept⟩]
      unfold winner
      rw [hsame]
      cases hlast : (writes.filter fun w => w.source = .manual).getLast? with
      | some w' => rfl
      | none =>
        have hnot : ¬ ∃ w ∈ writes, w.source = .manual := by
          simpa using List.filter_eq_nil_iff.1 (List.getLast?_eq_none_iff.1 hlast)
        have hbefore : ByHand before := (byHand_winner.1 hkept).resolve_left hnot
        simp [hbefore]
    · rw [if_neg fun hboth => hkept hboth.2]
      rw [byHand_winner, not_or] at hkept
      have hnone : (writes.filter fun w => w.source = .manual) = [] :=
        List.filter_eq_nil_iff.2 fun w' hw hmanual =>
          hkept.1 ⟨w', hw, of_decide_eq_true hmanual⟩
      simp [winner, hsame, hnone, hkept.2]

/-! ## Runs of writes -/

/-- The fields after some writes. -/
def afterWrites (t : EntityFields) (writes : List FieldWrite) : EntityFields :=
  run (fun t w => (t.setEntityField w).1) t writes

/-- **Every run.**  The stored row of a field is the one that counts. -/
theorem stored_afterWrites (t : EntityFields) (writes : List FieldWrite) (pk : String × String) :
    (t.afterWrites writes).stored pk =
      winner (t.stored pk) (writes.filter fun w => w.pk = pk) := by
  induction writes using List.reverseRecOn with
  | nil => simp [afterWrites, winner]
  | append_singleton writes w ih =>
    rw [afterWrites, run_concat, ← afterWrites, stored_setEntityField]
    by_cases hpk : w.pk = pk
    · subst hpk
      have happlied := setEntityField_applied (t := t.afterWrites writes) (w := w)
      rw [ih] at happlied
      have hwrites : ((writes ++ [w]).filter fun w' => w'.pk = w.pk) =
          (writes.filter fun w' => w'.pk = w.pk) ++ [w] := by simp
      rw [ih, hwrites, winner_concat]
      by_cases h : w.source = .enriched ∧
          ByHand (winner (t.stored w.pk) (writes.filter fun w' => w'.pk = w.pk))
      · rw [if_neg (fun hboth => happlied.1 hboth.2 h), if_pos h]
      · rw [if_pos ⟨rfl, happlied.2 h⟩, if_neg h]
    · rw [if_neg (fun hboth => hpk hboth.1), ih]
      simp [hpk]

/-- The listing of an entity. -/
theorem mem_getEntityFields {entityId : String} {f : EntityField} :
    f ∈ t.getEntityFields entityId ↔
      ∃ r, t.stored (entityId, f.fieldName) = some r ∧ r.field = f := by
  simp only [getEntityFields, List.mem_map, List.mem_insertionSort, List.mem_filter,
    decide_eq_true_eq, stored_eq_some]
  constructor
  · rintro ⟨r, ⟨hr, rfl⟩, rfl⟩
    exact ⟨r, ⟨hr, rfl⟩, rfl⟩
  · rintro ⟨r, ⟨hr, hpk⟩, hf⟩
    exact ⟨r, ⟨hr, (Prod.ext_iff.1 hpk).1⟩, hf⟩

/-- An entity's fields are listed by name, each name once. -/
theorem pairwise_getEntityFields (t : EntityFields) (entityId : String) :
    (t.getEntityFields entityId).Pairwise fun a b => a.fieldName < b.fieldName := by
  have hdistinct : (t.rows.filter fun r => r.entityId = entityId).Pairwise fun a b =>
      a.fieldName ≠ b.fieldName := by
    refine (t.unique.sublist List.filter_sublist).imp_of_mem fun ha hb h hname => h ?_
    exact Prod.ext ((of_decide_eq_true (List.mem_filter.1 ha).2).trans
      (of_decide_eq_true (List.mem_filter.1 hb).2).symm) hname
  have hsorted := List.pairwise_insertionSort (fun a b : EntityFieldRow => a.fieldName ≤ b.fieldName)
    (t.rows.filter fun r => r.entityId = entityId)
  have hne := (List.perm_insertionSort (fun a b : EntityFieldRow => a.fieldName ≤ b.fieldName)
    (t.rows.filter fun r => r.entityId = entityId)).symm.pairwise hdistinct fun h => h.symm
  rw [getEntityFields, List.pairwise_map]
  exact (hsorted.and hne).imp fun h => lt_of_le_of_ne h.1 h.2

/-- **What was written by hand is kept.**  After any writes, by hand and by enrichment passes, on
any entities and in any order, the fields of an entity are listed by name, each once, and each as
the last write by hand left it, or else the last write; and a write is refused exactly when it is an
enrichment of a field that was written by hand before. -/
theorem fields_winner (t : EntityFields) (writes : List FieldWrite) (entityId : String) :
    ((t.afterWrites writes).getEntityFields entityId).Pairwise
        (fun a b => a.fieldName < b.fieldName) ∧
      (∀ f, f ∈ (t.afterWrites writes).getEntityFields entityId ↔
        ∃ r, winner (t.stored (entityId, f.fieldName))
          (writes.filter fun w => w.pk = (entityId, f.fieldName)) = some r ∧ r.field = f) ∧
      ∀ w, ((t.afterWrites writes).setEntityField w).2 = false ↔
        w.source = .enriched ∧
          ((∃ w' ∈ writes, w'.pk = w.pk ∧ w'.source = .manual) ∨ ByHand (t.stored w.pk)) := by
  refine ⟨pairwise_getEntityFields _ entityId, fun f => ?_, fun w => ?_⟩
  · rw [mem_getEntityFields, stored_afterWrites]
  · rw [← Bool.not_eq_true, setEntityField_applied, not_not, stored_afterWrites, byHand_winner]
    simp [and_assoc]

/-- A name by hand, and two enrichments that come later. -/
example : getEntityFields (afterWrites Table.empty
    [⟨"e1", "role", "author", .enriched, none, "t0"⟩, ⟨"e1", "role", "editor", .manual, none, "t1"⟩,
      ⟨"e1", "role", "author", .enriched, none, "t2"⟩]) "e1" =
    [⟨"role", "editor", .manual, none, "t1"⟩] := by decide +kernel

end EntityFields

end Spectral
