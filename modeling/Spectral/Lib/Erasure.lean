import Spectral.Lib.Table

/-!
# Statements and deletes

What a statement does besides a delete that selects none of the rows it is about, or all of them.

* `deleteWhere_insertOrIgnore`, `deleteWhere_update`, `find?_deleteWhere`, `clashes_deleteWhere` — a
  statement about rows that stay is the same before the delete and after it.
* `deleteWhere_insertOrIgnore_self`, `deleteWhere_of_rows_eq_map` — one about rows that go leaves no
  trace.
-/

namespace Spectral.Lib.Table

variable {α : Type} {clash : α → α → Prop} {p : α → Bool} {t t' : Table α clash}

theorem eq_of_rows (h : t.rows = t'.rows) : t = t' := by
  obtain ⟨rows, unique⟩ := t
  obtain ⟨rows', unique'⟩ := t'
  obtain rfl : rows = rows' := h
  rfl

theorem clashes_deleteWhere {x : α} (h : ∀ a ∈ t, clash a x → p a = false) :
    (t.deleteWhere p).Clashes x ↔ t.Clashes x := by
  constructor
  · rintro ⟨a, ha, hclash⟩
    exact ⟨a, (mem_deleteWhere.1 ha).1, hclash⟩
  · rintro ⟨a, ha, hclash⟩
    exact ⟨a, mem_deleteWhere.2 ⟨ha, h a ha hclash⟩, hclash⟩

theorem find?_congr {q q' : α → Bool} {l : List α} (h : ∀ a ∈ l, q a = q' a) :
    l.find? q = l.find? q' := by
  induction l with
  | nil => rfl
  | cons a l ih =>
    obtain ⟨ha, hrest⟩ := List.forall_mem_cons.1 h
    rw [List.find?_cons, List.find?_cons, ha, ih hrest]

/-- A lookup of rows that stay. -/
theorem find?_deleteWhere {q : α → Bool} (h : ∀ a ∈ t, q a = true → p a = false) :
    (t.deleteWhere p).find? q = t.find? q := by
  unfold find? deleteWhere
  rw [List.find?_filter]
  refine find?_congr fun a ha => ?_
  cases hq : q a with
  | true => simp [h a ha hq]
  | false => simp

section

variable [DecidableRel clash] {x : α}

/-- An insert of a row that stays. -/
theorem deleteWhere_insertOrIgnore (hx : p x = false) (h : ∀ a ∈ t, clash a x → p a = false) :
    (t.insertOrIgnore x).deleteWhere p = (t.deleteWhere p).insertOrIgnore x := by
  by_cases hclash : t.Clashes x
  · rw [insertOrIgnore_of_clashes hclash,
      insertOrIgnore_of_clashes ((clashes_deleteWhere h).2 hclash)]
  · have hafter : ¬ (t.deleteWhere p).Clashes x := fun hc => hclash ((clashes_deleteWhere h).1 hc)
    refine eq_of_rows ?_
    rw [rows_insertOrIgnore_of_not_clashes hafter]
    show (t.insertOrIgnore x).rows.filter _ = _
    rw [rows_insertOrIgnore_of_not_clashes hclash, List.filter_append]
    simp [hx, deleteWhere]

/-- An insert of a row that goes. -/
theorem deleteWhere_insertOrIgnore_self (hx : p x = true) :
    (t.insertOrIgnore x).deleteWhere p = t.deleteWhere p := by
  by_cases hclash : t.Clashes x
  · rw [insertOrIgnore_of_clashes hclash]
  · refine eq_of_rows ?_
    show (t.insertOrIgnore x).rows.filter _ = _
    rw [rows_insertOrIgnore_of_not_clashes hclash, List.filter_append]
    simp [hx, deleteWhere]

end

variable {g : α → α} {hg : ∀ a b, clash (g a) (g b) → clash a b}

/-- An update under which the same rows go. -/
theorem deleteWhere_update (h : ∀ a, p (g a) = p a) :
    (t.update g hg).deleteWhere p = (t.deleteWhere p).update g hg := by
  refine eq_of_rows ?_
  show (t.rows.map g).filter _ = (t.rows.filter _).map g
  rw [List.filter_map]
  refine congrArg _ (List.filter_congr fun a _ => ?_)
  exact congrArg _ (h a)

/-- An update of rows that go. -/
theorem deleteWhere_of_rows_eq_map (hrows : t'.rows = t.rows.map g) (h : ∀ a, p (g a) = p a)
    (hstay : ∀ a, p a = false → g a = a) : t'.deleteWhere p = t.deleteWhere p := by
  refine eq_of_rows ?_
  show t'.rows.filter _ = t.rows.filter _
  rw [hrows, List.filter_map]
  have hsame : (t.rows.filter fun a => !p (g a)) = t.rows.filter fun a => !p a :=
    List.filter_congr fun a _ => congrArg _ (h a)
  refine (congrArg (List.map g) hsame).trans ?_
  conv_rhs => rw [← List.map_id (t.rows.filter fun a => !p a)]
  refine List.map_congr_left fun a ha => hstay a ?_
  simpa using (List.mem_filter.1 ha).2

/-- Deletes in the other order. -/
theorem deleteWhere_comm (q : α → Bool) :
    (t.deleteWhere p).deleteWhere q = (t.deleteWhere q).deleteWhere p := by
  rw [deleteWhere_deleteWhere, deleteWhere_deleteWhere]
  exact deleteWhere_congr fun a _ => Bool.or_comm _ _

end Spectral.Lib.Table
