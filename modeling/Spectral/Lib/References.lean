import Spectral.Lib.Table

/-!
# References between tables

A row of one table names rows of another one by their key.  What a database enforces of that is up
to its foreign keys; this file is about what a statement leaves.

* `Resolves` — every name that is used is that of a row.
* `resolves_deleteWhere_iff` — a delete that leaves the referring rows alone, and so may leave one
  that refers to nothing.
* `Resolves.cascade` — the delete of a table whose foreign key says `ON DELETE CASCADE`.
* `countWhere_deleteWhere_eq_iff` — a delete and a count of the rows that is stored elsewhere.
* `ChildTable` — a table with what the catalogue says of its foreign keys; the check of one of them,
  `violations_eq_zero_iff`, and the cleanup before it, `mem_deleteOrphans`.
-/

namespace Spectral.Lib

variable {α β κ : Type} {clash : α → α → Prop} {clash' : β → β → Prop}

/-- Some row of the table has this name. -/
def Table.Has (name : α → κ) (t : Table α clash) (k : κ) : Prop := ∃ r ∈ t, name r = k

/-- Every name that a row of the one table uses is that of a row of the other one. -/
def Resolves (names : β → List κ) (name : α → κ) (refs : Table β clash') (t : Table α clash) :
    Prop :=
  ∀ x ∈ refs, ∀ k ∈ names x, t.Has name k

variable {names : β → List κ} {name : α → κ} {refs refs' : Table β clash'} {t t' : Table α clash}

theorem resolves_empty : Resolves names name (Table.empty : Table β clash') t :=
  fun x hx => absurd hx (Table.not_mem_empty x)

/-- Fewer references, more names. -/
theorem Resolves.mono (h : Resolves names name refs t) (hrefs : ∀ x ∈ refs', x ∈ refs)
    (ht : ∀ k, t.Has name k → t'.Has name k) : Resolves names name refs' t' :=
  fun x hx k hk => ht k (h x (hrefs x hx) k hk)

section

variable [Std.Symm clash] {p : α → Bool}

/-- After a delete the names are those of the rows it did not select. -/
theorem Table.has_deleteWhere_iff (hname : ∀ a b, name a = name b → clash a b) {k : κ} :
    (t.deleteWhere p).Has name k ↔ t.Has name k ∧ ∀ r ∈ t, name r = k → p r = false := by
  constructor
  · rintro ⟨r, hr, rfl⟩
    obtain ⟨hr, hp⟩ := Table.mem_deleteWhere.1 hr
    refine ⟨⟨r, hr, rfl⟩, fun r' hr' hk => ?_⟩
    rwa [Table.eq_of_clash hr' hr (hname r' r hk)]
  · rintro ⟨⟨r, hr, rfl⟩, hstays⟩
    exact ⟨r, Table.mem_deleteWhere.2 ⟨hr, hstays r hr rfl⟩, rfl⟩

/-- **A delete** that leaves the referring rows alone. -/
theorem resolves_deleteWhere_iff (hname : ∀ a b, name a = name b → clash a b)
    (h : Resolves names name refs t) :
    Resolves names name refs (t.deleteWhere p) ↔
      ∀ x ∈ refs, ∀ k ∈ names x, ∀ r ∈ t, name r = k → p r = false := by
  constructor
  · intro hafter x hx k hk
    exact ((Table.has_deleteWhere_iff hname).1 (hafter x hx k hk)).2
  · intro hstays x hx k hk
    exact (Table.has_deleteWhere_iff hname).2 ⟨h x hx k hk, hstays x hx k hk⟩

/-- **A cascade** takes the rows that name a row it selects. -/
theorem Resolves.cascade (hname : ∀ a b, name a = name b → clash a b)
    (h : Resolves names name refs t)
    (hcascade : ∀ x ∈ refs', x ∈ refs ∧ ∀ k ∈ names x, ∀ r ∈ t, name r = k → p r = false) :
    Resolves names name refs' (t.deleteWhere p) := by
  intro x hx k hk
  obtain ⟨hin, hstays⟩ := hcascade x hx
  exact (Table.has_deleteWhere_iff hname).2 ⟨h x hin k hk, hstays k hk⟩

end

/-- A delete leaves a count as it was exactly when it selects no row that is counted. -/
theorem Table.countWhere_deleteWhere_eq_iff {p q : α → Bool} :
    (t.deleteWhere p).countWhere q = t.countWhere q ↔ ∀ r ∈ t, q r = true → p r = false := by
  have hsplit : t.countWhere q =
      (t.rows.filter p).countP q + (t.deleteWhere p).countWhere q := List.countP_eq_countP_filter_add ..
  have hzero : (t.deleteWhere p).countWhere q = t.countWhere q ↔ (t.rows.filter p).countP q = 0 := by
    omega
  rw [hzero, List.countP_eq_zero]
  constructor
  · intro h r hr hq
    by_contra hp
    exact h r (List.mem_filter.2 ⟨hr, eq_true_of_ne_false hp⟩) hq
  · intro h r hr hq
    obtain ⟨hin, hp⟩ := List.mem_filter.1 hr
    rw [h r hin hq] at hp
    cases hp

/-! ## A check of the foreign keys -/

/-- A table that refers to others: its rows, whether it declares foreign keys, and whether its text in
the catalogue says `ON DELETE CASCADE`; `none` is a table that does not exist. -/
structure ChildTable (β : Type) (clash' : β → β → Prop) where
  rows : Table β clash'
  declared : Bool := true
  cascades : Option Bool := some true

section

variable [DecidableEq κ] {column : β → κ} {child : ChildTable β clash'}

/-- `column NOT IN (SELECT name FROM parent)`. -/
def orphaned (column : β → κ) (name : α → κ) (t : Table α clash) (x : β) : Bool :=
  decide (column x ∉ t.rows.map name)

theorem orphaned_eq_false_iff {x : β} : orphaned column name t x = false ↔ t.Has name (column x) := by
  rw [orphaned, decide_eq_false_iff_not, not_not, List.mem_map]
  exact Iff.rfl

/-- `DELETE FROM child WHERE column NOT IN (SELECT name FROM parent)`. -/
def Table.deleteOrphans (refs : Table β clash') (column : β → κ) (name : α → κ) (t : Table α clash) :
    Table β clash' :=
  refs.deleteWhere (orphaned column name t)

@[simp] theorem mem_deleteOrphans {x : β} :
    x ∈ refs.deleteOrphans column name t ↔ x ∈ refs ∧ t.Has name (column x) := by
  rw [Table.deleteOrphans, Table.mem_deleteWhere, orphaned_eq_false_iff]

/-- How many rows the check reports for one foreign key. -/
def ChildTable.violations (child : ChildTable β clash') (column : β → κ) (name : α → κ)
    (t : Table α clash) : ℕ :=
  if child.declared then child.rows.countWhere (orphaned column name t) else 0

/-- The check passes: a foreign key that is declared is that of a row. -/
def ChildTable.Resolved (child : ChildTable β clash') (column : β → κ) (name : α → κ)
    (t : Table α clash) : Prop :=
  child.declared = true → ∀ x ∈ child.rows, t.Has name (column x)

theorem violations_eq_zero_iff : child.violations column name t = 0 ↔ child.Resolved column name t := by
  unfold ChildTable.violations ChildTable.Resolved
  cases child.declared with
  | false => simp
  | true =>
    rw [if_pos rfl, Table.countWhere, List.countP_eq_zero]
    refine ⟨fun h _ x hx => ?_, fun h x hx => ?_⟩
    · exact orphaned_eq_false_iff.1 (eq_false_of_ne_true (h x hx))
    · rw [orphaned_eq_false_iff.2 (h rfl x hx)]
      exact Bool.false_ne_true

end

end Spectral.Lib
