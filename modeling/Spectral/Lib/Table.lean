import Mathlib.Data.List.Induction
import Mathlib.Data.List.Pairwise

/-!
# Tables with uniqueness constraints

A table is a list of rows in insertion order, no two of which *clash*.  The
relation `clash` is what the schema's `PRIMARY KEY` and `UNIQUE` clauses say: two
rows clash when they agree on one of the constrained columns.  The constraint is a
field of the table, so a table that violates its schema cannot be built, and the
statements that change it are the ones that keep it:

* `insertOrIgnore` — the `INSERT OR IGNORE` statement: the row is added unless a
  row already there clashes with it.
* `deleteWhere` — `DELETE ... WHERE`.
* `update` — `UPDATE ... SET`, for updates that leave the constrained columns
  alone.

`mem_insertOrIgnore`, `mem_deleteWhere` and `mem_update` say which rows each
statement leaves; `eq_of_clash` is the constraint, used as a rule.
-/

namespace Spectral.Lib

/-- The clash of a single unique column, or of a composite key: equal keys. -/
def SameKey {α κ : Type} (key : α → κ) (a b : α) : Prop := key a = key b

instance {α κ : Type} [DecidableEq κ] (key : α → κ) : DecidableRel (SameKey key) :=
  fun a b => inferInstanceAs (Decidable (key a = key b))

instance {α κ : Type} (key : α → κ) : Std.Symm (SameKey key) := ⟨fun _ _ h => Eq.symm h⟩

instance {α κ : Type} (key : α → κ) : Std.Refl (SameKey key) := ⟨fun _ => Eq.refl _⟩

/-- A further condition leaves a count as it is when all that was counted meets it. -/
theorem countP_eq_countP_and_iff {α : Type*} (p q : α → Bool) (l : List α) :
    l.countP p = l.countP (fun a => p a && q a) ↔ ∀ a ∈ l, p a = true → q a = true := by
  induction l with
  | nil => simp
  | cons a l ih =>
    have hle : l.countP (fun a => p a && q a) ≤ l.countP p :=
      List.countP_mono_left fun x _ h => (Bool.and_eq_true_iff.1 h).1
    rw [List.countP_cons, List.countP_cons, List.forall_mem_cons, ← ih]
    cases p a with
    | false => simp
    | true =>
      cases q a with
      | false => simp; omega
      | true => simp

/-- A list of rows no two of which clash. -/
structure Table (α : Type) (clash : α → α → Prop) where
  /-- The rows, in insertion order. -/
  rows : List α
  /-- The uniqueness constraints of the schema. -/
  unique : rows.Pairwise fun a b => ¬ clash a b
  deriving DecidableEq

namespace Table

variable {α : Type} {clash : α → α → Prop}

instance : Membership α (Table α clash) := ⟨fun t a => a ∈ t.rows⟩

instance [DecidableEq α] (a : α) (t : Table α clash) : Decidable (a ∈ t) :=
  inferInstanceAs (Decidable (a ∈ t.rows))

@[simp] theorem mem_rows {t : Table α clash} {a : α} : a ∈ t.rows ↔ a ∈ t := Iff.rfl

/-- The table without rows. -/
def empty : Table α clash := ⟨[], List.Pairwise.nil⟩

instance : Inhabited (Table α clash) := ⟨empty⟩

@[simp] theorem not_mem_empty (a : α) : a ∉ (empty : Table α clash) := List.not_mem_nil

/-- The constraint as a rule: rows that clash are one row. -/
theorem eq_of_clash [Std.Symm clash] {t : Table α clash} {a b : α} (ha : a ∈ t) (hb : b ∈ t)
    (h : clash a b) : a = b := by
  by_contra hne
  have : Std.Symm fun a b => ¬ clash a b := ⟨fun _ _ hab hba => hab (Std.Symm.symm _ _ hba)⟩
  exact t.unique.forall ha hb hne h

/-- The rows differ from each other. -/
theorem nodup_rows [Std.Refl clash] (t : Table α clash) : t.rows.Nodup := by
  refine t.unique.imp fun {a b} h heq => ?_
  subst heq
  exact h (Std.Refl.refl a)

/-- Tables with the same rows have them in some order. -/
theorem perm_rows [Std.Refl clash] {t t' : Table α clash} (h : ∀ a, a ∈ t ↔ a ∈ t') :
    t.rows.Perm t'.rows :=
  (List.perm_ext_iff_of_nodup t.nodup_rows t'.nodup_rows).2 h

/-! ## Statements -/

section Insert

variable [DecidableRel clash]

/-- Does some row of the table clash with `x`? -/
def Clashes (t : Table α clash) (x : α) : Prop := ∃ r ∈ t.rows, clash r x

instance (t : Table α clash) (x : α) : Decidable (t.Clashes x) :=
  inferInstanceAs (Decidable (∃ r ∈ t.rows, clash r x))

/-- `INSERT OR IGNORE`: add the row unless a uniqueness constraint forbids it. -/
def insertOrIgnore (x : α) (t : Table α clash) : Table α clash :=
  if h : t.Clashes x then t
  else ⟨t.rows ++ [x], by
    refine List.pairwise_append.2 ⟨t.unique, List.pairwise_singleton _ _, ?_⟩
    intro r hr b hb hclash
    rw [List.mem_singleton] at hb
    exact h ⟨r, hr, hb ▸ hclash⟩⟩

/-- The number of rows an `INSERT OR IGNORE` reports as inserted. -/
def inserted (x : α) (t : Table α clash) : ℕ := if t.Clashes x then 0 else 1

theorem insertOrIgnore_of_clashes {t : Table α clash} {x : α} (h : t.Clashes x) :
    t.insertOrIgnore x = t := dif_pos h

theorem rows_insertOrIgnore_of_not_clashes {t : Table α clash} {x : α} (h : ¬ t.Clashes x) :
    (t.insertOrIgnore x).rows = t.rows ++ [x] := by
  rw [insertOrIgnore, dif_neg h]

theorem mem_insertOrIgnore {t : Table α clash} {x y : α} :
    y ∈ t.insertOrIgnore x ↔ y ∈ t ∨ (y = x ∧ ¬ t.Clashes x) := by
  by_cases h : t.Clashes x
  · simp [insertOrIgnore_of_clashes h, h]
  · rw [← mem_rows, rows_insertOrIgnore_of_not_clashes h]
    simp [h]

/-- When all of a row is its key, the row is there afterwards. -/
theorem mem_insertOrIgnore_row [DecidableEq α] {t : Table α (SameKey fun r => r)} {x y : α} :
    y ∈ t.insertOrIgnore x ↔ y ∈ t ∨ y = x := by
  rw [mem_insertOrIgnore]
  refine ⟨Or.imp_right And.left, ?_⟩
  rintro (h | rfl)
  · exact Or.inl h
  · by_cases hmem : y ∈ t
    · exact Or.inl hmem
    · refine Or.inr ⟨rfl, ?_⟩
      rintro ⟨r, hr, rfl⟩
      exact hmem hr

/-- The rows inserted by a loop, when all of a row is its key. -/
theorem mem_foldl_insertOrIgnore_row [DecidableEq α] {β : Type} (f : β → α) (xs : List β)
    {t : Table α (SameKey fun r => r)} {y : α} :
    y ∈ xs.foldl (fun t x => t.insertOrIgnore (f x)) t ↔ y ∈ t ∨ ∃ x ∈ xs, f x = y := by
  induction xs using List.reverseRecOn with
  | nil => simp
  | append_singleton xs x ih =>
    rw [List.foldl_append, List.foldl_cons, List.foldl_nil, mem_insertOrIgnore_row, ih, or_assoc]
    simp [or_and_right, exists_or, eq_comm]

/-- The rows inserted by a loop, when none of them clashes with another one or with a row that is
there. -/
theorem mem_foldl_insertOrIgnore {β : Type} (f : β → α) (xs : List β)
    (h : xs.Pairwise fun a b => ¬ clash (f a) (f b)) {t : Table α clash}
    (ht : ∀ x ∈ xs, ¬ t.Clashes (f x)) {y : α} :
    y ∈ xs.foldl (fun t x => t.insertOrIgnore (f x)) t ↔ y ∈ t ∨ ∃ x ∈ xs, f x = y := by
  induction xs using List.reverseRecOn generalizing y with
  | nil => simp
  | append_singleton xs x ih =>
    obtain ⟨hxs, -, hlast⟩ := List.pairwise_append.1 h
    have hmem : ∀ {y}, y ∈ xs.foldl (fun t x => t.insertOrIgnore (f x)) t ↔
        y ∈ t ∨ ∃ x ∈ xs, f x = y := ih hxs fun x hx => ht x (List.mem_append_left _ hx)
    rw [List.foldl_append, List.foldl_cons, List.foldl_nil, mem_insertOrIgnore, hmem]
    have hfree : ¬ (xs.foldl (fun t x => t.insertOrIgnore (f x)) t).Clashes (f x) := by
      rintro ⟨r, hr, hclash⟩
      rcases hmem.1 hr with hr | ⟨x', hx', rfl⟩
      · exact ht x (by simp) ⟨r, hr, hclash⟩
      · exact hlast x' hx' x (by simp) hclash
    rw [and_iff_left hfree, or_assoc]
    simp [or_and_right, exists_or, @eq_comm _ y]

theorem mem_insertOrIgnore_of_mem {t : Table α clash} {x y : α} (h : y ∈ t) :
    y ∈ t.insertOrIgnore x := mem_insertOrIgnore.2 (Or.inl h)

/-- After an insert some row clashes with the new one, or is the new one. -/
theorem exists_clash_or_mem_insertOrIgnore (t : Table α clash) (x : α) :
    t.Clashes x ∨ x ∈ t.insertOrIgnore x := by
  by_cases h : t.Clashes x
  · exact Or.inl h
  · exact Or.inr (mem_insertOrIgnore.2 (Or.inr ⟨rfl, h⟩))

/-- The keys of a table after an insert. -/
theorem exists_key_insertOrIgnore {κ : Type} [DecidableEq κ] {key : α → κ} {x : α}
    {t : Table α (SameKey key)} {k : κ} :
    (∃ a ∈ t.insertOrIgnore x, key a = k) ↔ (∃ a ∈ t, key a = k) ∨ key x = k := by
  constructor
  · rintro ⟨a, ha, rfl⟩
    rcases mem_insertOrIgnore.1 ha with ha | ⟨rfl, -⟩
    · exact Or.inl ⟨a, ha, rfl⟩
    · exact Or.inr rfl
  · rintro (⟨a, ha, rfl⟩ | rfl)
    · exact ⟨a, mem_insertOrIgnore_of_mem ha, rfl⟩
    · rcases exists_clash_or_mem_insertOrIgnore t x with ⟨r, hr, hrx⟩ | hx
      · exact ⟨r, mem_insertOrIgnore_of_mem hr, hrx⟩
      · exact ⟨x, hx, rfl⟩

/-- A loop of inserts adds nothing that is not inserted. -/
theorem mem_or_mem_of_mem_foldl {xs : List α} {t : Table α clash} {y : α}
    (h : y ∈ xs.foldl (fun t x => t.insertOrIgnore x) t) : y ∈ t ∨ y ∈ xs := by
  induction xs generalizing t with
  | nil => exact Or.inl h
  | cons x xs ih =>
    rcases ih h with h | h
    · rcases mem_insertOrIgnore.1 h with h | ⟨rfl, -⟩
      · exact Or.inl h
      · exact Or.inr List.mem_cons_self
    · exact Or.inr (List.mem_cons_of_mem _ h)

theorem mem_foldl_of_mem {xs : List α} {t : Table α clash} {y : α} (h : y ∈ t) :
    y ∈ xs.foldl (fun t x => t.insertOrIgnore x) t :=
  List.foldlRecOn (motive := fun t => y ∈ t) _ _ h fun _ h _ _ => mem_insertOrIgnore_of_mem h

/-- After a loop of inserts every row of the list is there, or clashes with one that is. -/
theorem clashes_foldl [Std.Refl clash] {xs : List α} {t : Table α clash} {x : α} (h : x ∈ xs) :
    (xs.foldl (fun t x => t.insertOrIgnore x) t).Clashes x := by
  induction xs generalizing t with
  | nil => exact absurd h List.not_mem_nil
  | cons y xs ih =>
    rw [List.foldl_cons]
    rcases List.mem_cons.1 h with rfl | h
    · rcases exists_clash_or_mem_insertOrIgnore t x with ⟨r, hr, hrx⟩ | hx
      · exact ⟨r, mem_foldl_of_mem (mem_insertOrIgnore_of_mem hr), hrx⟩
      · exact ⟨x, mem_foldl_of_mem hx, Std.Refl.refl x⟩
    · exact ih h

end Insert

/-- `DELETE ... WHERE p`. -/
def deleteWhere (p : α → Bool) (t : Table α clash) : Table α clash :=
  ⟨t.rows.filter fun a => !p a, t.unique.filter _⟩

@[simp] theorem mem_deleteWhere {p : α → Bool} {t : Table α clash} {a : α} :
    a ∈ t.deleteWhere p ↔ a ∈ t ∧ p a = false := by
  rw [← mem_rows, deleteWhere, List.mem_filter]
  simp

/-- A delete that selects no row changes nothing. -/
theorem deleteWhere_eq_self {p : α → Bool} {t : Table α clash} (h : ∀ a ∈ t, p a = false) :
    t.deleteWhere p = t := by
  obtain ⟨rows, hrows⟩ := t
  have hall : rows.filter (fun a => !p a) = rows := by
    rw [List.filter_eq_self]
    intro a ha
    simp [h a ha]
  simp only [deleteWhere, hall]

/-- Deletes that select the same rows of the table do the same. -/
theorem deleteWhere_congr {p q : α → Bool} {t : Table α clash} (h : ∀ a ∈ t, p a = q a) :
    t.deleteWhere p = t.deleteWhere q := by
  simp only [deleteWhere, mk.injEq]
  refine List.filter_congr fun a ha => ?_
  rw [h a ha]

/-- Two deletes, one after the other. -/
theorem deleteWhere_deleteWhere (p q : α → Bool) (t : Table α clash) :
    (t.deleteWhere p).deleteWhere q = t.deleteWhere fun a => p a || q a := by
  simp only [deleteWhere, mk.injEq, List.filter_filter]
  refine List.filter_congr fun a _ => ?_
  cases p a <;> cases q a <;> rfl

/-- `UPDATE ... SET`, for an update under which no two rows start to clash. -/
def update (g : α → α) (hg : ∀ a b, clash (g a) (g b) → clash a b) (t : Table α clash) :
    Table α clash :=
  ⟨t.rows.map g, List.pairwise_map.2 (t.unique.imp fun h hc => h (hg _ _ hc))⟩

@[simp] theorem mem_update {g : α → α} {hg : ∀ a b, clash (g a) (g b) → clash a b}
    {t : Table α clash} {b : α} : b ∈ t.update g hg ↔ ∃ a ∈ t, g a = b := by
  rw [← mem_rows, update, List.mem_map]
  rfl

/-- `INSERT ... ON CONFLICT DO UPDATE`, for a table with one key: the row is added, or the one that
has its key is changed. -/
def upsert {κ : Type} [DecidableEq κ] {key : α → κ} (x : α) (g : α → α)
    (hg : ∀ a, key a = key x → key (g a) = key x) (t : Table α (SameKey key)) :
    Table α (SameKey key) :=
  if t.Clashes x then
    t.update (fun a => if key a = key x then g a else a) fun a b h => by
      have hkey : ∀ c, key (if key c = key x then g c else c) = key c := by
        intro c
        by_cases hc : key c = key x
        · rw [if_pos hc, hg c hc, hc]
        · rw [if_neg hc]
      simpa only [SameKey, hkey] using h
  else t.insertOrIgnore x

/-- The keys of a table after an upsert. -/
theorem exists_key_upsert {κ : Type} [DecidableEq κ] {key : α → κ} {x : α} {g : α → α}
    {hg : ∀ a, key a = key x → key (g a) = key x} {t : Table α (SameKey key)} {k : κ} :
    (∃ a ∈ t.upsert x g hg, key a = k) ↔ (∃ a ∈ t, key a = k) ∨ key x = k := by
  by_cases h : t.Clashes x
  · have hkey : ∀ c, key (if key c = key x then g c else c) = key c := by
      intro c
      by_cases hc : key c = key x
      · rw [if_pos hc, hg c hc, hc]
      · rw [if_neg hc]
    obtain ⟨r, hr, hrx⟩ := h
    rw [upsert, if_pos ⟨r, hr, hrx⟩]
    simp only [mem_update, exists_exists_and_eq_and, hkey]
    refine ⟨Or.inl, ?_⟩
    rintro (h | rfl)
    · exact h
    · exact ⟨r, hr, hrx⟩
  · rw [upsert, if_neg h, exists_key_insertOrIgnore]

/-- The rows of a table after an upsert. -/
theorem mem_upsert {κ : Type} [DecidableEq κ] {key : α → κ} {x y : α} {g : α → α}
    (hg : ∀ a, key a = key x → key (g a) = key x) {t : Table α (SameKey key)} :
    y ∈ t.upsert x g hg ↔ (y ∈ t ∧ key y ≠ key x) ∨ (∃ a ∈ t, key a = key x ∧ g a = y) ∨
      ((∀ a ∈ t, key a ≠ key x) ∧ y = x) := by
  by_cases h : t.Clashes x
  · have hclash : ¬ ∀ a ∈ t, key a ≠ key x := fun hnone => by
      obtain ⟨r, hr, hrx⟩ := h
      exact hnone r hr hrx
    rw [upsert, if_pos h, mem_update]
    simp only [hclash, false_and, or_false]
    constructor
    · rintro ⟨a, ha, rfl⟩
      by_cases hkey : key a = key x
      · exact Or.inr ⟨a, ha, hkey, (if_pos hkey).symm⟩
      · rw [if_neg hkey]
        exact Or.inl ⟨ha, hkey⟩
    · rintro (⟨hy, hkey⟩ | ⟨a, ha, hkey, rfl⟩)
      · exact ⟨y, hy, if_neg hkey⟩
      · exact ⟨a, ha, if_pos hkey⟩
  · have hnone : ∀ a ∈ t, key a ≠ key x := fun a ha hkey => h ⟨a, ha, hkey⟩
    rw [upsert, if_neg h, mem_insertOrIgnore]
    constructor
    · rintro (hy | ⟨rfl, -⟩)
      · exact Or.inl ⟨hy, hnone y hy⟩
      · exact Or.inr (Or.inr ⟨hnone, rfl⟩)
    · rintro (⟨hy, -⟩ | ⟨a, ha, hkey, -⟩ | ⟨-, rfl⟩)
      · exact Or.inl hy
      · exact absurd hkey (hnone a ha)
      · exact Or.inr ⟨rfl, h⟩

/-- The number of rows a statement's `WHERE` clause selects. -/
def countWhere (p : α → Bool) (t : Table α clash) : ℕ := t.rows.countP p

theorem countWhere_pos {p : α → Bool} {t : Table α clash} :
    0 < t.countWhere p ↔ ∃ a ∈ t, p a = true := List.countP_pos_iff

/-- A delete that counts no row changes nothing. -/
theorem deleteWhere_of_countWhere {p : α → Bool} {t : Table α clash} (h : t.countWhere p = 0) :
    t.deleteWhere p = t := by
  refine deleteWhere_eq_self fun a ha => ?_
  by_contra hp
  have hpos := countWhere_pos.2 ⟨a, ha, eq_true_of_ne_false hp⟩
  omega

/-- A delete of rows that are not counted. -/
theorem countWhere_deleteWhere {p q : α → Bool} {t : Table α clash}
    (h : ∀ a ∈ t, q a = true → p a = false) : (t.deleteWhere p).countWhere q = t.countWhere q := by
  unfold countWhere deleteWhere
  rw [List.countP_filter]
  refine List.countP_congr fun a ha => ?_
  constructor
  · exact fun hboth => (Bool.and_eq_true_iff.1 hboth).1
  · intro hq
    simp [hq, h a ha hq]

theorem countWhere_insertOrIgnore [DecidableRel clash] {q : α → Bool} {t : Table α clash} {x : α}
    (h : ¬ t.Clashes x) :
    (t.insertOrIgnore x).countWhere q = t.countWhere q + if q x = true then 1 else 0 := by
  unfold countWhere
  rw [rows_insertOrIgnore_of_not_clashes h, List.countP_append, List.countP_singleton]

/-- `SELECT ... WHERE p LIMIT 1`: the first row in insertion order. -/
def find? (p : α → Bool) (t : Table α clash) : Option α := t.rows.find? p

theorem mem_of_find?_eq_some {p : α → Bool} {t : Table α clash} {a : α}
    (h : t.find? p = some a) : a ∈ t ∧ p a = true :=
  ⟨List.mem_of_find?_eq_some h, List.find?_some h⟩

theorem find?_eq_none {p : α → Bool} {t : Table α clash} :
    t.find? p = none ↔ ∀ a ∈ t, ¬ p a = true := List.find?_eq_none

/-- When at most one row can satisfy `p`, looking it up finds exactly it. -/
theorem find?_eq_some_of_unique {p : α → Bool} {t : Table α clash} {a : α} (ha : a ∈ t)
    (hp : p a = true) (huniq : ∀ b ∈ t, p b = true → b = a) : t.find? p = some a := by
  cases h : t.find? p with
  | none => exact absurd hp (find?_eq_none.1 h a ha)
  | some b =>
    obtain ⟨hb, hpb⟩ := mem_of_find?_eq_some h
    rw [huniq b hb hpb]

/-- A lookup by key. -/
theorem find?_key_eq_some {κ : Type} [DecidableEq κ] {key : α → κ} {t : Table α (SameKey key)}
    {k : κ} {a : α} : t.find? (fun r => key r = k) = some a ↔ a ∈ t ∧ key a = k := by
  constructor
  · intro h
    obtain ⟨ha, hk⟩ := mem_of_find?_eq_some h
    exact ⟨ha, of_decide_eq_true hk⟩
  · rintro ⟨ha, rfl⟩
    refine find?_eq_some_of_unique ha (decide_eq_true rfl) fun b hb hkey => ?_
    exact eq_of_clash hb ha (of_decide_eq_true hkey)

section Insert

variable [DecidableRel clash]

/-- A lookup after an insert: the new row answers when no older one does. -/
theorem find?_insertOrIgnore (p : α → Bool) (t : Table α clash) (x : α) :
    (t.insertOrIgnore x).find? p =
      (t.find? p).or (if p x = true ∧ ¬ t.Clashes x then some x else none) := by
  by_cases h : t.Clashes x
  · rw [insertOrIgnore_of_clashes h, if_neg (fun hx => hx.2 h), Option.or_none]
  · unfold find?
    rw [rows_insertOrIgnore_of_not_clashes h, List.find?_append]
    cases hp : p x <;> simp [hp, h]

/-- The rows of `xs` inserted into an empty table: the first of each key. -/
def ofList (xs : List α) : Table α clash := xs.foldl (fun t x => t.insertOrIgnore x) empty

@[simp] theorem ofList_nil : (ofList [] : Table α clash) = empty := rfl

theorem ofList_concat (xs : List α) (x : α) :
    (ofList (xs ++ [x]) : Table α clash) = (ofList xs).insertOrIgnore x := List.foldl_append

theorem mem_of_mem_ofList {xs : List α} {y : α} (h : y ∈ (ofList xs : Table α clash)) : y ∈ xs :=
  (mem_or_mem_of_mem_foldl h).resolve_left (not_mem_empty y)

/-- Every row of the list is in the table, or clashes with one that is. -/
theorem clashes_ofList [Std.Refl clash] {xs : List α} {x : α} (h : x ∈ xs) :
    (ofList xs : Table α clash).Clashes x := clashes_foldl h

end Insert

end Table

end Spectral.Lib
