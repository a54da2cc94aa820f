import Mathlib.Algebra.Order.Sub.Defs
import Mathlib.Algebra.BigOperators.Group.List.Basic
import Mathlib.Data.List.Nodup
import Mathlib.Logic.Embedding.Basic

/-!
# Keeping up a total

Numbered rows, and a total over them that is not computed again when a row changes: what the row
gave is taken out and what it gives is put in.

* `Numbered` — rows, each with a number of its own.
* `Change` — one row inserted, updated or deleted.
* `total_apply` — a total that was right is right after the change is made good in it.
-/

namespace Spectral.Lib

variable {κ α M : Type*}

/-- Rows with their numbers. -/
structure Numbered (κ α : Type*) where
  rows : List (κ × α)
  nodup : (rows.map Prod.fst).Nodup

/-- A change to one row. -/
inductive Change (κ α : Type*) where
  | insert (k : κ) (new : α)
  | update (k : κ) (new : α)
  | delete (k : κ)

namespace Numbered

@[ext] theorem ext_rows {t t' : Numbered κ α} (h : t.rows = t'.rows) : t = t' := by
  cases t
  cases t'
  cases h
  rfl

def empty : Numbered κ α := ⟨[], List.nodup_nil⟩

/-- The same rows under other numbers. -/
def renumber (f : κ ↪ κ) (t : Numbered κ α) : Numbered κ α where
  rows := t.rows.map fun r => (f r.1, r.2)
  nodup := by
    rw [List.map_map, show Prod.fst ∘ (fun r : κ × α => (f r.1, r.2)) = f ∘ Prod.fst from rfl,
      ← List.map_map]
    exact t.nodup.map f.injective

theorem renumber_eq_self {f : κ ↪ κ} {t : Numbered κ α} (h : ∀ r ∈ t.rows, f r.1 = r.1) :
    t.renumber f = t := by
  refine ext_rows ?_
  calc t.rows.map (fun r => (f r.1, r.2)) = t.rows.map id :=
        List.map_congr_left fun r hr => Prod.ext (h r hr) rfl
    _ = t.rows := List.map_id _

section Total

variable [AddCommMonoid M] (f : κ → α → M)

/-- What all rows give together. -/
def total (t : Numbered κ α) : M := (t.rows.map fun r => f r.1 r.2).sum

@[simp] theorem total_empty : (empty : Numbered κ α).total f = 0 := rfl

theorem total_of_rows_eq_nil {t : Numbered κ α} (h : t.rows = []) : t.total f = 0 := by
  simp [total, h]

end Total

variable [DecidableEq κ]

/-- The row of a number. -/
def get? (t : Numbered κ α) (k : κ) : Option α := (t.rows.find? fun r => r.1 = k).map Prod.snd

theorem get?_eq_some {t : Numbered κ α} {k : κ} {a : α} : t.get? k = some a ↔ (k, a) ∈ t.rows := by
  unfold get?
  constructor
  · intro h
    obtain ⟨⟨k', a'⟩, hfind, rfl⟩ := Option.map_eq_some_iff.1 h
    have hk : k' = k := by simpa using List.find?_some hfind
    rw [← hk]
    exact List.mem_of_find?_eq_some hfind
  · intro h
    cases hfind : t.rows.find? fun r => r.1 = k with
    | none =>
      have hother := List.find?_eq_none.1 hfind (k, a) h
      simp at hother
    | some r =>
      have hk : r.1 = k := by simpa using List.find?_some hfind
      have hr := List.inj_on_of_nodup_map t.nodup (List.mem_of_find?_eq_some hfind) h hk
      rw [hr]
      rfl

/-- Where a row stands among the others. -/
theorem exists_rows_eq {t : Numbered κ α} {k : κ} {a : α} (h : t.get? k = some a) :
    ∃ before after, t.rows = before ++ (k, a) :: after ∧ (∀ r ∈ before, r.1 ≠ k) ∧
      ∀ r ∈ after, r.1 ≠ k := by
  obtain ⟨before, after, hrows⟩ := List.append_of_mem (get?_eq_some.1 h)
  have hnodup := t.nodup
  rw [hrows, List.map_append, List.map_cons, List.nodup_middle, List.nodup_cons] at hnodup
  refine ⟨before, after, hrows, fun r hr hk => hnodup.1 ?_, fun r hr hk => hnodup.1 ?_⟩
  · exact List.mem_append_left _ (List.mem_map.2 ⟨r, hr, hk⟩)
  · exact List.mem_append_right _ (List.mem_map.2 ⟨r, hr, hk⟩)

/-- A row put in at the end. -/
def insert (t : Numbered κ α) (k : κ) (a : α) (h : t.get? k = none) : Numbered κ α where
  rows := t.rows ++ [(k, a)]
  nodup := by
    rw [List.map_append, List.map_singleton, List.nodup_append]
    refine ⟨t.nodup, List.nodup_singleton _, fun k' hk' k'' hk'' hsame => ?_⟩
    obtain ⟨r, hr, rfl⟩ := List.mem_map.1 hk'
    have hk : r.1 = k := hsame.trans (List.mem_singleton.1 hk'')
    have hget : t.get? k = some r.2 := get?_eq_some.2 (by rw [← hk]; exact hr)
    rw [h] at hget
    cases hget

/-- A row put in the place of the one of its number. -/
def replace (t : Numbered κ α) (k : κ) (a : α) : Numbered κ α where
  rows := t.rows.map fun r => if r.1 = k then (k, a) else r
  nodup := by
    have hkeys : (t.rows.map fun r => if r.1 = k then (k, a) else r).map Prod.fst =
        t.rows.map Prod.fst := by
      rw [List.map_map]
      refine List.map_congr_left fun r _ => ?_
      by_cases hr : r.1 = k
      · simp [hr]
      · simp [hr]
    rw [hkeys]
    exact t.nodup

def erase (t : Numbered κ α) (k : κ) : Numbered κ α where
  rows := t.rows.filter fun r => r.1 ≠ k
  nodup := t.nodup.sublist (List.filter_sublist.map _)

theorem rows_replace {t : Numbered κ α} {k : κ} {a b : α} {before after : List (κ × α)}
    (hrows : t.rows = before ++ (k, a) :: after) (hbefore : ∀ r ∈ before, r.1 ≠ k)
    (hafter : ∀ r ∈ after, r.1 ≠ k) : (t.replace k b).rows = before ++ (k, b) :: after := by
  have hsame : ∀ l : List (κ × α), (∀ r ∈ l, r.1 ≠ k) →
      l.map (fun r => if r.1 = k then (k, b) else r) = l := fun l hl => by
    calc l.map (fun r => if r.1 = k then (k, b) else r) = l.map id :=
          List.map_congr_left fun r hr => if_neg (hl r hr)
      _ = l := List.map_id _
  change t.rows.map _ = _
  rw [hrows, List.map_append, List.map_cons, hsame before hbefore, hsame after hafter, if_pos rfl]

theorem rows_erase {t : Numbered κ α} {k : κ} {a : α} {before after : List (κ × α)}
    (hrows : t.rows = before ++ (k, a) :: after) (hbefore : ∀ r ∈ before, r.1 ≠ k)
    (hafter : ∀ r ∈ after, r.1 ≠ k) : (t.erase k).rows = before ++ after := by
  have hkeep : ∀ l : List (κ × α), (∀ r ∈ l, r.1 ≠ k) → l.filter (fun r => r.1 ≠ k) = l :=
    fun l hl => List.filter_eq_self.2 fun r hr => by simpa using hl r hr
  change t.rows.filter _ = _
  rw [hrows, List.filter_append, hkeep before hbefore, List.filter_cons_of_neg (by simp),
    hkeep after hafter]

end Numbered

namespace Change

variable [DecidableEq κ]

/-- The change made; `none` when there is no row to change, or one in the way. -/
def apply (t : Numbered κ α) : Change κ α → Option (Numbered κ α)
  | .insert k a => if h : t.get? k = none then some (t.insert k a h) else none
  | .update k a => if (t.get? k).isSome then some (t.replace k a) else none
  | .delete k => if (t.get? k).isSome then some (t.erase k) else none

/-- What a trigger takes out of a total and puts in it. -/
def upkeep [AddCommMonoid M] [Sub M] (f : κ → α → M) (t : Numbered κ α) (v : M) : Change κ α → M
  | .insert k a => v + f k a
  | .update k a => v - (t.get? k).elim 0 (f k) + f k a
  | .delete k => v - (t.get? k).elim 0 (f k)

section Total

variable [AddCommMonoid M]

/-- What a row gives, beside what the others give. -/
theorem exists_total_eq {t : Numbered κ α} {k : κ} {old : α} (f : κ → α → M)
    (h : t.get? k = some old) : ∃ rest, t.total f = rest + f k old ∧
      (∀ a, (t.replace k a).total f = rest + f k a) ∧ (t.erase k).total f = rest := by
  obtain ⟨before, after, hrows, hbefore, hafter⟩ := Numbered.exists_rows_eq h
  refine ⟨(before.map fun r => f r.1 r.2).sum + (after.map fun r => f r.1 r.2).sum, ?_, ?_, ?_⟩
  · simp [Numbered.total, hrows, add_comm, add_left_comm]
  · intro a
    simp [Numbered.total, Numbered.rows_replace hrows hbefore hafter, add_comm, add_left_comm]
  · simp [Numbered.total, Numbered.rows_erase hrows hbefore hafter]

variable [PartialOrder M] [AddLeftReflectLE M] [Sub M] [OrderedSub M]
  {f : κ → α → M} {t t' : Numbered κ α} {c : Change κ α}

theorem total_apply (h : c.apply t = some t') : t'.total f = c.upkeep f t (t.total f) := by
  cases c with
  | insert k a =>
    simp only [apply] at h
    split at h
    · cases h
      simp [upkeep, Numbered.total, Numbered.insert]
    · cases h
  | update k a =>
    simp only [apply] at h
    split at h
    case isFalse => cases h
    case isTrue hsome =>
      cases h
      obtain ⟨old, hold⟩ := Option.isSome_iff_exists.1 hsome
      obtain ⟨rest, hwas, hnow, -⟩ := exists_total_eq f hold
      rw [hnow, upkeep, hold, hwas, Option.elim_some, add_tsub_cancel_right]
  | delete k =>
    simp only [apply] at h
    split at h
    case isFalse => cases h
    case isTrue hsome =>
      cases h
      obtain ⟨old, hold⟩ := Option.isSome_iff_exists.1 hsome
      obtain ⟨rest, hwas, -, hnow⟩ := exists_total_eq f hold
      rw [hnow, upkeep, hold, hwas, Option.elim_some, add_tsub_cancel_right]

end Total

end Change

end Spectral.Lib
