import Mathlib.Data.List.Induction
import Mathlib.Data.List.Nodup
import Mathlib.Data.List.Dedup
import Mathlib.Algebra.BigOperators.Group.List.Basic

/-!
# Hash maps

A hash map is a list of entries with distinct keys, and its order is nobody's business: code
that iterates over the map gets the entries in an order of its own.  So what a program computes
from a map is settled by `get?`, and two maps with the same `get?` have the same entries in some
order (`perm_of_get?`).

* `entry` — `entry(k).or_insert(d)` followed by a change of the value.
* `insert`, `mapValues`, `retain`, `remove` — `insert`, `values_mut`, `retain` and `remove`.
* `collect` — `collect`.
* `perm_flatMap_groups` — a list, grouped by a key.
* `groupFold` — the loop that folds the elements of a list into one value for each key, and what
  it leaves (`get?_groupFold`, `perm_entries_groupFold`).
-/

namespace Spectral.Lib

/-- An order of iteration: every list is run through in some order. -/
structure Shuffle (α : Type) where
  run : List α → List α
  perm : ∀ l, (run l).Perm l

/-- The order of the list itself. -/
def Shuffle.inOrder {α : Type} : Shuffle α := ⟨fun l => l, fun _ => .rfl⟩

/-- The opposite order. -/
def Shuffle.backwards {α : Type} : Shuffle α := ⟨List.reverse, List.reverse_perm⟩

/-- A list of entries with distinct keys. -/
structure HashMap (κ α : Type) where
  entries : List (κ × α)
  nodup : (entries.map Prod.fst).Nodup
  deriving DecidableEq

namespace HashMap

variable {κ α β : Type} [DecidableEq κ]

/-- The map without entries. -/
def empty : HashMap κ α := ⟨[], List.nodup_nil⟩

instance : Inhabited (HashMap κ α) := ⟨empty⟩

/-- `keys`. -/
def keys (m : HashMap κ α) : List κ := m.entries.map Prod.fst

/-- `get`. -/
def get? (m : HashMap κ α) (k : κ) : Option α := (m.entries.find? fun e => e.1 = k).map Prod.snd

/-- The value of an entry, changed. -/
def changeAt (k : κ) (f : α → α) (e : κ × α) : κ × α := if e.1 = k then (e.1, f e.2) else e

theorem fst_changeAt (k : κ) (f : α → α) (e : κ × α) : (changeAt k f e).1 = e.1 := by
  unfold changeAt
  split <;> rfl

/-- `entry(k).or_insert(d)`, and the value it refers to changed by `f`. -/
def entry (m : HashMap κ α) (k : κ) (d : α) (f : α → α) : HashMap κ α :=
  if h : k ∈ m.keys then
    ⟨m.entries.map (changeAt k f), by simpa [Function.comp_def, fst_changeAt] using m.nodup⟩
  else ⟨m.entries ++ [(k, f d)], by
    rw [List.map_append, List.map_singleton, ← List.concat_eq_append]
    exact m.nodup.concat h⟩

/-- `insert`. -/
def insert (m : HashMap κ α) (k : κ) (v : α) : HashMap κ α := m.entry k v fun _ => v

/-- `values_mut`, each value changed by `f`. -/
def mapValues (m : HashMap κ α) (f : α → β) : HashMap κ β :=
  ⟨m.entries.map fun e => (e.1, f e.2), by simpa [Function.comp_def] using m.nodup⟩

/-- `retain`. -/
def retain (m : HashMap κ α) (p : κ → α → Bool) : HashMap κ α :=
  ⟨m.entries.filter fun e => p e.1 e.2, m.nodup.sublist (List.filter_sublist.map Prod.fst)⟩

/-- `remove`. -/
def remove (m : HashMap κ α) (k : κ) : HashMap κ α := m.retain fun k' _ => decide (k' ≠ k)

variable {m m' : HashMap κ α} {k k' : κ} {v : α}

/-! ## What a lookup finds -/

theorem mem_entries : (k, v) ∈ m.entries ↔ m.get? k = some v := by
  unfold get?
  constructor
  · intro h
    cases hfind : m.entries.find? fun e => e.1 = k with
    | none => simpa using List.find?_eq_none.1 hfind _ h
    | some e =>
      have he := List.mem_of_find?_eq_some hfind
      have hk : e.1 = k := by simpa using List.find?_some hfind
      rw [List.inj_on_of_nodup_map m.nodup he h hk]
      rfl
  · intro h
    obtain ⟨e, hfind, rfl⟩ := Option.map_eq_some_iff.1 h
    have hk : e.1 = k := by simpa using List.find?_some hfind
    rw [← hk]
    exact List.mem_of_find?_eq_some hfind

theorem mem_keys : k ∈ m.keys ↔ ∃ v, m.get? k = some v := by
  simp only [keys, List.mem_map, Prod.exists, mem_entries]
  simp

theorem get?_eq_none : m.get? k = none ↔ k ∉ m.keys := by
  rw [mem_keys]
  cases m.get? k <;> simp

/-- Maps that answer every lookup alike have the same entries. -/
theorem perm_of_get? (h : ∀ k, m.get? k = m'.get? k) : m.entries.Perm m'.entries := by
  refine (List.perm_ext_iff_of_nodup m.nodup.of_map m'.nodup.of_map).2 ?_
  rintro ⟨k, v⟩
  rw [mem_entries, mem_entries, h k]

theorem get?_of_entries_iff {o : Option α} (h : ∀ v, (k, v) ∈ m.entries ↔ o = some v) :
    m.get? k = o := by
  refine Option.ext fun v => ?_
  rw [← mem_entries, h]

theorem get?_eq_of_perm (h : m.entries.Perm m'.entries) : m.get? k = m'.get? k :=
  get?_of_entries_iff fun v => by rw [h.mem_iff, mem_entries]

@[simp] theorem get?_empty : (empty : HashMap κ α).get? k = none := rfl

theorem get?_entry {d : α} {f : α → α} : (m.entry k d f).get? k' =
    if k' = k then some (f ((m.get? k).getD d)) else m.get? k' := by
  refine get?_of_entries_iff fun v => ?_
  unfold entry
  split
  · rename_i hmem
    obtain ⟨w, hw⟩ := mem_keys.1 hmem
    constructor
    · intro h
      obtain ⟨⟨k₀, v₀⟩, he, heq⟩ := List.mem_map.1 h
      rw [mem_entries] at he
      by_cases hk : k₀ = k <;> simp_all [changeAt]
    · intro h
      by_cases hk : k' = k
      · refine List.mem_map.2 ⟨(k, w), mem_entries.2 hw, ?_⟩
        simp_all [changeAt]
      · refine List.mem_map.2 ⟨(k', v), mem_entries.2 (by simpa [hk] using h), ?_⟩
        simp [changeAt, hk]
  · rename_i hmem
    have hnone : m.get? k = none := get?_eq_none.2 hmem
    by_cases hk : k' = k
    · simp [List.mem_append, mem_entries, hk, hnone, eq_comm]
    · simp [List.mem_append, mem_entries, hk]

theorem get?_insert : (m.insert k v).get? k' = if k' = k then some v else m.get? k' := get?_entry

theorem get?_mapValues {f : α → β} : (m.mapValues f).get? k = (m.get? k).map f := by
  refine get?_of_entries_iff fun v => ?_
  simp [mapValues, mem_entries]

theorem get?_retain {p : κ → α → Bool} : (m.retain p).get? k = (m.get? k).filter (p k) := by
  refine get?_of_entries_iff fun v => ?_
  simp [retain, mem_entries, Option.filter_eq_some_iff]

/-- Every list filtered, and the keys left with nothing dropped. -/
theorem getD_get?_filtered [DecidableEq β] {m : HashMap κ (List β)} (p : β → Bool) :
    (((m.mapValues fun l => l.filter p).retain fun _ l => decide (l ≠ [])).get? k).getD [] =
      ((m.get? k).getD []).filter p := by
  rw [get?_retain, get?_mapValues]
  cases m.get? k with
  | none => rfl
  | some l =>
    rw [Option.map_some, Option.getD_some]
    generalize l.filter p = kept
    cases kept <;> rfl

theorem get?_remove : (m.remove k).get? k' = if k' = k then none else m.get? k' := by
  rw [remove, get?_retain]
  by_cases hk : k' = k <;> cases m.get? k' <;> simp [hk, Option.filter]

/-! ## Collecting a list of entries -/

/-- `collect`. -/
def collect (l : List (κ × α)) : HashMap κ α := l.foldl (fun m e => m.insert e.1 e.2) empty

theorem entries_insert_of_not_mem {m : HashMap κ α} {k : κ} {v : α} (h : k ∉ m.keys) :
    (m.insert k v).entries = m.entries ++ [(k, v)] := by
  rw [insert, entry, dif_neg h]

/-- Entries with distinct keys are collected as they are. -/
theorem entries_collect {l : List (κ × α)} (h : (l.map Prod.fst).Nodup) :
    (collect l).entries = l := by
  induction l using List.reverseRecOn with
  | nil => rfl
  | append_singleton l e ih =>
    rw [List.map_append, List.map_singleton, ← List.concat_eq_append, List.nodup_concat] at h
    have hl := ih h.2
    have hnew : e.1 ∉ (collect l).keys := by
      rw [keys, hl]
      exact h.1
    have hstep : collect (l ++ [e]) = (collect l).insert e.1 e.2 := by
      rw [collect, List.foldl_append]
      rfl
    rw [hstep, entries_insert_of_not_mem hnew, hl]

/-- The one entry of a key. -/
theorem filter_entries_eq (m : HashMap κ α) (k : κ) :
    (m.entries.filter fun e => e.1 = k) = ((m.get? k).map fun v => (k, v)).toList := by
  have hnodup : (m.entries.filter fun e => e.1 = k).Nodup := m.nodup.of_map.filter _
  have hmem : ∀ e, e ∈ (m.entries.filter fun e => e.1 = k) ↔
      e ∈ ((m.get? k).map fun v => (k, v)).toList := by
    rintro ⟨k', v⟩
    simp only [List.mem_filter, mem_entries, decide_eq_true_eq, Option.mem_toList,
      Option.map_eq_some_iff, Prod.mk.injEq]
    constructor
    · rintro ⟨h, rfl⟩
      exact ⟨v, h, rfl, rfl⟩
    · rintro ⟨w, h, rfl, rfl⟩
      exact ⟨h, rfl⟩
  cases hget : m.get? k with
  | none =>
    rw [hget] at hmem
    exact List.eq_nil_iff_forall_not_mem.2 fun e he => by simpa using (hmem e).1 he
  | some v =>
    rw [hget] at hmem
    refine List.perm_singleton.1 ((List.perm_ext_iff_of_nodup hnodup (List.nodup_singleton _)).2 ?_)
    exact fun e => (hmem e).trans (by simp)

/-! ## Folding a list into a map -/

/-- A lookup after a loop that updates entries: of the elements that have the key, one by one. -/
theorem get?_foldl_entry (key : β → κ) (d : β → α) (f : β → α → α) (xs : List β) (m : HashMap κ α)
    (k : κ) : (xs.foldl (fun m x => m.entry (key x) (d x) (f x)) m).get? k =
      (xs.filter fun x => key x = k).foldl (fun o x => some (f x (o.getD (d x)))) (m.get? k) := by
  induction xs generalizing m with
  | nil => rfl
  | cons x xs ih =>
    rw [List.foldl_cons, ih, get?_entry, List.filter_cons]
    by_cases hk : key x = k
    · simp [hk]
    · have hk' : ¬ k = key x := fun h => hk h.symm
      simp [hk, hk']

/-- Elements with other keys are of no consequence. -/
theorem get?_foldl_entry_filter {key : β → κ} {d : β → α} {f : β → α → α} {xs : List β}
    {m : HashMap κ α} {k : κ} {p : β → Bool} (hp : ∀ x, key x = k → p x = true) :
    ((xs.filter p).foldl (fun m x => m.entry (key x) (d x) (f x)) m).get? k =
      (xs.foldl (fun m x => m.entry (key x) (d x) (f x)) m).get? k := by
  have hsame : ((xs.filter p).filter fun x => key x = k) = xs.filter fun x => key x = k := by
    rw [List.filter_filter]
    refine List.filter_congr fun x _ => ?_
    by_cases hk : key x = k
    · simp [hk, hp x hk]
    · simp [hk]
  rw [get?_foldl_entry, get?_foldl_entry, hsame]

section GroupFold

variable (key : β → κ) (d : α) (step : β → α → α)

/-- The loop `for x in xs { step(entry(key(x)).or_insert(d)) }`. -/
def groupFold (xs : List β) : HashMap κ α :=
  xs.foldl (fun m x => m.entry (key x) d (step x)) empty

variable {key d step}

theorem groupFold_concat (xs : List β) (x : β) :
    groupFold key d step (xs ++ [x]) = (groupFold key d step xs).entry (key x) d (step x) :=
  List.foldl_append

/-- A key has a value once an element has that key: the fold of those elements. -/
theorem get?_groupFold (xs : List β) (k : κ) :
    (groupFold key d step xs).get? k = if k ∈ xs.map key then
      some ((xs.filter fun x => key x = k).foldl (fun a x => step x a) d) else none := by
  induction xs using List.reverseRecOn with
  | nil => rfl
  | append_singleton xs x ih =>
    rw [groupFold_concat, get?_entry]
    by_cases hk : k = key x
    · subst hk
      rw [ih]
      by_cases hmem : key x ∈ xs.map key
      · simp [hmem, List.filter_append, List.foldl_append]
      · have hnone : xs.filter (fun y => key y = key x) = [] := by
          rw [List.filter_eq_nil_iff]
          intro y hy hyx
          exact hmem (List.mem_map.2 ⟨y, hy, of_decide_eq_true hyx⟩)
        simp [hmem, List.filter_append, hnone]
    · have hx : ¬ key x = k := fun h => hk h.symm
      rw [if_neg hk, ih]
      simp [List.filter_append, hk, hx]

variable (key d step) in
/-- What an iteration over the map gets, up to its order. -/
theorem perm_entries_groupFold (xs : List β) : (groupFold key d step xs).entries.Perm
    ((xs.map key).dedup.map fun k =>
      (k, (xs.filter fun x => key x = k).foldl (fun a x => step x a) d)) := by
  have hnodup : ((xs.map key).dedup.map fun k =>
      (k, (xs.filter fun x => key x = k).foldl (fun a x => step x a) d)).Nodup :=
    (List.nodup_dedup _).map fun a b h => (Prod.mk.inj h).1
  refine (List.perm_ext_iff_of_nodup (groupFold key d step xs).nodup.of_map hnodup).2 ?_
  rintro ⟨k, v⟩
  rw [mem_entries, get?_groupFold]
  simp only [List.mem_map, List.mem_dedup, Option.ite_none_right_eq_some, Option.some.injEq, Prod.mk.injEq]
  constructor
  · rintro ⟨hk, rfl⟩
    exact ⟨k, hk, rfl, rfl⟩
  · rintro ⟨k, hk, rfl, rfl⟩
    exact ⟨hk, rfl⟩

end GroupFold

end HashMap

/-- A list grouped by a key has the elements of the list. -/
theorem perm_flatMap_groups {κ α : Type} [DecidableEq κ] (key : α → κ) (xs : List α) :
    ((xs.map key).dedup.flatMap fun k => xs.filter fun x => key x = k).Perm xs := by
  classical
  refine List.perm_iff_count.2 fun a => ?_
  rw [List.count_flatMap, List.sum_map_eq_nsmul_single (key a)]
  · by_cases hmem : a ∈ xs
    · rw [List.count_eq_one_of_mem (List.nodup_dedup _)
        (List.mem_dedup.2 (List.mem_map_of_mem hmem))]
      simp [List.count_filter]
    · simp [List.count_eq_zero_of_not_mem hmem]
  · intro k hk hmem
    simp [List.count_eq_zero, hk.symm]

end Spectral.Lib
