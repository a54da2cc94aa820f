import Mathlib.Data.List.Induction
import Mathlib.Order.Lattice
import Spectral.Lib.Grouping
import Spectral.Lib.HashMap

/-!
# Maps in the order of their keys

A map whose entries are kept in the order of the keys, so that a loop over the map meets them in it.

* `entry` — `entry(k).or_insert(d)` followed by a change of the value; `get?_entry`.
* `groups` — the loop that puts each element of a list into the group of its key.
* `mem_entries_groups` — what it leaves: for each key the elements with it, in the order of the list.
* `perm_flatMap_entries_groups` — no element is lost, and none is there twice.
-/

namespace Spectral.Lib

/-- A list of entries with increasing keys. -/
structure BTreeMap (κ α : Type) [LinearOrder κ] where
  entries : List (κ × α)
  sorted : (entries.map Prod.fst).Pairwise (· < ·)

namespace BTreeMap

variable {κ α : Type} [LinearOrder κ]

/-- The map without entries. -/
def empty : BTreeMap κ α := ⟨[], List.Pairwise.nil⟩

/-- `get`. -/
def get? (m : BTreeMap κ α) (k : κ) : Option α := (m.entries.find? fun e => e.1 = k).map Prod.snd

/-- The entries with that of a key changed, or inserted at its place. -/
def changeEntry (k : κ) (d : α) (f : α → α) : List (κ × α) → List (κ × α)
  | [] => [(k, f d)]
  | e :: es =>
    if k < e.1 then (k, f d) :: e :: es
    else if e.1 = k then (k, f e.2) :: es
    else e :: changeEntry k d f es

theorem mem_keys_changeEntry {k k' : κ} {d : α} {f : α → α} {es : List (κ × α)}
    (h : k' ∈ (changeEntry k d f es).map Prod.fst) : k' = k ∨ k' ∈ es.map Prod.fst := by
  induction es with
  | nil => exact Or.inl (List.mem_singleton.1 h)
  | cons e es ih =>
    unfold changeEntry at h
    split at h
    · exact List.mem_cons.1 h
    · split at h
      · exact (List.mem_cons.1 h).imp_right (List.mem_cons_of_mem _)
      · rcases List.mem_cons.1 h with rfl | h
        · exact Or.inr List.mem_cons_self
        · exact (ih h).imp_right (List.mem_cons_of_mem _)

theorem sorted_changeEntry (k : κ) (d : α) (f : α → α) {es : List (κ × α)}
    (h : (es.map Prod.fst).Pairwise (· < ·)) :
    ((changeEntry k d f es).map Prod.fst).Pairwise (· < ·) := by
  induction es with
  | nil => exact List.pairwise_singleton _ _
  | cons e es ih =>
    obtain ⟨hlt, hsorted⟩ := List.pairwise_cons.1 h
    unfold changeEntry
    split
    · rename_i hke
      refine List.pairwise_cons.2 ⟨fun k' hk' => ?_, h⟩
      rcases List.mem_cons.1 hk' with rfl | hk'
      · exact hke
      · exact hke.trans (hlt k' hk')
    · split
      · rename_i hek
        subst hek
        exact h
      · rename_i hnot hne
        refine List.pairwise_cons.2 ⟨fun k' hk' => ?_, ih hsorted⟩
        rcases mem_keys_changeEntry hk' with rfl | hk'
        · exact lt_of_le_of_ne (not_lt.1 hnot) hne
        · exact hlt k' hk'

/-- `entry(k).or_insert(d)`, and the value it refers to changed by `f`. -/
def entry (m : BTreeMap κ α) (k : κ) (d : α) (f : α → α) : BTreeMap κ α :=
  ⟨changeEntry k d f m.entries, sorted_changeEntry k d f m.sorted⟩

variable {m : BTreeMap κ α} {k k' : κ}

theorem find?_changeEntry (d : α) (f : α → α) {es : List (κ × α)}
    (h : (es.map Prod.fst).Pairwise (· < ·)) :
    (changeEntry k d f es).find? (fun e => e.1 = k') =
      if k' = k then some (k, f (((es.find? fun e => e.1 = k).map Prod.snd).getD d))
      else es.find? fun e => e.1 = k' := by
  induction es with
  | nil =>
    by_cases hk : k' = k
    · simp [changeEntry, hk]
    · simp [changeEntry, hk, Ne.symm hk]
  | cons e es ih =>
    obtain ⟨hlt, hsorted⟩ := List.pairwise_cons.1 h
    unfold changeEntry
    split
    · rename_i hke
      -- the key is less than all there are
      have hnone : (e :: es).find? (fun e => e.1 = k) = none := by
        rw [List.find?_eq_none]
        intro x hx
        have hkx : k < x.1 := by
          rcases List.mem_cons.1 hx with rfl | hx
          · exact hke
          · exact hke.trans (hlt x.1 (List.mem_map_of_mem hx))
        simpa using hkx.ne'
      by_cases hk : k' = k
      · rw [hk, if_pos rfl, hnone]
        simp
      · rw [if_neg hk, List.find?_cons_of_neg (by simpa using Ne.symm hk)]
    · split
      · rename_i hek
        by_cases hk : k' = k
        · simp [hk, hek]
        · simp [hk, hek, Ne.symm hk]
      · rename_i hnot hne
        by_cases hek' : e.1 = k'
        · rw [List.find?_cons_of_pos (by simpa using hek'), if_neg fun hk => hne (hek'.trans hk),
            List.find?_cons_of_pos (by simpa using hek')]
        · rw [List.find?_cons_of_neg (by simpa using hek'), ih hsorted,
            List.find?_cons_of_neg (by simpa using hne), List.find?_cons_of_neg (by simpa using hek')]

theorem get?_entry (m : BTreeMap κ α) (k k' : κ) (d : α) (f : α → α) :
    (m.entry k d f).get? k' = if k' = k then some (f ((m.get? k).getD d)) else m.get? k' := by
  rw [get?, entry, find?_changeEntry d f m.sorted]
  split <;> rfl

theorem nodup_keys (m : BTreeMap κ α) : (m.entries.map Prod.fst).Nodup :=
  m.sorted.imp fun h => h.ne

theorem mem_entries_iff {e : κ × α} : e ∈ m.entries ↔ m.get? e.1 = some e.2 := by
  constructor
  · intro h
    have hsome : (m.entries.find? fun e' => e'.1 = e.1).isSome = true :=
      List.find?_isSome.2 ⟨e, h, decide_eq_true rfl⟩
    obtain ⟨e', he'⟩ := Option.isSome_iff_exists.1 hsome
    have hkey : e'.1 = e.1 := by simpa using List.find?_some he'
    obtain rfl : e' = e := List.inj_on_of_nodup_map m.nodup_keys (List.mem_of_find?_eq_some he') h hkey
    rw [get?, he', Option.map_some]
  · intro h
    obtain ⟨e', he', hvalue⟩ := Option.map_eq_some_iff.1 h
    have hkey : e'.1 = e.1 := by simpa using List.find?_some he'
    obtain rfl : e' = e := Prod.ext hkey hvalue
    exact List.mem_of_find?_eq_some he'

/-! ## Groups -/

/-- The loop that puts each element into the group of its key. -/
def groups (key : α → κ) (l : List α) : BTreeMap κ (List α) :=
  l.foldl (fun m a => m.entry (key a) [] (· ++ [a])) empty

variable {key : α → κ} {l : List α}

theorem groups_concat (key : α → κ) (l : List α) (a : α) :
    groups key (l ++ [a]) = (groups key l).entry (key a) [] (· ++ [a]) := by
  simp [groups]

/-- **The groups**: each key has the elements with it, in the order of the list. -/
theorem get?_groups (key : α → κ) (l : List α) (k : κ) :
    (groups key l).get? k = if k ∈ l.map key then some (withKey key l k) else none := by
  induction l using List.reverseRecOn with
  | nil => rfl
  | append_singleton l a ih =>
    rw [groups_concat, get?_entry, withKey, List.filter_append, ← withKey]
    by_cases hk : k = key a
    · subst hk
      have hgroup : ((groups key l).get? (key a)).getD [] = withKey key l (key a) := by
        rw [ih]
        split
        · rfl
        · rename_i hnone
          refine (List.filter_eq_nil_iff.2 fun b hb => ?_).symm
          exact fun hba => hnone (of_decide_eq_true hba ▸ List.mem_map_of_mem hb)
      simp [hgroup]
    · rw [if_neg hk, ih]
      simp [hk, Ne.symm hk]

theorem mem_entries_groups {e : κ × List α} :
    e ∈ (groups key l).entries ↔ e.1 ∈ l.map key ∧ e.2 = withKey key l e.1 := by
  rw [mem_entries_iff, get?_groups]
  split
  · rename_i hk
    simp [hk, eq_comm]
  · rename_i hk
    simp [hk]

theorem perm_keys_groups (key : α → κ) (l : List α) :
    ((groups key l).entries.map Prod.fst).Perm (l.map key).dedup := by
  refine (List.perm_ext_iff_of_nodup (nodup_keys _) (List.nodup_dedup _)).2 fun k => ?_
  rw [List.mem_dedup, List.mem_map]
  constructor
  · rintro ⟨e, he, rfl⟩
    exact (mem_entries_groups.1 he).1
  · intro hk
    exact ⟨(k, withKey key l k), mem_entries_groups.2 ⟨hk, rfl⟩, rfl⟩

/-- The groups have the elements of the list. -/
theorem perm_flatMap_entries_groups (key : α → κ) (l : List α) :
    ((groups key l).entries.flatMap Prod.snd).Perm l := by
  have hgroups : (groups key l).entries.flatMap Prod.snd =
      ((groups key l).entries.map Prod.fst).flatMap (withKey key l) := by
    rw [List.flatMap_map]
    exact List.flatMap_congr fun e he => (mem_entries_groups.1 he).2
  rw [hgroups]
  exact ((perm_keys_groups key l).flatMap_right _).trans (perm_flatMap_groups key l)

end BTreeMap

end Spectral.Lib
