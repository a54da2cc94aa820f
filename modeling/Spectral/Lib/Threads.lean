import Mathlib.Data.List.Basic

/-!
# Calls under way

Concurrent calls are kept in a list, each at its place from its start on; a step moves the
call at one place on (`List.modify`).  The rules say what a step leaves of a property of all
calls and of one of some call: the call that moved is looked at, and the others are as before.
-/

namespace Spectral.Lib

variable {α : Type*} {l : List α} {i : ℕ} {f : α → α} {P : α → Prop}

/-- A property of all calls, after one has moved on. -/
theorem forall_mem_modify (hall : ∀ x ∈ l, P x) (hi : ∀ x, l[i]? = some x → P (f x)) :
    ∀ x ∈ l.modify i f, P x := by
  intro x hx
  obtain ⟨j, hj⟩ := List.mem_iff_getElem?.1 hx
  rw [List.getElem?_modify] at hj
  obtain ⟨y, hy, rfl⟩ := Option.map_eq_some_iff.1 hj
  by_cases hij : i = j
  · rw [if_pos hij]
    exact hi y (hij ▸ hy)
  · rw [if_neg hij]
    exact hall y (List.mem_of_getElem? hy)

/-- Some call has a property: the one at a given place, or another. -/
theorem exists_mem_iff_at {c : α} (hi : l[i]? = some c) :
    (∃ x ∈ l, P x) ↔ P c ∨ ∃ x ∈ l.eraseIdx i, P x := by
  simp only [List.mem_eraseIdx_iff_getElem?]
  constructor
  · rintro ⟨x, hx, hP⟩
    obtain ⟨j, hj⟩ := List.mem_iff_getElem?.1 hx
    by_cases hij : j = i
    · subst hij
      rw [hi] at hj
      cases hj
      exact Or.inl hP
    · exact Or.inr ⟨x, ⟨j, hij, hj⟩, hP⟩
  · rintro (hP | ⟨x, ⟨j, -, hj⟩, hP⟩)
    · exact ⟨c, List.mem_of_getElem? hi, hP⟩
    · exact ⟨x, List.mem_of_getElem? hj, hP⟩

/-- Some call has a property, after one has moved on: the one that moved, or another. -/
theorem exists_mem_modify_iff {c : α} (hi : l[i]? = some c) :
    (∃ x ∈ l.modify i f, P x) ↔ P (f c) ∨ ∃ x ∈ l.eraseIdx i, P x := by
  have hmoved : (l.modify i f)[i]? = some (f c) := by
    rw [List.getElem?_modify_eq, hi]
    rfl
  rw [exists_mem_iff_at hmoved, List.eraseIdx_modify_of_eq]

/-- A property of all calls, after one has moved on: the one that moved has it, and the others. -/
theorem forall_mem_modify_iff {c : α} (hi : l[i]? = some c) :
    (∀ x ∈ l.modify i f, P x) ↔ P (f c) ∧ ∀ x ∈ l.eraseIdx i, P x := by
  have h := not_congr (exists_mem_modify_iff (P := fun x => ¬ P x) (f := f) hi)
  push Not at h
  exact h

/-- What a step does not change of a call. -/
theorem map_modify_of_eq {β : Type*} {g : α → β} (h : ∀ x, g (f x) = g x) :
    (l.modify i f).map g = l.map g := by
  refine List.ext_getElem? fun j => ?_
  simp only [List.getElem?_map, List.getElem?_modify]
  cases l[j]? with
  | none => rfl
  | some x =>
    by_cases hij : i = j
    · simp [hij, h]
    · simp [hij]

/-- A step that leaves a call as it is. -/
theorem modify_const_of_getElem? {c : α} (hi : l[i]? = some c) : (l.modify i fun _ => c) = l := by
  refine List.ext_getElem? fun j => ?_
  rw [List.getElem?_modify]
  by_cases hij : i = j
  · subst hij
    simp [hi]
  · simp [hij]

/-- A symmetric relation between any two calls, of one of them and the others. -/
theorem rel_of_pairwise {R : α → α → Prop} (hsymm : ∀ x y, R x y → R y x) (hall : l.Pairwise R)
    {c : α} (hi : l[i]? = some c) : ∀ x ∈ l.eraseIdx i, R c x := by
  intro x hx
  obtain ⟨j, hj, hx⟩ := List.mem_eraseIdx_iff_getElem?.1 hx
  obtain ⟨hil, rfl⟩ := List.getElem?_eq_some_iff.1 hi
  obtain ⟨hjl, rfl⟩ := List.getElem?_eq_some_iff.1 hx
  rw [List.pairwise_iff_getElem] at hall
  rcases Nat.lt_or_gt_of_ne hj with hlt | hlt
  · exact hsymm _ _ (hall j i hjl hil hlt)
  · exact hall i j hil hjl hlt

/-- A symmetric relation between any two calls, after one has moved on: it is looked at against
each of the others. -/
theorem pairwise_modify {R : α → α → Prop} (hsymm : ∀ x y, R x y → R y x) (hall : l.Pairwise R)
    (hi : ∀ c, l[i]? = some c → ∀ x ∈ l.eraseIdx i, R (f c) x) : (l.modify i f).Pairwise R := by
  rw [List.pairwise_iff_getElem] at hall ⊢
  intro j k hj hk hjk
  have hj' : j < l.length := by simpa using hj
  have hk' : k < l.length := by simpa using hk
  have hother : ∀ m (hm : m < l.length), m ≠ i → l[m] ∈ l.eraseIdx i := fun m hm hne =>
    List.mem_eraseIdx_iff_getElem?.2 ⟨m, hne, List.getElem?_eq_getElem hm⟩
  simp only [List.getElem_modify]
  by_cases hij : i = j
  · subst hij
    rw [if_pos rfl, if_neg (by omega)]
    exact hi _ (List.getElem?_eq_getElem hj') _ (hother k hk' (by omega))
  · rw [if_neg hij]
    by_cases hik : i = k
    · subst hik
      rw [if_pos rfl]
      exact hsymm _ _ (hi _ (List.getElem?_eq_getElem hk') _ (hother j hj' (by omega)))
    · rw [if_neg hik]
      exact hall j k hj' hk' hjk

end Spectral.Lib
