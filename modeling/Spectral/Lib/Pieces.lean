import Mathlib.Data.List.SplitBy
import Mathlib.Data.Nat.ModEq
import Mathlib.Tactic.Ring

/-!
# Cutting a list

A list is cut into its runs at the places where something changes (`List.splitBy`), and a run into
pieces of at most a given size.

* `cutEvery` — the pieces, as slices of the list; `flatten_cutEvery` puts them together again.
* `mem_cutEvery` — a piece with what is before and after it: it is full, or the rest of the list.
* `forall_eq_of_isChain` — what neighbours have in common, all of a run have in common.
* `prefix_of_notMem`, `append_eq_append_cons` — where an element stands that only one piece has.
-/

namespace Spectral.Lib

variable {α β : Type*}

/-- The pieces of `n` elements from the left; the last one has what is left. -/
def cutEvery (n : ℕ) (l : List α) : List (List α) :=
  (List.range ((l.length + n - 1) / n)).map fun i => (l.drop (i * n)).take n

@[simp] theorem cutEvery_nil (n : ℕ) : cutEvery n ([] : List α) = [] := by
  have hzero : (n - 1) / n = 0 := Nat.div_eq_zero_iff.2 (by omega)
  simp [cutEvery, hzero]

/-- The first `k` slices of size `n` are the first `k * n` elements. -/
theorem flatten_slices (n k : ℕ) (l : List α) :
    ((List.range k).map fun i => (l.drop (i * n)).take n).flatten = l.take (k * n) := by
  induction k with
  | zero => simp
  | succ k ih =>
    rw [List.range_succ, List.map_append, List.flatten_append, ih, Nat.succ_mul, List.take_add]
    simp

variable {n : ℕ} {l : List α}

/-- There are enough pieces for all of the list. -/
theorem length_le_mul_ceil (hn : 0 < n) : l.length ≤ (l.length + n - 1) / n * n := by
  have hdiv := Nat.div_add_mod (l.length + n - 1) n
  have hmod := Nat.mod_lt (l.length + n - 1) hn
  rw [Nat.mul_comm] at hdiv
  omega

theorem flatten_cutEvery (hn : 0 < n) : (cutEvery n l).flatten = l := by
  rw [cutEvery, flatten_slices]
  exact List.take_of_length_le (length_le_mul_ceil hn)

theorem cutEvery_map (f : α → β) : cutEvery n (l.map f) = (cutEvery n l).map (List.map f) := by
  simp [cutEvery, List.map_take, List.map_drop]

/-- A piece in its place, a multiple of `n` elements into the list: it is not empty, not too long,
and full unless nothing follows it. -/
theorem mem_cutEvery (hn : 0 < n) {c : List α} (h : c ∈ cutEvery n l) :
    ∃ before after, l = before ++ c ++ after ∧ n ∣ before.length ∧ 0 < c.length ∧ c.length ≤ n ∧
      (c.length = n ∨ after = []) := by
  unfold cutEvery at h
  rw [List.mem_map] at h
  obtain ⟨i, hi, rfl⟩ := h
  rw [List.mem_range] at hi
  have hstart : i * n < l.length := by
    have hle : (i + 1) * n ≤ (l.length + n - 1) / n * n := Nat.mul_le_mul_right n hi
    have hdiv := Nat.div_mul_le_self (l.length + n - 1) n
    rw [Nat.succ_mul] at hle
    omega
  refine ⟨l.take (i * n), (l.drop (i * n)).drop n, ?_, ?_, ?_, ?_, ?_⟩
  · rw [List.append_assoc, List.take_append_drop, List.take_append_drop]
  · rw [List.length_take_of_le hstart.le]
    exact Nat.dvd_mul_left n i
  · simp only [List.length_take, List.length_drop]
    omega
  · simp
  · rw [List.drop_eq_nil_iff]
    simp only [List.length_take, List.length_drop]
    omega

/-- Along a chain in which neighbours have the same value, all have it. -/
theorem forall_eq_of_isChain {r : α → α → Bool} {f : α → β}
    (hr : ∀ a b, r a b = true → f a = f b) {a : α} (hchain : (a :: l).IsChain fun a b => r a b) :
    ∀ x ∈ a :: l, f x = f a := by
  induction l generalizing a with
  | nil => simp
  | cons b l ih =>
    rw [List.isChain_cons_cons] at hchain
    intro x hx
    rcases List.mem_cons.1 hx with rfl | hx
    · rfl
    · rw [ih hchain.2 x hx, hr a b hchain.1]

/-! ## An element of one piece -/

/-- A beginning without an element is no further than it. -/
theorem prefix_of_notMem {m s t : List α} {c : α} (h : m <+: s ++ c :: t) (hc : c ∉ m) : m <+: s := by
  rw [List.append_cons] at h
  rcases List.prefix_or_prefix_of_prefix h (List.prefix_append (s ++ [c]) t) with h | h
  · rcases List.prefix_concat_iff.1 h with rfl | h
    · exact absurd (by simp) hc
    · exact h
  · exact absurd (h.subset (by simp)) hc

/-- An element that only the middle of a list has. -/
theorem append_eq_append_cons {x w r s u : List α} {c : α} (hx : c ∉ x) (hr : c ∉ r)
    (h : x ++ (w ++ r) = s ++ c :: u) : ∃ w₁ w₂, w = w₁ ++ c :: w₂ ∧ u = w₂ ++ r := by
  rcases List.append_eq_append_iff.1 h with ⟨v, rfl, hv⟩ | ⟨v, rfl, hv⟩
  · rcases List.append_eq_append_iff.1 hv with ⟨v', rfl, hv'⟩ | ⟨v', rfl, hv'⟩
    · exact absurd (by rw [hv']; simp) hr
    · cases v' with
      | nil => exact absurd (by rw [← List.nil_append r, ← hv']; simp) hr
      | cons d v' =>
        obtain ⟨rfl, rfl⟩ := List.cons_eq_cons.1 hv'
        exact ⟨v, v', rfl, rfl⟩
  · cases v with
    | nil =>
      cases w with
      | nil => exact absurd (by rw [show r = c :: u from hv.symm]; simp) hr
      | cons d w =>
        obtain ⟨rfl, rfl⟩ := List.cons_eq_cons.1 hv
        exact ⟨[], w, rfl, rfl⟩
    | cons d v =>
      obtain ⟨rfl, -⟩ := List.cons_eq_cons.1 hv
      exact absurd (by simp) hx

end Spectral.Lib
