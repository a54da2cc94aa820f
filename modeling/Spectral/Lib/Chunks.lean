import Mathlib.Algebra.BigOperators.Group.List.Basic
import Mathlib.Algebra.GroupWithZero.Nat
import Mathlib.Data.List.Count

/-!
# Chunks

A list cut into chunks, and how often its elements occur in it and in how many of the chunks.

* `flatten_toChunks` — the chunks make up the list.
* `mentions` — the number of chunks an element occurs in; it occurs at least as often in the list.
* `sum_countP_comm` — pairs are counted by their first or by their second component.
-/

namespace Spectral.Lib

variable {α β : Type*}

theorem flatten_toChunks (n : ℕ) (xs : List α) : (xs.toChunks n).flatten = xs := by
  cases xs with
  | nil => cases n <;> rfl
  | cons x xs =>
    cases n with
    | zero => simp [List.toChunks]
    | succ n =>
      have hgo : ∀ (xs : List α) (chunk : Array α) (chunks : Array (List α)),
          (List.toChunks.go (n + 1) xs chunk chunks).flatten =
            chunks.toList.flatten ++ (chunk.toList ++ xs) := by
        intro xs
        induction xs with
        | nil => simp [List.toChunks.go]
        | cons y ys ih =>
          intro chunk chunks
          rw [List.toChunks.go]
          split
          · rw [ih]
            simp
          · rw [ih]
            simp
      rw [List.toChunks, hgo]
      · simp
      · omega

/-- In how many chunks an element occurs. -/
def mentions [DecidableEq α] (chunks : List (List α)) (x : α) : ℕ :=
  chunks.countP fun chunk => decide (x ∈ chunk)

section

variable [DecidableEq α] {chunks : List (List α)} {x : α}

theorem mentions_cons (chunk : List α) :
    mentions (chunk :: chunks) x = mentions chunks x + if x ∈ chunk then 1 else 0 := by
  simp [mentions, List.countP_cons]

theorem mentions_concat (chunk : List α) :
    mentions (chunks ++ [chunk]) x = mentions chunks x + if x ∈ chunk then 1 else 0 := by
  simp [mentions]

theorem mentions_le_count : mentions chunks x ≤ chunks.flatten.count x := by
  induction chunks with
  | nil => exact Nat.le_refl 0
  | cons chunk chunks ih =>
    rw [mentions_cons, List.flatten_cons, List.count_append]
    split
    case isTrue h =>
      have hpos := List.count_pos_iff.2 h
      omega
    case isFalse => omega

theorem mentions_pos : 0 < mentions chunks x ↔ x ∈ chunks.flatten := by
  simp [mentions, List.countP_pos_iff]

end

/-- The number of elements with a property, as a sum over all of them. -/
theorem countP_eq_sum (p : α → Bool) (l : List α) :
    l.countP p = (l.map fun a => if p a then 1 else 0).sum := by
  induction l with
  | nil => rfl
  | cons a l ih => rw [List.countP_cons, ih, List.map_cons, List.sum_cons, Nat.add_comm]

/-- A property that two elements of a list never share. -/
theorem countP_eq_ite {p : α → Bool} {l : List α}
    (h : l.Pairwise fun a b => ¬ (p a = true ∧ p b = true)) :
    l.countP p = if ∃ a ∈ l, p a = true then 1 else 0 := by
  induction l with
  | nil => simp
  | cons a l ih =>
    obtain ⟨hhead, htail⟩ := List.pairwise_cons.1 h
    rw [List.countP_cons, ih htail]
    by_cases ha : p a = true
    · have hnone : ¬ ∃ b ∈ l, p b = true := fun ⟨b, hb, hpb⟩ => hhead b hb ⟨ha, hpb⟩
      simp [ha, hnone]
    · simp [ha]

/-- Pairs that are related, counted by the first component and by the second. -/
theorem sum_countP_comm (R : α → β → Bool) (as : List α) (bs : List β) :
    (as.map fun a => bs.countP fun b => R a b).sum = (bs.map fun b => as.countP fun a => R a b).sum := by
  induction as with
  | nil => simp
  | cons a as ih =>
    simp only [List.map_cons, List.sum_cons, ih, List.countP_cons, List.sum_map_add,
      countP_eq_sum (R a) bs, Nat.add_comm]

/-- A sum over all elements, and one of something more over some of them, are the same when what the
others contribute is what is more. -/
theorem sum_eq_sum_ite_iff {b c : α → ℕ} (hle : ∀ a, b a ≤ c a) (p : α → Bool) (l : List α) :
    (l.map b).sum = (l.map fun a => if p a then c a else 0).sum ↔
      ((l.filter fun a => !p a).map b).sum = ((l.filter p).map fun a => c a - b a).sum := by
  have hboth : (l.map b).sum + ((l.filter p).map fun a => c a - b a).sum =
      (l.map fun a => if p a then c a else 0).sum + ((l.filter fun a => !p a).map b).sum := by
    induction l with
    | nil => rfl
    | cons a l ih =>
      have ha := hle a
      cases hp : p a
      · simp only [List.map_cons, List.sum_cons, List.filter_cons, hp, Bool.not_false, Bool.false_eq_true,
          ↓reduceIte]
        omega
      · simp only [List.map_cons, List.sum_cons, List.filter_cons, hp, Bool.not_true, Bool.false_eq_true,
          ↓reduceIte]
        omega
  omega

end Spectral.Lib
