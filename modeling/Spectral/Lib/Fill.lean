import Mathlib.Algebra.BigOperators.Group.List.Basic
import Mathlib.Algebra.GroupWithZero.Nat
import Mathlib.Data.List.Sort
import Mathlib.Order.Lattice

/-!
# Filling a budget from a sorted list

The elements of a list come one after the other until the next one does not fit.

* `pairwise_stable`, `filter_insertionSort` — a stable sort by score: of equal scores the order of
  the list stays, and a test may be made before the sort or after it.
* `fill` — the loop.  What it takes is the longest beginning of the list that fits (`fill_prefix`,
  `fill_fits`, `fill_longest`).
* `fillAtLeastOne` — the same loop, which does not ask whether the first element fits;
  `fillAtLeastOne_eq`: if that fits, nothing is different.
-/

namespace Spectral.Lib

variable {α : Type*}

/-! ## Stable sorts -/

section Stable

variable {β : Type*} [LinearOrder β] {score : α → β} {r : α → α → Prop} {l : List α}

theorem pairwise_orderedInsert_then {a : α}
    (hl : l.Pairwise fun b c => score c < score b ∨ score b = score c ∧ r b c)
    (ha : ∀ b ∈ l, r a b) :
    (l.orderedInsert (fun b c => score c ≤ score b) a).Pairwise fun b c =>
      score c < score b ∨ score b = score c ∧ r b c := by
  have hthen : ∀ b ∈ l, score b ≤ score a → score b < score a ∨ score a = score b ∧ r a b :=
    fun b hb hle => hle.lt_or_eq.imp_right fun heq => ⟨heq.symm, ha b hb⟩
  induction l with
  | nil => exact List.pairwise_singleton _ a
  | cons b l ih =>
    obtain ⟨hb, htail⟩ := List.pairwise_cons.1 hl
    rw [List.orderedInsert_cons]
    split
    · rename_i hle
      refine List.pairwise_cons.2 ⟨fun c hc => hthen c hc ?_, hl⟩
      rcases List.mem_cons.1 hc with rfl | hc
      · exact hle
      · rcases hb c hc with hlt | ⟨heq, -⟩
        · exact (hlt.trans_le hle).le
        · exact heq ▸ hle
    · rename_i hlt
      have hrest := ih htail (fun c hc => ha c (List.mem_cons_of_mem b hc))
        fun c hc => hthen c (List.mem_cons_of_mem b hc)
      refine List.pairwise_cons.2 ⟨fun c hc => ?_, hrest⟩
      rcases (List.mem_orderedInsert _).1 hc with rfl | hc
      · exact Or.inl (not_le.1 hlt)
      · exact hb c hc

/-- **Of equal scores** the order of the list stays. -/
theorem pairwise_stable (h : l.Pairwise r) :
    (l.insertionSort fun b c => score c ≤ score b).Pairwise fun b c =>
      score c < score b ∨ score b = score c ∧ r b c := by
  induction l with
  | nil => exact List.Pairwise.nil
  | cons a l ih =>
    obtain ⟨ha, htail⟩ := List.pairwise_cons.1 h
    exact pairwise_orderedInsert_then (ih htail) fun b hb => ha b ((List.mem_insertionSort _).1 hb)

variable {s : α → α → Prop} [DecidableRel s] [IsTrans α s] {p : α → Bool}

theorem filter_orderedInsert (h : l.Pairwise s) (a : α) :
    (l.orderedInsert s a).filter p =
      if p a = true then (l.filter p).orderedInsert s a else l.filter p := by
  induction l with
  | nil => by_cases ha : p a = true <;> simp [ha]
  | cons b l ih =>
    obtain ⟨hb, htail⟩ := List.pairwise_cons.1 h
    rw [List.orderedInsert_cons]
    by_cases hab : s a b
    · rw [if_pos hab]
      by_cases ha : p a = true
      · rw [List.filter_cons_of_pos ha, if_pos ha]
        -- everything behind `b` is behind `a` as well
        have hbehind : ∀ c ∈ (b :: l).filter p, s a c := by
          intro c hc
          rcases List.mem_cons.1 (List.mem_filter.1 hc).1 with rfl | hc
          · exact hab
          · exact IsTrans.trans a b c hab (hb c hc)
        cases hlist : (b :: l).filter p with
        | nil => rfl
        | cons c rest =>
          rw [List.orderedInsert_cons, if_pos (hbehind c (by rw [hlist]; exact List.mem_cons_self))]
      · rw [List.filter_cons_of_neg ha, if_neg ha]
    · rw [if_neg hab]
      by_cases hpb : p b = true
      · rw [List.filter_cons_of_pos hpb, List.filter_cons_of_pos hpb, ih htail]
        split
        · rw [List.orderedInsert_cons, if_neg hab]
        · rfl
      · rw [List.filter_cons_of_neg hpb, List.filter_cons_of_neg hpb, ih htail]

/-- **A test** may be made before the sort or after it. -/
theorem filter_insertionSort [Std.Total s] (l : List α) :
    (l.insertionSort s).filter p = (l.filter p).insertionSort s := by
  induction l with
  | nil => rfl
  | cons a l ih =>
    rw [List.insertionSort_cons, filter_orderedInsert (List.pairwise_insertionSort s l), ih]
    by_cases ha : p a = true
    · rw [if_pos ha, List.filter_cons_of_pos ha, List.insertionSort_cons]
    · rw [if_neg ha, List.filter_cons_of_neg ha]

end Stable

/-! ## The budget -/

section Fill

variable (size : α → ℕ) (budget : ℕ)

/-- Elements are taken until the next one does not fit; `used` is taken already. -/
def fill : ℕ → List α → List α
  | _, [] => []
  | used, a :: l => if budget < used + size a then [] else a :: fill (used + size a) l

/-- The first element is taken in any case. -/
def fillAtLeastOne : List α → List α
  | [] => []
  | a :: l => a :: fill size budget (size a) l

/-- The sizes of some elements, added up. -/
def totalSize (l : List α) : ℕ := (l.map size).sum

variable {size budget} {used : ℕ} {l : List α}

@[simp] theorem totalSize_nil : totalSize size [] = 0 := rfl

@[simp] theorem totalSize_cons (a : α) (l : List α) :
    totalSize size (a :: l) = size a + totalSize size l := by
  simp [totalSize]

theorem fill_prefix : fill size budget used l <+: l := by
  induction l generalizing used with
  | nil => exact List.prefix_rfl
  | cons a l ih =>
    unfold fill
    split
    · exact List.nil_prefix
    · exact (List.cons_prefix_cons).2 ⟨rfl, ih⟩

theorem fill_fits (h : used ≤ budget) : used + totalSize size (fill size budget used l) ≤ budget := by
  induction l generalizing used with
  | nil => simpa [fill] using h
  | cons a l ih =>
    unfold fill
    split
    · simpa using h
    · rename_i hroom
      have hrest : used + size a + totalSize size (fill size budget (used + size a) l) ≤ budget :=
        ih (not_lt.1 hroom)
      rw [totalSize_cons]
      omega

/-- Every beginning of the list that fits is as long at most. -/
theorem fill_longest {first : List α} (h : first <+: l)
    (hfits : used + totalSize size first ≤ budget) :
    first.length ≤ (fill size budget used l).length := by
  induction l generalizing used first with
  | nil => simp [List.prefix_nil.1 h]
  | cons a l ih =>
    cases first with
    | nil => exact Nat.zero_le _
    | cons b first =>
      obtain ⟨rfl, hfirst⟩ := List.cons_prefix_cons.1 h
      rw [totalSize_cons] at hfits
      have hrest : first.length ≤ (fill size budget (used + size b) l).length :=
        ih hfirst (by omega)
      rw [fill, if_neg (by omega)]
      exact Nat.succ_le_succ hrest

theorem fillAtLeastOne_prefix : fillAtLeastOne size budget l <+: l := by
  cases l with
  | nil => exact List.prefix_rfl
  | cons a l => exact List.cons_prefix_cons.2 ⟨rfl, fill_prefix⟩

/-- When the first one fits it is taken for that. -/
theorem fillAtLeastOne_eq (h : ∀ a ∈ l.head?, size a ≤ budget) :
    fillAtLeastOne size budget l = fill size budget 0 l := by
  cases l with
  | nil => rfl
  | cons a l =>
    have ha : size a ≤ budget := h a rfl
    rw [fillAtLeastOne, fill, if_neg (by omega), Nat.zero_add]

/-- When it does not, it is the only one. -/
theorem fillAtLeastOne_of_lt {a : α} (h : budget < size a) :
    fillAtLeastOne size budget (a :: l) = [a] := by
  rw [fillAtLeastOne]
  cases l with
  | nil => rfl
  | cons b l => rw [fill, if_pos (by omega)]

end Fill

end Spectral.Lib
