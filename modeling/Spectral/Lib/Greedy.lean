import Mathlib.Data.List.Induction
import Mathlib.Data.Nat.Basic

/-!
# A greedy choice

The candidates come in an order, the best first.  A candidate that is good is kept when it clashes
with nothing that was kept before it.

* `greedy` — the choice.
* `pairwise_greedy` — no two that were kept clash.
* `mem_greedy_or_clash` — a good candidate is kept, or it clashes with one before it that is kept.
* `sweep` — the same for intervals that come in the order of their starts: what begins before the last
  one that was kept has ended is passed over (`pairwise_sweep`, `exists_mem_sweep`).
-/

namespace Spectral.Lib

variable {α : Type*}

section

variable (clash : α → α → Bool) (good : α → Bool)

/-- One candidate, with those that were kept before it. -/
def chooseNext (kept : List α) (a : α) : List α :=
  if kept.any (clash a) || !good a then kept else kept ++ [a]

/-- The choice among the candidates of a list. -/
def greedy (l : List α) : List α := l.foldl (chooseNext clash good) []

end

variable {clash : α → α → Bool} {good : α → Bool} {l kept : List α} {a b : α}

theorem greedy_concat (clash : α → α → Bool) (good : α → Bool) (l : List α) (a : α) :
    greedy clash good (l ++ [a]) = chooseNext clash good (greedy clash good l) a := by
  simp [greedy]

theorem chooseNext_eq_or (clash : α → α → Bool) (good : α → Bool) (kept : List α) (a : α) :
    chooseNext clash good kept a = kept ∨
      chooseNext clash good kept a = kept ++ [a] ∧ good a = true ∧ ∀ b ∈ kept, clash a b = false := by
  unfold chooseNext
  split
  · exact Or.inl rfl
  · rename_i h
    simp only [Bool.or_eq_true, List.any_eq_true, Bool.not_eq_true', not_or, not_exists, not_and,
      Bool.not_eq_true, Bool.not_eq_false] at h
    exact Or.inr ⟨rfl, h.2, h.1⟩

theorem mem_chooseNext_of_mem (h : b ∈ kept) : b ∈ chooseNext clash good kept a := by
  rcases chooseNext_eq_or clash good kept a with heq | ⟨heq, -, -⟩
  · rwa [heq]
  · rw [heq]
    exact List.mem_append_left _ h

/-- What is kept is good, and a candidate. -/
theorem good_of_mem_greedy (h : a ∈ greedy clash good l) : a ∈ l ∧ good a = true := by
  induction l using List.reverseRecOn with
  | nil => cases h
  | append_singleton l x ih =>
    rw [greedy_concat] at h
    rcases chooseNext_eq_or clash good (greedy clash good l) x with heq | ⟨heq, hgood, -⟩
    · rw [heq] at h
      exact ⟨List.mem_append_left _ (ih h).1, (ih h).2⟩
    · rw [heq, List.mem_append, List.mem_singleton] at h
      rcases h with h | rfl
      · exact ⟨List.mem_append_left _ (ih h).1, (ih h).2⟩
      · exact ⟨by simp, hgood⟩

/-- No two that are kept clash. -/
theorem pairwise_greedy (clash : α → α → Bool) (good : α → Bool) (l : List α) :
    (greedy clash good l).Pairwise fun a b => clash b a = false := by
  induction l using List.reverseRecOn with
  | nil => exact List.Pairwise.nil
  | append_singleton l x ih =>
    rw [greedy_concat]
    rcases chooseNext_eq_or clash good (greedy clash good l) x with heq | ⟨heq, -, hclash⟩
    · rwa [heq]
    · rw [heq, List.pairwise_append]
      refine ⟨ih, List.pairwise_singleton _ _, ?_⟩
      intro a ha b hb
      rw [List.mem_singleton.1 hb]
      exact hclash a ha

/-- **Nothing good is lost to a later candidate.**  A good candidate is kept, or one before it in
the list is kept and clashes with it. -/
theorem mem_greedy_or_clash (clash : α → α → Bool) (good : α → Bool) {before : α → α → Prop}
    (hl : l.Pairwise before) (ha : a ∈ l) (hgood : good a = true) : a ∈ greedy clash good l ∨
      ∃ b ∈ greedy clash good l, before b a ∧ clash a b = true := by
  induction l using List.reverseRecOn with
  | nil => cases ha
  | append_singleton l x ih =>
    rw [List.pairwise_append] at hl
    rw [greedy_concat]
    rcases List.mem_append.1 ha with ha | ha
    · rcases ih hl.1 ha with h | ⟨b, hb, h⟩
      · exact Or.inl (mem_chooseNext_of_mem h)
      · exact Or.inr ⟨b, mem_chooseNext_of_mem hb, h⟩
    · obtain rfl := List.mem_singleton.1 ha
      by_cases hclash : ∃ b ∈ greedy clash good l, clash a b = true
      · obtain ⟨b, hb, h⟩ := hclash
        have hbefore : before b a := hl.2.2 b (good_of_mem_greedy hb).1 a (by simp)
        exact Or.inr ⟨b, mem_chooseNext_of_mem hb, hbefore, h⟩
      · have hnext : chooseNext clash good (greedy clash good l) a = greedy clash good l ++ [a] := by
          have hnone : (greedy clash good l).any (clash a) = false := by simpa using hclash
          simp [chooseNext, hnone, hgood]
        rw [hnext]
        exact Or.inl (by simp)

/-! ## Intervals -/

section Sweep

variable (start stop : α → ℕ)

/-- The intervals that begin where those kept before have ended; `covered` is how far these reach. -/
def sweep : ℕ → List α → List α
  | _, [] => []
  | covered, a :: l => if start a < covered then sweep covered l else a :: sweep (stop a) l

variable {start stop} {covered : ℕ}

theorem sublist_sweep : (sweep start stop covered l).Sublist l := by
  induction l generalizing covered with
  | nil => exact List.Sublist.slnil
  | cons a l ih =>
    unfold sweep
    split
    · exact ih.cons a
    · exact ih.cons_cons a

/-- Where intervals do not end before they begin, each that is kept begins where the others have
ended. -/
theorem pairwise_sweep (hstop : ∀ a ∈ l, start a ≤ stop a) :
    (∀ a ∈ sweep start stop covered l, covered ≤ start a) ∧
      (sweep start stop covered l).Pairwise fun a b => stop a ≤ start b := by
  induction l generalizing covered with
  | nil => exact ⟨fun a ha => absurd ha List.not_mem_nil, List.Pairwise.nil⟩
  | cons a l ih =>
    have hl : ∀ b ∈ l, start b ≤ stop b := fun b hb => hstop b (List.mem_cons_of_mem _ hb)
    unfold sweep
    split
    · exact ih hl
    · rename_i hfree
      obtain ⟨hbehind, hpair⟩ := ih hl
      have ha := hstop a List.mem_cons_self
      refine ⟨fun b hb => ?_, List.pairwise_cons.2 ⟨hbehind, hpair⟩⟩
      rcases List.mem_cons.1 hb with rfl | hb
      · exact not_lt.1 hfree
      · exact le_trans (not_lt.1 hfree) (le_trans ha (hbehind b hb))

/-- **An interval is kept**, or it begins inside one that is. -/
theorem exists_mem_sweep (hsorted : l.Pairwise fun a b => start a ≤ start b) (ha : a ∈ l) :
    start a < covered ∨
      ∃ b ∈ sweep start stop covered l, start b ≤ start a ∧ (b = a ∨ start a < stop b) := by
  induction l generalizing covered with
  | nil => cases ha
  | cons c l ih =>
    obtain ⟨hc, hl⟩ := List.pairwise_cons.1 hsorted
    unfold sweep
    split
    · rename_i hlt
      rcases List.mem_cons.1 ha with rfl | hal
      · exact Or.inl hlt
      · exact ih hl hal
    · rcases List.mem_cons.1 ha with rfl | hal
      · exact Or.inr ⟨a, List.mem_cons_self, le_rfl, Or.inl rfl⟩
      · have hrest : start a < stop c ∨ ∃ b ∈ sweep start stop (stop c) l, start b ≤ start a ∧
            (b = a ∨ start a < stop b) := ih hl hal
        rcases hrest with hlt | ⟨b, hb, hstart, hkept⟩
        · exact Or.inr ⟨c, List.mem_cons_self, hc a hal, Or.inr hlt⟩
        · exact Or.inr ⟨b, List.mem_cons_of_mem _ hb, hstart, hkept⟩

end Sweep

end Spectral.Lib
