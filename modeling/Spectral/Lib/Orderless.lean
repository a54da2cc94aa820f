import Mathlib.Data.List.MinMax
import Mathlib.Data.List.Pairwise
import Mathlib.Data.List.Sort
import Spectral.Lib.HashMap

/-!
# Loops that come to the same in any order

* `get?_foldl_of_perm` — a loop whose steps commute fills a map alike whatever the order.
* `pairwise_insertionSort_of_tied` — a sort is stable: what is so of every two elements that tie, in
  the order of the list, is so in the order of the sorted list.
* `insertionSort_eq_of_tied` — lists of the same elements are sorted alike when elements that tie
  came in the same order in both.
* `eq_of_tied_of_insertionSort_reverse` — a list that is sorted alike forwards and backwards has no
  two elements that tie.
* `head?_insertionSort` — a sort by a key begins with the first of the elements with the least key.
* `of_pairwise_of_not` — what is so of every two elements of a sorted list, as they come, is so of two
  in the order it is sorted by.
-/

namespace Spectral.Lib

/-! ## Maps -/

/-- A loop whose steps commute, as far as lookups can tell, fills a map alike in any order. -/
theorem HashMap.get?_foldl_of_perm {κ α β : Type} [DecidableEq κ]
    {step : HashMap κ α → β → HashMap κ α} {l l' : List β} (h : l.Perm l')
    (hcongr : ∀ x m m', (∀ k, m.get? k = m'.get? k) →
      ∀ k, (step m x).get? k = (step m' x).get? k)
    (hcomm : ∀ x ∈ l, ∀ y ∈ l, ∀ m k, (step (step m x) y).get? k = (step (step m y) x).get? k)
    {m m' : HashMap κ α} (hm : ∀ k, m.get? k = m'.get? k) :
    ∀ k, (l.foldl step m).get? k = (l'.foldl step m').get? k := by
  induction h generalizing m m' with
  | nil => exact hm
  | cons x _ ih =>
    refine ih (fun y hy z hz => hcomm y ?_ z ?_) (hcongr x m m' hm)
    · exact List.mem_cons_of_mem x hy
    · exact List.mem_cons_of_mem x hz
  | swap x y l =>
    have hfirst : ∀ k, (step (step m y) x).get? k = (step (step m' x) y).get? k := by
      intro k
      rw [hcomm y (by simp) x (by simp)]
      exact hcongr y _ _ (hcongr x m m' hm) k
    clear hcomm hm
    show ∀ k, (l.foldl step (step (step m y) x)).get? k =
      (l.foldl step (step (step m' x) y)).get? k
    generalize step (step m y) x = n at hfirst ⊢
    generalize step (step m' x) y = n' at hfirst ⊢
    induction l generalizing n n' with
    | nil => exact hfirst
    | cons z l ih => exact ih _ _ (hcongr z n n' hfirst)
  | trans h₁ _ ih₁ ih₂ =>
    intro k
    rw [ih₁ hcomm (fun _ => rfl)]
    refine ih₂ (fun x hx y hy => hcomm x ?_ y ?_) hm k
    · exact h₁.mem_iff.2 hx
    · exact h₁.mem_iff.2 hy

/-- Updates of two entries commute when, of one entry, they can be made in either order. -/
theorem HashMap.get?_entry_comm {κ α : Type} [DecidableEq κ] {k₁ k₂ : κ} {d₁ d₂ : α} {f₁ f₂ : α → α}
    (h : k₁ = k₂ → ∀ o : Option α, f₂ (f₁ (o.getD d₁)) = f₁ (f₂ (o.getD d₂))) (m : HashMap κ α)
    (k : κ) : ((m.entry k₁ d₁ f₁).entry k₂ d₂ f₂).get? k =
      ((m.entry k₂ d₂ f₂).entry k₁ d₁ f₁).get? k := by
  simp only [get?_entry]
  by_cases hkeys : k₁ = k₂
  · subst hkeys
    by_cases hk : k = k₁
    · simp only [hk, ↓reduceIte, Option.getD_some, h rfl]
    · simp only [hk, ↓reduceIte]
  · have hkeys' : ¬ k₂ = k₁ := fun h => hkeys h.symm
    by_cases hk : k = k₁
    · simp only [hk, hkeys, ↓reduceIte]
    · simp only [hk, hkeys', ↓reduceIte]

/-! ## Sorts -/

variable {α : Type*} {r P : α → α → Prop} [DecidableRel r] {l l' : List α}

theorem pairwise_orderedInsert_of_tied {a : α}
    (ha : ∀ b ∈ l, r a b → r b a → P a b) (hl : l.Pairwise fun a b => r a b → r b a → P a b) :
    (l.orderedInsert r a).Pairwise fun a b => r a b → r b a → P a b := by
  induction l with
  | nil => simp
  | cons b l ih =>
    rw [List.pairwise_cons] at hl
    rw [List.orderedInsert_cons]
    split
    · exact List.pairwise_cons.2 ⟨ha, List.pairwise_cons.2 hl⟩
    · rename_i hab
      refine List.pairwise_cons.2 ⟨fun x hx => ?_, ih (fun x hx => ha x (by simp [hx])) hl.2⟩
      -- what comes before the new element does not tie with it
      rcases (List.mem_orderedInsert r).1 hx with rfl | hx
      · exact fun _ h => absurd h hab
      · exact hl.1 x hx

theorem pairwise_insertionSort_of_tied (hl : l.Pairwise fun a b => r a b → r b a → P a b) :
    (l.insertionSort r).Pairwise fun a b => r a b → r b a → P a b := by
  induction l with
  | nil => simp
  | cons a l ih =>
    rw [List.pairwise_cons] at hl
    rw [List.insertionSort_cons]
    refine pairwise_orderedInsert_of_tied (fun b hb => hl.1 b ?_) (ih hl.2)
    exact (List.mem_insertionSort r).1 hb

/-- Lists of the same elements are sorted alike when elements that tie came in the same order. -/
theorem insertionSort_eq_of_tied [Std.Total r] [IsTrans α r] (h : l.Perm l')
    (hl : l.Pairwise fun a b => r a b → r b a → P a b)
    (hl' : l'.Pairwise fun a b => r a b → r b a → P a b)
    (hanti : ∀ a ∈ l, ∀ b ∈ l, r a b → r b a → P a b → P b a → a = b) :
    l.insertionSort r = l'.insertionSort r := by
  have hsorted := (List.pairwise_insertionSort r l).and (pairwise_insertionSort_of_tied hl)
  have hsorted' := (List.pairwise_insertionSort r l').and (pairwise_insertionSort_of_tied hl')
  refine List.Perm.eq_of_pairwise (fun a b ha hb hab hba => ?_) hsorted hsorted'
    ((List.perm_insertionSort r l).trans (h.trans (List.perm_insertionSort r l').symm))
  rw [List.mem_insertionSort] at ha hb
  exact hanti a ha b (h.mem_iff.2 hb) hab.1 hba.1 (hab.2 hab.1 hba.1) (hba.2 hba.1 hab.1)

/-- A list that is sorted alike forwards and backwards has no two elements that tie. -/
theorem eq_of_tied_of_insertionSort_reverse (hl : l.Nodup)
    (h : l.reverse.insertionSort r = l.insertionSort r) {a b : α} (ha : a ∈ l) (hb : b ∈ l)
    (hab : r a b) (hba : r b a) : a = b := by
  classical
  have hforth : l.Pairwise fun a b => r a b → r b a → l.idxOf a < l.idxOf b := by
    rw [List.pairwise_iff_getElem]
    intro i j hi hj hij _ _
    rwa [hl.idxOf_getElem, hl.idxOf_getElem]
  have hback : l.reverse.Pairwise fun a b => r a b → r b a → l.idxOf b < l.idxOf a :=
    List.pairwise_reverse.2 (hforth.imp fun h hba hab => h hab hba)
  have hsorted := pairwise_insertionSort_of_tied hback
  rw [h] at hsorted
  have hnone : (l.insertionSort r).Pairwise fun a b => ¬ (r a b ∧ r b a) :=
    ((pairwise_insertionSort_of_tied hforth).and hsorted).imp fun ⟨hlt, hgt⟩ ⟨hab, hba⟩ =>
      absurd (hlt hab hba) (Nat.lt_asymm (hgt hab hba))
  have : Std.Symm fun a b => ¬ (r a b ∧ r b a) := ⟨fun _ _ h h' => h ⟨h'.2, h'.1⟩⟩
  by_contra hne
  exact hnone.forall ((List.mem_insertionSort r).2 ha) ((List.mem_insertionSort r).2 hb) hne
    ⟨hab, hba⟩

/-- A sort by a key begins with the first of the elements with the least key. -/
theorem head?_insertionSort {κ : Type*} [LinearOrder κ] (key : α → κ) (l : List α) :
    (l.insertionSort fun a b => key a ≤ key b).head? = l.argmin key := by
  induction l with
  | nil => rfl
  | cons a l ih =>
    rw [List.insertionSort_cons, List.argmin_cons, ← ih]
    cases hsort : l.insertionSort fun a b => key a ≤ key b with
    | nil => rfl
    | cons b bs =>
      rw [List.orderedInsert_cons, List.head?_cons]
      by_cases hab : key a ≤ key b
      · rw [if_pos hab, List.head?_cons]
        exact (if_neg (not_lt.2 hab)).symm
      · rw [if_neg hab, List.head?_cons]
        exact (if_pos (not_le.1 hab)).symm

/-- In a list where no element comes before a lesser one, what is so of every two elements, as they
come, is so of a lesser one and a greater. -/
theorem of_pairwise_of_not (lt : α → α → Prop) (hirrefl : ∀ a, ¬ lt a a)
    (hsorted : l.Pairwise fun a b => ¬ lt b a) (h : l.Pairwise P) {a b : α} (ha : a ∈ l) (hb : b ∈ l)
    (hab : lt a b) : P a b := by
  induction l with
  | nil => cases ha
  | cons c l ih =>
    obtain ⟨hc, hl⟩ := List.pairwise_cons.1 hsorted
    obtain ⟨hPc, hP⟩ := List.pairwise_cons.1 h
    rcases List.mem_cons.1 ha with rfl | hal
    · rcases List.mem_cons.1 hb with rfl | hbl
      · exact absurd hab (hirrefl b)
      · exact hPc b hbl
    · rcases List.mem_cons.1 hb with rfl | hbl
      · exact absurd hab (hc a hal)
      · exact ih hl hP hal hbl

end Spectral.Lib
