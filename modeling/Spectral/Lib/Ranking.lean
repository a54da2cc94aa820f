import Mathlib.Data.List.Sort
import Mathlib.Data.List.Dedup
import Mathlib.Data.List.Destutter
import Mathlib.Data.List.Induction

/-!
# Ranked lists cut short

What is among the first `n` of a ranking, in terms of the list before it is ranked.

* `total_key`, `total_then` — orders by a key, and by a score with another order for ties.
* `insertionSort_eq_of_perm` — a sort by an order that tells the elements of the list apart does
  not depend on the order they came in.
* `takeWhile_eq_filter_of_pairwise` — what stands in front of an element of an ordered list.
* `take_eq_self_of_length_lt` — a list that still has room after the cut was not cut.
* `mem_take_filter_iff` — an element that passes a test is among the first `n` that do exactly when
  fewer than `n` before it do.
* `pairwise_destutter`, `exists_key_destutter` — a sorted list without its repeats.
* `mem_take_iff_of_pairwise` — in a strictly ordered list, an element is among the first `n`
  exactly when fewer than `n` come before it in the order; `mem_take_insertionSort_iff` for a sort.
* `forall_mem_take_sort_iff` — the same for a stable sort by decreasing score: the order is that
  of the scores and, among equal scores, that of the positions (`Precedes`).
* `map_sort_of_perm`, `perm_take_sort` — of a sort by score, in whatever order the list came: the
  scores, and the first `n` when the cut is between two scores.
* `mem_foldl_collect_iff` — a loop that collects the first `n` distinct elements that pass a
  test: an element is collected exactly when it passes and some prefix of the list up to it has
  fewer than `n` distinct elements that do.
-/

namespace Spectral.Lib

variable {α : Type*}

/-! ## Orders by keys -/

section Keys

variable {β : Type*} [LinearOrder β] {r : α → α → Prop}

theorem total_key (key : α → β) : Std.Total fun a b => key a ≤ key b := ⟨fun _ _ => le_total _ _⟩

theorem isTrans_key (key : α → β) : IsTrans α fun a b => key a ≤ key b := ⟨fun _ _ _ => le_trans⟩

/-- The greatest score first, and another order where scores are equal. -/
theorem total_then (score : α → β) (hr : Std.Total r) :
    Std.Total fun a b => score b < score a ∨ score a = score b ∧ r a b where
  total a b := by
    rcases lt_trichotomy (score a) (score b) with h | h | h
    · exact Or.inr (Or.inl h)
    · exact (hr.total a b).imp (fun hab => Or.inr ⟨h, hab⟩) fun hba => Or.inr ⟨h.symm, hba⟩
    · exact Or.inl (Or.inl h)

theorem isTrans_then (score : α → β) (hr : IsTrans α r) :
    IsTrans α fun a b => score b < score a ∨ score a = score b ∧ r a b where
  trans a b c := by
    rintro (hab | ⟨hab, htie⟩) (hbc | ⟨hbc, htie'⟩)
    · exact Or.inl (hbc.trans hab)
    · exact Or.inl (hbc ▸ hab)
    · exact Or.inl (hab ▸ hbc)
    · exact Or.inr ⟨hab.trans hbc, hr.trans a b c htie htie'⟩

/-- A list sorted by a key. -/
theorem pairwise_sort_key (key : α → β) (l : List α) :
    (l.insertionSort fun a b => key a ≤ key b).Pairwise fun a b => key a ≤ key b := by
  have htotal := total_key key
  have htrans := isTrans_key key
  exact List.pairwise_insertionSort _ l

end Keys

/-! ## Sorts and cuts -/

/-- What is sorted by an order that tells its elements apart comes out alike, whatever order it
came in. -/
theorem insertionSort_eq_of_perm {r : α → α → Prop} [DecidableRel r] [Std.Total r] [IsTrans α r]
    {l l' : List α} (h : l.Perm l') (hanti : ∀ a ∈ l, ∀ b ∈ l, r a b → r b a → a = b) :
    l.insertionSort r = l'.insertionSort r := by
  refine List.Perm.eq_of_pairwise (fun a b ha hb => ?_) (List.pairwise_insertionSort r l)
    (List.pairwise_insertionSort r l')
    ((List.perm_insertionSort r l).trans (h.trans (List.perm_insertionSort r l').symm))
  exact hanti a ((List.mem_insertionSort r).1 ha) b
    (h.mem_iff.2 ((List.mem_insertionSort r).1 hb))

/-- In a sorted list what does not come after an element is in front. -/
theorem takeWhile_eq_filter_of_pairwise {r : α → α → Prop} [DecidableRel r] [IsTrans α r] {a : α}
    {l : List α} (h : l.Pairwise r) :
    l.takeWhile (fun b => decide (¬ r a b)) = l.filter fun b => decide (¬ r a b) := by
  induction l with
  | nil => rfl
  | cons b l ih =>
    obtain ⟨hb, hl⟩ := List.pairwise_cons.1 h
    by_cases hab : r a b
    · simpa [hab] using fun c hc => trans_of r hab (hb c hc)
    · simpa [hab] using ih hl

/-- A list that is cut short and still has room is whole. -/
theorem take_eq_self_of_length_lt {l : List α} {n : ℕ} (h : (l.take n).length < n) :
    l.take n = l := by
  rw [List.length_take] at h
  exact List.take_of_length_le (by omega)

/-- What passes a test is among the first `n` that do exactly when fewer than `n` before it do. -/
theorem mem_take_filter_iff {p : α → Bool} {l : List α} {n : ℕ} {a : α} :
    a ∈ (l.filter p).take n ↔
      ∃ before after, l = before ++ a :: after ∧ p a = true ∧ before.countP p < n := by
  induction l generalizing n with
  | nil => simp
  | cons b l ih =>
    by_cases hb : p b = true
    · rw [List.filter_cons_of_pos hb]
      cases n with
      | zero => simp
      | succ n =>
        rw [List.take_succ_cons, List.mem_cons, ih]
        constructor
        · rintro (rfl | ⟨before, after, rfl, ha, hlt⟩)
          · exact ⟨[], l, rfl, hb, Nat.succ_pos n⟩
          · refine ⟨b :: before, after, rfl, ha, ?_⟩
            rw [List.countP_cons_of_pos hb]
            exact Nat.succ_lt_succ hlt
        · rintro ⟨before, after, heq, ha, hlt⟩
          cases before with
          | nil => exact Or.inl (List.cons.inj heq).1.symm
          | cons c before =>
            obtain ⟨rfl, rfl⟩ := List.cons.inj heq
            rw [List.countP_cons_of_pos hb] at hlt
            exact Or.inr ⟨before, after, rfl, ha, Nat.lt_of_succ_lt_succ hlt⟩
    · rw [List.filter_cons_of_neg hb, ih]
      constructor
      · rintro ⟨before, after, rfl, ha, hlt⟩
        refine ⟨b :: before, after, rfl, ha, ?_⟩
        rwa [List.countP_cons_of_neg hb]
      · rintro ⟨before, after, heq, ha, hlt⟩
        cases before with
        | nil =>
          obtain rfl := (List.cons.inj heq).1
          exact absurd ha hb
        | cons c before =>
          obtain ⟨rfl, rfl⟩ := List.cons.inj heq
          rw [List.countP_cons_of_neg hb] at hlt
          exact ⟨before, after, rfl, ha, hlt⟩

/-- The same for elements with their places. -/
theorem mem_take_filter_zipIdx_iff {p : α × ℕ → Bool} {l : List α} {n : ℕ} {a : α × ℕ} :
    a ∈ (l.zipIdx.filter p).take n ↔
      a ∈ l.zipIdx ∧ p a = true ∧ (l.zipIdx.take a.2).countP p < n := by
  rw [mem_take_filter_iff]
  constructor
  · rintro ⟨before, after, heq, ha, hlt⟩
    have hplace : a.2 = before.length := by
      have hget : l.zipIdx[before.length]? = some a := by rw [heq]; simp
      rw [List.getElem?_zipIdx, Option.map_eq_some_iff] at hget
      obtain ⟨x, -, rfl⟩ := hget
      simp
    refine ⟨by rw [heq]; simp, ha, ?_⟩
    rwa [hplace, heq, List.take_left]
  · rintro ⟨hmem, ha, hlt⟩
    have hget : l.zipIdx[a.2]? = some a := by
      rw [List.getElem?_zipIdx, List.mem_zipIdx_iff_getElem?.1 hmem]
      simp
    obtain ⟨hbound, hget⟩ := List.getElem?_eq_some_iff.1 hget
    refine ⟨l.zipIdx.take a.2, l.zipIdx.drop (a.2 + 1), ?_, ha, hlt⟩
    have hdrop := List.drop_eq_getElem_cons hbound
    rw [hget] at hdrop
    rw [← hdrop, List.take_append_drop]

section Repeats

variable {κ : Type*} [DecidableEq κ] (key : α → κ)

/-- `dedup_by_key`: of elements with one key in a row the first is kept.  A sorted list is then
strictly sorted. -/
theorem pairwise_destutter {r : κ → κ → Prop} [Std.Antisymm r] {l : List α}
    (h : l.Pairwise fun a b => r (key a) (key b)) :
    (l.destutter fun a b => key a ≠ key b).Pairwise fun a b => r (key a) (key b) ∧ key a ≠ key b := by
  cases l with
  | nil => exact List.Pairwise.nil
  | cons a l =>
    rw [List.destutter_cons']
    induction l generalizing a with
    | nil => exact List.pairwise_singleton _ a
    | cons b l ih =>
      obtain ⟨ha, hl⟩ := List.pairwise_cons.1 h
      rw [List.destutter'_cons]
      split
      · rename_i hne
        refine List.pairwise_cons.2 ⟨fun c hc => ?_, ih b hl⟩
        have hmem : c ∈ b :: l := (List.destutter'_sublist l _ b).subset hc
        refine ⟨ha c hmem, fun heq => ?_⟩
        rcases List.mem_cons.1 hmem with rfl | hc
        · exact hne heq
        · have hba : r (key b) (key a) := heq ▸ (List.pairwise_cons.1 hl).1 c hc
          exact hne (Std.Antisymm.antisymm _ _ (ha b List.mem_cons_self) hba)
      · exact ih a (List.pairwise_cons.2 ⟨fun c hc => ha c (List.mem_cons_of_mem b hc),
          (List.pairwise_cons.1 hl).2⟩)

/-- No key is lost. -/
theorem exists_key_destutter {l : List α} {a : α} (h : a ∈ l) :
    ∃ b ∈ l.destutter fun a b => key a ≠ key b, key b = key a := by
  cases l with
  | nil => exact absurd h List.not_mem_nil
  | cons b l =>
    rw [List.destutter_cons']
    induction l generalizing a b with
    | nil => exact ⟨a, h, rfl⟩
    | cons c l ih =>
      rw [List.destutter'_cons]
      split
      · rcases List.mem_cons.1 h with rfl | h
        · exact ⟨a, List.mem_cons_self, rfl⟩
        · obtain ⟨d, hd, hkey⟩ := ih c h
          exact ⟨d, List.mem_cons_of_mem b hd, hkey⟩
      · rename_i hsame
        have hfirst : ∃ d ∈ l.destutter' (fun a b => key a ≠ key b) b, key d = key b :=
          ih b List.mem_cons_self
        rcases List.mem_cons.1 h with rfl | h
        · exact hfirst
        · rcases List.mem_cons.1 h with rfl | h
          · obtain ⟨d, hd, hkey⟩ := hfirst
            exact ⟨d, hd, hkey.trans (not_not.1 hsame)⟩
          · exact ih b (List.mem_cons_of_mem b h)

end Repeats

/-- An element is among the first `n` exactly when fewer than `n` are before its first place. -/
theorem mem_take_append_cons {before after : List α} {x : α} (hnot : x ∉ before) {n : ℕ} :
    x ∈ (before ++ x :: after).take n ↔ before.length < n := by
  rw [List.take_append, List.mem_append]
  constructor
  · rintro (hmem | hmem)
    · exact absurd (List.mem_of_mem_take hmem) hnot
    · by_contra hle
      rw [Nat.sub_eq_zero_of_le (not_lt.1 hle)] at hmem
      exact absurd hmem List.not_mem_nil
  · intro hlen
    obtain ⟨k, hk⟩ := Nat.exists_eq_succ_of_ne_zero (Nat.sub_ne_zero_of_lt hlen)
    rw [hk, List.take_succ_cons]
    exact Or.inr List.mem_cons_self

/-- In a strictly ordered list an element is among the first `n` exactly when fewer than `n`
elements are before it. -/
theorem mem_take_iff_of_pairwise {lt : α → α → Prop} [DecidableRel lt] (hirrefl : ∀ a, ¬ lt a a)
    (hasymm : ∀ a b, lt a b → ¬ lt b a) {l : List α} (h : l.Pairwise lt) {x : α} (hx : x ∈ l)
    {n : ℕ} : x ∈ l.take n ↔ l.countP (fun y => decide (lt y x)) < n := by
  obtain ⟨before, after, rfl⟩ := List.append_of_mem hx
  obtain ⟨-, hafter, hbefore⟩ := List.pairwise_append.1 h
  have hlt : ∀ y ∈ before, lt y x := fun y hy => hbefore y hy x List.mem_cons_self
  have hnotlt : ∀ y ∈ after, ¬ lt y x := fun y hy =>
    hasymm x y ((List.pairwise_cons.1 hafter).1 y hy)
  have hcount : (before ++ x :: after).countP (fun y => decide (lt y x)) = before.length := by
    have hall : before.countP (fun y => decide (lt y x)) = before.length :=
      List.countP_eq_length.2 fun y hy => decide_eq_true (hlt y hy)
    have hnone : after.countP (fun y => decide (lt y x)) = 0 :=
      List.countP_eq_zero.2 fun y hy => by simpa using hnotlt y hy
    rw [List.countP_append, List.countP_cons_of_neg (by simpa using hirrefl x), hall, hnone,
      Nat.add_zero]
  rw [hcount]
  exact mem_take_append_cons fun hmem => hirrefl x (hlt x hmem)

/-- The same for a list sorted by an order that tells its elements apart, whatever repeats it
has: the elements before one are the others that it does not come before. -/
theorem mem_take_iff_of_sorted [DecidableEq α] {r : α → α → Prop} [DecidableRel r] {l : List α}
    (h : l.Pairwise r) (hanti : ∀ a ∈ l, ∀ b ∈ l, r a b → r b a → a = b) {x : α} (hx : x ∈ l)
    {n : ℕ} : x ∈ l.take n ↔ l.countP (fun y => decide (r y x ∧ y ≠ x)) < n := by
  obtain ⟨before, after, rfl, hnot⟩ := List.eq_append_cons_of_mem hx
  obtain ⟨-, hafter, hbefore⟩ := List.pairwise_append.1 h
  have hcount : (before ++ x :: after).countP (fun y => decide (r y x ∧ y ≠ x)) =
      before.length := by
    have hall : before.countP (fun y => decide (r y x ∧ y ≠ x)) = before.length :=
      List.countP_eq_length.2 fun y hy =>
        decide_eq_true ⟨hbefore y hy x List.mem_cons_self, ne_of_mem_of_not_mem hy hnot⟩
    have hnone : after.countP (fun y => decide (r y x ∧ y ≠ x)) = 0 := by
      refine List.countP_eq_zero.2 fun y hy hbeats => ?_
      obtain ⟨hyx, hne⟩ := of_decide_eq_true hbeats
      have hmem : y ∈ before ++ x :: after :=
        List.mem_append_right before (List.mem_cons_of_mem x hy)
      exact hne (hanti y hmem x hx hyx ((List.pairwise_cons.1 hafter).1 y hy))
    rw [List.countP_append, List.countP_cons_of_neg (by simp), hall, hnone, Nat.add_zero]
  rw [hcount]
  exact mem_take_append_cons hnot

/-- What is among the first `n` of a sort by such an order. -/
theorem mem_take_insertionSort_iff [DecidableEq α] {r : α → α → Prop} [DecidableRel r]
    [Std.Total r] [IsTrans α r] {l : List α}
    (hanti : ∀ a ∈ l, ∀ b ∈ l, r a b → r b a → a = b) {x : α} (hx : x ∈ l) {n : ℕ} :
    x ∈ (l.insertionSort r).take n ↔ l.countP (fun y => decide (r y x ∧ y ≠ x)) < n := by
  rw [mem_take_iff_of_sorted (List.pairwise_insertionSort r l)
    (fun a ha b hb => hanti a ((List.mem_insertionSort r).1 ha) b ((List.mem_insertionSort r).1 hb))
    ((List.mem_insertionSort r).2 hx), (List.perm_insertionSort r l).countP_eq]

/-! ## Stable sorting by score -/

section StableSort

variable (score : α → ℕ)

/-- The element with its position has a higher score, or the same score and an earlier
position. -/
def Precedes (p q : α × ℕ) : Prop := score q.1 < score p.1 ∨ score p.1 = score q.1 ∧ p.2 < q.2

instance : DecidableRel (Precedes score) := fun p q =>
  inferInstanceAs (Decidable (score q.1 < score p.1 ∨ score p.1 = score q.1 ∧ p.2 < q.2))

/-- The elements of a list with their positions, the highest score first. -/
def ranked (l : List (α × ℕ)) : List (α × ℕ) :=
  l.insertionSort fun p q => score q.1 < score p.1 ∨ score p.1 = score q.1 ∧ p.2 ≤ q.2

variable {score}

/-- Only the comparisons with the new element matter to where it is inserted. -/
theorem map_orderedInsert_of_agree {β : Type*} {r : α → α → Prop} {r' : β → β → Prop}
    [DecidableRel r] [DecidableRel r'] (f : α → β) (a : α) (l : List α)
    (h : ∀ b ∈ l, r a b ↔ r' (f a) (f b)) :
    (l.orderedInsert r a).map f = (l.map f).orderedInsert r' (f a) := by
  induction l with
  | nil => rfl
  | cons b l ih =>
    rw [List.map_cons, List.orderedInsert_cons, List.orderedInsert_cons]
    by_cases hb : r a b
    · rw [if_pos hb, if_pos ((h b List.mem_cons_self).1 hb)]
      rfl
    · rw [if_neg hb, if_neg fun hb' => hb ((h b List.mem_cons_self).2 hb'), List.map_cons,
        ih fun c hc => h c (List.mem_cons_of_mem b hc)]

/-- Ranking with positions is the stable sort: the head, which is inserted last, has the
earliest position. -/
theorem map_fst_ranked (l : List α) (k : ℕ) :
    (ranked score (l.zipIdx k)).map Prod.fst =
      l.insertionSort fun a b => score b ≤ score a := by
  induction l generalizing k with
  | nil => rfl
  | cons a l ih =>
    unfold ranked at ih ⊢
    rw [List.zipIdx_cons, List.insertionSort_cons, List.insertionSort_cons, ← ih (k + 1)]
    refine map_orderedInsert_of_agree Prod.fst (a, k) _ fun q hq => ?_
    have hpos : k + 1 ≤ q.2 := List.le_snd_of_mem_zipIdx ((List.mem_insertionSort _).1 hq)
    constructor
    · rintro (hlt | ⟨heq, -⟩)
      · exact le_of_lt hlt
      · exact le_of_eq heq.symm
    · intro hle
      rcases lt_or_eq_of_le hle with hlt | heq
      · exact Or.inl hlt
      · exact Or.inr ⟨heq.symm, by omega⟩

theorem perm_ranked (l : List (α × ℕ)) : (ranked score l).Perm l := List.perm_insertionSort _ l

/-- Positions differ, so a ranking with positions is strictly ordered. -/
theorem pairwise_ranked (l : List α) : (ranked score l.zipIdx).Pairwise (Precedes score) := by
  have htotal := total_then (fun p : α × ℕ => score p.1) (total_key Prod.snd)
  have htrans := isTrans_then (fun p : α × ℕ => score p.1) (isTrans_key Prod.snd)
  have hsorted := List.pairwise_insertionSort (fun p q : α × ℕ =>
    score q.1 < score p.1 ∨ score p.1 = score q.1 ∧ p.2 ≤ q.2) l.zipIdx
  have hpos : (ranked score l.zipIdx).Pairwise fun p q => p.2 ≠ q.2 := by
    refine List.pairwise_map.1 (((perm_ranked l.zipIdx).map Prod.snd).nodup_iff.2 ?_)
    rw [List.zipIdx_map_snd]
    exact List.nodup_range'
  exact (List.pairwise_and_iff.2 ⟨hsorted, hpos⟩).imp fun h => by
    unfold Precedes
    omega

/-- **The first of a stable sort.**  All of the first `n` have a property exactly when every
element without it is preceded by `n` others. -/
theorem forall_mem_take_sort_iff (l : List α) (n : ℕ) (P : α → Prop) :
    (∀ x ∈ (l.insertionSort fun a b => score b ≤ score a).take n, P x) ↔
      ∀ p ∈ l.zipIdx, ¬ P p.1 → n ≤ l.zipIdx.countP fun q => decide (Precedes score q p) := by
  have hmem : ∀ p ∈ l.zipIdx, p ∈ (ranked score l.zipIdx).take n ↔
      l.zipIdx.countP (fun q => decide (Precedes score q p)) < n := by
    intro p hp
    rw [mem_take_iff_of_pairwise (fun q => by unfold Precedes; omega)
      (fun q q' => by unfold Precedes; omega) (pairwise_ranked l) ((perm_ranked _).mem_iff.2 hp),
      (perm_ranked _).countP_eq]
  rw [← map_fst_ranked l 0, ← List.map_take]
  constructor
  · intro h p hp hnot
    by_contra hlt
    exact hnot (h p.1 (List.mem_map_of_mem ((hmem p hp).2 (not_le.1 hlt))))
  · intro h x hx
    obtain ⟨p, hp, rfl⟩ := List.mem_map.1 hx
    have hpl : p ∈ l.zipIdx := (perm_ranked _).mem_iff.1 (List.mem_of_mem_take hp)
    by_contra hnot
    exact absurd ((hmem p hpl).1 hp) (not_lt.2 (h p hpl hnot))

end StableSort

/-! ## Sorting by score, from any order -/

section ByScore

variable {β : Type*} [LinearOrder β] {score : α → β} {l l' : List α}

theorem pairwise_sort (score : α → β) (l : List α) :
    (l.insertionSort fun a b => score b ≤ score a).Pairwise fun a b => score b ≤ score a := by
  exact pairwise_sort_key (fun a => OrderDual.toDual (score a)) l

/-- The scores come out alike. -/
theorem map_sort_of_perm (h : l.Perm l') :
    (l.insertionSort fun a b => score b ≤ score a).map score =
      (l'.insertionSort fun a b => score b ≤ score a).map score := by
  have hperm : (l.insertionSort fun a b => score b ≤ score a).Perm
      (l'.insertionSort fun a b => score b ≤ score a) :=
    (List.perm_insertionSort _ l).trans (h.trans (List.perm_insertionSort _ l').symm)
  exact (hperm.map score).eq_of_pairwise (fun a b _ _ hba hab => le_antisymm hab hba)
    (List.pairwise_map.2 (pairwise_sort score l)) (List.pairwise_map.2 (pairwise_sort score l'))

/-- A list in decreasing order begins with what is at or above a bound. -/
theorem take_countP_of_pairwise (h : l.Pairwise fun a b => score b ≤ score a) (θ : β) :
    l.take (l.countP fun a => θ ≤ score a) = l.filter fun a => θ ≤ score a := by
  induction l with
  | nil => rfl
  | cons a l ih =>
    obtain ⟨ha, hl⟩ := List.pairwise_cons.1 h
    by_cases hθ : θ ≤ score a
    · rw [List.countP_cons_of_pos (by simpa using hθ), List.take_succ_cons, ih hl,
        List.filter_cons_of_pos (by simpa using hθ)]
    · have hbelow : ∀ b ∈ a :: l, ¬ θ ≤ score b := by
        intro b hb
        rcases List.mem_cons.1 hb with rfl | hb
        · exact hθ
        · exact fun hb' => hθ (hb'.trans (ha b hb))
      have hnone : (a :: l).countP (fun b => θ ≤ score b) = 0 :=
        List.countP_eq_zero.2 fun b hb => by simpa using hbelow b hb
      rw [hnone, List.take_zero, eq_comm, List.filter_eq_nil_iff]
      intro b hb
      simpa using hbelow b hb

/-- The first of a sort, when there are as many at or above a bound. -/
theorem perm_take_sort {θ : β} {n : ℕ} (h : l.countP (fun a => θ ≤ score a) = n) :
    ((l.insertionSort fun a b => score b ≤ score a).take n).Perm
      (l.filter fun a => θ ≤ score a) := by
  have hperm := List.perm_insertionSort (fun a b => score b ≤ score a) l
  rw [← h, ← hperm.countP_eq, take_countP_of_pairwise (pairwise_sort score l)]
  exact hperm.filter _

/-- A best one is among the first. -/
theorem exists_best_mem_take_sort (score : α → β) (hl : l ≠ []) {n : ℕ} (hn : 0 < n) :
    ∃ m ∈ (l.insertionSort fun a b => score b ≤ score a).take n, ∀ a ∈ l, score a ≤ score m := by
  have hsorted := pairwise_sort score l
  have hperm := List.perm_insertionSort (fun a b => score b ≤ score a) l
  cases hsort : l.insertionSort fun a b => score b ≤ score a with
  | nil =>
    rw [hsort] at hperm
    exact absurd hperm.nil_eq.symm hl
  | cons m rest =>
    rw [hsort] at hsorted hperm
    obtain ⟨n, rfl⟩ := Nat.exists_eq_succ_of_ne_zero hn.ne'
    refine ⟨m, List.mem_cons_self, fun a ha => ?_⟩
    rcases List.mem_cons.1 (hperm.mem_iff.2 ha) with rfl | ha
    · exact le_rfl
    · exact (List.pairwise_cons.1 hsorted).1 a ha

end ByScore

/-! ## The first distinct ones -/

section Collect

variable [DecidableEq α] (ok : α → Bool) (n : ℕ)

/-- One step of the loop: an element that passes is collected, unless it is there already or
there are `n`. -/
def collect (acc : List α) (x : α) : List α :=
  if n ≤ acc.length ∨ ok x = false ∨ x ∈ acc then acc else acc ++ [x]

/-- The distinct elements that pass. -/
def distinct (l : List α) : List α := (l.filter fun x => ok x).dedup

variable {ok n}

theorem mem_distinct {l : List α} {x : α} : x ∈ distinct ok l ↔ x ∈ l ∧ ok x = true := by
  unfold distinct
  rw [List.mem_dedup, List.mem_filter]

/-- What the loop has collected: the distinct elements that pass, or `n` of them. -/
structure Collected (ok : α → Bool) (n : ℕ) (l acc : List α) : Prop where
  nodup : acc.Nodup
  subset : ∀ x ∈ acc, x ∈ distinct ok l
  all : acc.length < n → ∀ x ∈ distinct ok l, x ∈ acc

theorem Collected.length_lt_iff {l acc : List α} (h : Collected ok n l acc) :
    acc.length < n ↔ (distinct ok l).length < n := by
  have hle : acc.length ≤ (distinct ok l).length := (List.subperm_of_subset h.nodup h.subset).length_le
  constructor
  · intro hlt
    exact lt_of_le_of_lt (List.subperm_of_subset (List.nodup_dedup _) (h.all hlt)).length_le hlt
  · exact lt_of_le_of_lt hle

theorem collected_foldl (l : List α) : Collected ok n l (l.foldl (collect ok n) []) := by
  induction l using List.reverseRecOn with
  | nil => exact ⟨List.nodup_nil, nofun, fun _ _ hx => absurd (mem_distinct.1 hx).1 List.not_mem_nil⟩
  | append_singleton l x ih =>
    rw [List.foldl_append, List.foldl_cons, List.foldl_nil]
    generalize l.foldl (collect ok n) [] = acc at ih ⊢
    have hold : ∀ y ∈ acc, y ∈ distinct ok (l ++ [x]) := fun y hy =>
      mem_distinct.2 ((mem_distinct.1 (ih.subset y hy)).imp_left (List.mem_append_left _))
    unfold collect
    split
    · rename_i hskip
      refine ⟨ih.nodup, hold, fun hlt y hy => ?_⟩
      obtain ⟨hmem, hok⟩ := mem_distinct.1 hy
      rcases List.mem_append.1 hmem with hpast | hlast
      · exact ih.all hlt y (mem_distinct.2 ⟨hpast, hok⟩)
      · rw [List.mem_singleton] at hlast
        subst hlast
        simpa [hok, not_le.2 hlt] using hskip
    · rename_i htake
      obtain ⟨hlt, hok, hnew⟩ : acc.length < n ∧ ok x = true ∧ x ∉ acc := by
        simpa [not_or] using htake
      refine ⟨List.nodup_append.2 ⟨ih.nodup, List.nodup_singleton x, ?_⟩, fun y hy => ?_,
        fun _ y hy => ?_⟩
      · rintro y hy z hz rfl
        rw [List.mem_singleton] at hz
        exact hnew (hz ▸ hy)
      · rcases List.mem_append.1 hy with hy | hy
        · exact hold y hy
        · rw [List.mem_singleton] at hy
          subst hy
          exact mem_distinct.2 ⟨by simp, hok⟩
      · obtain ⟨hmem, hyok⟩ := mem_distinct.1 hy
        rcases List.mem_append.1 hmem with hpast | hlast
        · exact List.mem_append_left _ (ih.all hlt y (mem_distinct.2 ⟨hpast, hyok⟩))
        · exact List.mem_append_right _ hlast

/-- **What is collected.** -/
theorem mem_foldl_collect_iff (l : List α) (x : α) :
    x ∈ l.foldl (collect ok n) [] ↔
      ok x = true ∧ ∃ past, past ++ [x] <+: l ∧ (distinct ok past).length < n := by
  induction l using List.reverseRecOn with
  | nil => simp
  | append_singleton l y ih =>
    have hlt : (l.foldl (collect ok n) []).length < n ↔ (distinct ok l).length < n :=
      (collected_foldl l).length_lt_iff
    rw [List.foldl_append, List.foldl_cons, List.foldl_nil]
    generalize l.foldl (collect ok n) [] = acc at ih hlt ⊢
    have hcollect : x ∈ collect ok n acc y ↔
        x ∈ acc ∨ x = y ∧ ok y = true ∧ (distinct ok l).length < n := by
      rw [← hlt]
      unfold collect
      split
      · rename_i hskip
        refine ⟨Or.inl, ?_⟩
        rintro (hmem | ⟨rfl, hok, hlen⟩)
        · exact hmem
        · simpa [hok, not_le.2 hlen] using hskip
      · rename_i htake
        obtain ⟨hlen, hok, -⟩ : acc.length < n ∧ ok y = true ∧ y ∉ acc := by
          simpa [not_or] using htake
        simp [hlen, hok]
    rw [hcollect, ih]
    constructor
    · rintro (⟨hok, past, hpast, hlen⟩ | ⟨rfl, hok, hlen⟩)
      · exact ⟨hok, past, hpast.trans (List.prefix_append l [y]), hlen⟩
      · exact ⟨hok, l, List.prefix_rfl, hlen⟩
    · rintro ⟨hok, past, hpast, hlen⟩
      rcases List.prefix_concat_iff.1 hpast with heq | hpast
      · obtain ⟨rfl, hxy⟩ := List.append_inj' heq rfl
        obtain rfl := List.singleton_inj.1 hxy
        exact Or.inr ⟨rfl, hok, hlen⟩
      · exact Or.inl ⟨hok, past, hpast, hlen⟩

end Collect

end Spectral.Lib
