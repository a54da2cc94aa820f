import Mathlib.Data.List.MinMax
import Mathlib.Order.Lattice
import Spectral.Lib.HashMap

/-!
# One winner for each key

A pass over a list keeps, in a hash map, one element for each key: an element that ranks above the
one that is there takes its place.  Elements without a key are passed over.

* `winners` — the pass.
* `Wins` — what it is meant to find: an element of the list with the key, and none of that key
  ranks above it.
* `Decided` — the invariant: who is in the map wins among the elements so far, and each key that
  was met is in the map.
* `get?_winners_iff` — where no two elements have one rank the map holds exactly who wins.
* `get?_winners` — in any list it holds the first of the elements that rank highest.
-/

namespace Spectral.Lib

variable {α κ : Type} {γ : Type*} [DecidableEq κ] [LinearOrder γ]

section

variable (key : α → Option κ) (rank : α → γ)

/-- An element challenges the one that is there for its key. -/
def challenge (m : HashMap κ α) (x : α) : HashMap κ α :=
  match key x with
  | none => m
  | some k =>
    match m.get? k with
    | none => m.insert k x
    | some y => if rank y < rank x then m.insert k x else m

/-- The pass over the list. -/
def winners (xs : List α) : HashMap κ α := xs.foldl (challenge key rank) HashMap.empty

/-- The element has the key, and none of the list with that key ranks above it. -/
structure Wins (xs : List α) (k : κ) (w : α) : Prop where
  mem : w ∈ xs
  key_eq : key w = some k
  greatest : ∀ x ∈ xs, key x = some k → rank x ≤ rank w

/-- The map holds who wins among the elements, for each of their keys. -/
structure Decided (xs : List α) (m : HashMap κ α) : Prop where
  wins : ∀ k w, m.get? k = some w → Wins key rank xs k w
  entered : ∀ x ∈ xs, ∀ k, key x = some k → ∃ w, m.get? k = some w

end

variable {key : α → Option κ} {rank : α → γ} {xs : List α} {m : HashMap κ α} {k : κ} {w x : α}

omit [DecidableEq κ] in
/-- An element that ranks no higher changes nothing. -/
theorem Wins.concat (h : Wins key rank xs k w) (hx : key x = some k → rank x ≤ rank w) :
    Wins key rank (xs ++ [x]) k w where
  mem := List.mem_append_left _ h.mem
  key_eq := h.key_eq
  greatest y hy hk := by
    rcases List.mem_append.1 hy with hy | hy
    · exact h.greatest y hy hk
    · rw [List.mem_singleton.1 hy] at hk ⊢
      exact hx hk

omit [DecidableEq κ] in
/-- An element wins its key if it ranks as high as each of those before. -/
theorem Wins.last (hkey : key x = some k) (h : ∀ y ∈ xs, key y = some k → rank y ≤ rank x) :
    Wins key rank (xs ++ [x]) k x where
  mem := List.mem_append_right _ (List.mem_singleton_self x)
  key_eq := hkey
  greatest y hy hk := by
    rcases List.mem_append.1 hy with hy | hy
    · exact h y hy hk
    · rw [List.mem_singleton.1 hy]

/-- The element takes the place of its key. -/
theorem Decided.insert (h : Decided key rank xs m) (hkey : key x = some k)
    (hgreatest : ∀ y ∈ xs, key y = some k → rank y ≤ rank x) :
    Decided key rank (xs ++ [x]) (m.insert k x) where
  wins k' w hw := by
    rw [HashMap.get?_insert] at hw
    split at hw
    · rename_i hk
      rw [hk, ← Option.some.inj hw]
      exact Wins.last hkey hgreatest
    · rename_i hk
      refine (h.wins k' w hw).concat fun hx => ?_
      rw [hkey] at hx
      exact absurd (Option.some.inj hx).symm hk
  entered y hy k' hk' := by
    rw [HashMap.get?_insert]
    split
    · exact ⟨x, rfl⟩
    · rename_i hk
      rcases List.mem_append.1 hy with hy | hy
      · exact h.entered y hy k' hk'
      · rw [List.mem_singleton.1 hy, hkey] at hk'
        exact absurd (Option.some.inj hk').symm hk

/-- The map stays as it is. -/
theorem Decided.pass (h : Decided key rank xs m)
    (hx : ∀ k, key x = some k → ∃ w, m.get? k = some w ∧ rank x ≤ rank w) :
    Decided key rank (xs ++ [x]) m where
  wins k w hw := by
    refine (h.wins k w hw).concat fun hkey => ?_
    obtain ⟨w', hw', hle⟩ := hx k hkey
    rwa [Option.some.inj (hw.symm.trans hw')]
  entered y hy k hk := by
    rcases List.mem_append.1 hy with hy | hy
    · exact h.entered y hy k hk
    · rw [List.mem_singleton.1 hy] at hk
      obtain ⟨w, hw, -⟩ := hx k hk
      exact ⟨w, hw⟩

theorem Decided.challenge (h : Decided key rank xs m) (x : α) :
    Decided key rank (xs ++ [x]) (challenge key rank m x) := by
  unfold Lib.challenge
  split
  · rename_i hnone
    exact h.pass fun k hk => by simp [hnone] at hk
  · rename_i k hkey
    split
    · rename_i hfree
      refine h.insert hkey fun y hy hk => ?_
      obtain ⟨w, hw⟩ := h.entered y hy k hk
      simp [hfree] at hw
    · rename_i y hy
      split
      · rename_i hlt
        exact h.insert hkey fun z hz hk => ((h.wins k y hy).greatest z hz hk).trans hlt.le
      · rename_i hlt
        refine h.pass fun k' hk' => ⟨y, ?_, not_lt.1 hlt⟩
        rwa [← Option.some.inj (hkey.symm.trans hk')]

variable (key rank) in
/-- **The pass decides** every key. -/
theorem decided_winners (xs : List α) : Decided key rank xs (winners key rank xs) := by
  induction xs using List.reverseRecOn with
  | nil => exact ⟨fun k w hw => (nomatch hw), fun x hx => absurd hx List.not_mem_nil⟩
  | append_singleton xs x ih =>
    have hfold : winners key rank (xs ++ [x]) = challenge key rank (winners key rank xs) x :=
      List.foldl_append
    rw [hfold]
    exact ih.challenge x

/-- **The map holds exactly who wins**, where no two elements have one rank. -/
theorem get?_winners_iff (hinj : ∀ x ∈ xs, ∀ y ∈ xs, rank x = rank y → x = y) :
    (winners key rank xs).get? k = some w ↔ Wins key rank xs k w := by
  have hdecided := decided_winners key rank xs
  refine ⟨hdecided.wins k w, fun h => ?_⟩
  obtain ⟨w', hw'⟩ := hdecided.entered w h.mem k h.key_eq
  have hwins := hdecided.wins k w' hw'
  have hrank : rank w' = rank w := le_antisymm (h.greatest w' hwins.mem hwins.key_eq)
    (hwins.greatest w h.mem h.key_eq)
  rwa [← hinj w' hwins.mem w h.mem hrank]

theorem get?_challenge (x : α) : (challenge key rank m x).get? k =
    if key x = some k then
      some ((m.get? k).elim x fun y => if rank y < rank x then x else y)
    else m.get? k := by
  unfold challenge
  cases hkey : key x with
  | none => rfl
  | some k' =>
    dsimp only
    by_cases hk : k' = k
    · subst hk
      rw [if_pos rfl]
      split
      · rename_i hfree
        rw [HashMap.get?_insert, if_pos rfl, hfree]
        rfl
      · rename_i y hy
        rw [hy]
        split
        · rename_i hlt
          rw [HashMap.get?_insert, if_pos rfl, Option.elim_some, if_pos hlt]
        · rename_i hlt
          rw [hy, Option.elim_some, if_neg hlt]
    · have hother : (m.insert k' x).get? k = m.get? k := by
        rw [HashMap.get?_insert, if_neg (Ne.symm hk)]
      rw [if_neg fun h => hk (Option.some.inj h)]
      split
      · exact hother
      · split
        · exact hother
        · rfl

variable (key rank) in
/-- **The map holds the first** of the elements that rank highest. -/
theorem get?_winners (xs : List α) (k : κ) :
    (winners key rank xs).get? k = (xs.filter fun x => key x = some k).argmax rank := by
  induction xs using List.reverseRecOn with
  | nil => rfl
  | append_singleton xs x ih =>
    have hfold : winners key rank (xs ++ [x]) = challenge key rank (winners key rank xs) x :=
      List.foldl_append
    rw [hfold, get?_challenge, ih, List.filter_append]
    by_cases hkey : key x = some k
    · rw [if_pos hkey, List.filter_cons_of_pos (by simpa using hkey), List.filter_nil,
        List.argmax_concat]
      cases (xs.filter fun x => key x = some k).argmax rank with
      | none => rfl
      | some y => exact apply_ite some _ _ _
    · rw [if_neg hkey, List.filter_cons_of_neg (by simpa using hkey), List.filter_nil,
        List.append_nil]

variable (key rank) in
omit [DecidableEq κ] in
/-- With its place, an element wins as it does without. -/
theorem wins_zipIdx_iff {p : α × ℕ} :
    Wins (fun q : α × ℕ => key q.1) (fun q => rank q.1) xs.zipIdx k p ↔
      p ∈ xs.zipIdx ∧ Wins key rank xs k p.1 := by
  refine ⟨fun h => ⟨h.mem, ?_⟩, fun ⟨hp, h⟩ => ⟨hp, h.key_eq, fun q hq hk => ?_⟩⟩
  · refine ⟨List.fst_mem_of_mem_zipIdx h.mem, h.key_eq, fun x hx hk => ?_⟩
    obtain ⟨i, hi, rfl⟩ := List.getElem_of_mem hx
    exact h.greatest (xs[i], i) (List.mk_mem_zipIdx_iff_getElem?.2 (List.getElem?_eq_getElem hi)) hk
  · exact h.greatest q.1 (List.fst_mem_of_mem_zipIdx hq) hk

omit [DecidableEq κ] in
/-- Who wins does not depend on the order. -/
theorem Wins.perm {ys : List α} (h : Wins key rank xs k w) (hperm : xs.Perm ys) :
    Wins key rank ys k w where
  mem := hperm.mem_iff.1 h.mem
  key_eq := h.key_eq
  greatest x hx := h.greatest x (hperm.mem_iff.2 hx)

end Spectral.Lib
