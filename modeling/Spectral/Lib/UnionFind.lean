import Mathlib.Data.Finset.Card
import Mathlib.Data.List.Dedup
import Mathlib.Data.Nat.Find
import Mathlib.Logic.Function.Iterate
import Mathlib.Logic.Relation
import Spectral.Lib.HashMap

/-!
# Union-find

A forest is the function that gives each element its parent; a root is its own parent.  `find` goes up
to the root and then makes it the parent of everything on the way.  Linking roots in any direction keeps
the forest a forest, whatever the heights, so what carries the proofs is that each element has a
root at all; the way to it is shorter than the number of elements.

* `find`, `unite`, `classes` — the operations, with fuel for the way up.
* `RootOf`, `Forest` — the root of an element; every element has one.
* `find_spec` — with as much fuel as there are elements, `find` returns the root and moves none.
* `unite_spec` — after a union two elements are in one tree if they were before or it joins them.
* `connect_spec` — the trees after the unions of some edges are the components of the edges.
* `classes_eq`, `mem_entries_groups` — the elements grouped by their roots.
-/

namespace Spectral.Lib.UnionFind

section

variable {α : Type*}

/-- The root of an element. -/
inductive RootOf (parent : α → α) : α → α → Prop
  | root {x : α} (h : parent x = x) : RootOf parent x x
  | step {x r : α} (h : RootOf parent (parent x) r) : RootOf parent x r

/-- Two elements are in one tree. -/
def SameTree (parent : α → α) (x y : α) : Prop := ∃ r, RootOf parent x r ∧ RootOf parent y r

/-- Every element has a root, and those of `S` have their parents in `S`. -/
structure Forest (S : Finset α) (parent : α → α) : Prop where
  rooted : ∀ x, ∃ r, RootOf parent x r
  closed : ∀ x ∈ S, parent x ∈ S

variable {parent parent' : α → α} {S : Finset α} {x y r s : α}

/-! ## Roots -/

theorem RootOf.isRoot (h : RootOf parent x r) : parent r = r := by
  induction h with
  | root h => exact h
  | step _ ih => exact ih

theorem RootOf.eq_of_isRoot (h : RootOf parent x r) (hx : parent x = x) : r = x := by
  induction h with
  | root => rfl
  | step _ ih => exact (ih (by rw [hx, hx])).trans hx

theorem RootOf.of_step (h : RootOf parent x r) : RootOf parent (parent x) r := by
  cases h with
  | root h =>
    rw [h]
    exact .root h
  | step h => exact h

/-- An element has one root. -/
theorem RootOf.unique (h : RootOf parent x r) (h' : RootOf parent x s) : r = s := by
  induction h with
  | root h => exact (h'.eq_of_isRoot h).symm
  | step _ ih => exact ih h'.of_step

theorem rootOf_iterate {n : ℕ} (h : parent (parent^[n] x) = parent^[n] x) :
    RootOf parent x (parent^[n] x) := by
  induction n generalizing x with
  | zero => exact .root h
  | succ n ih => exact .step (ih h)

theorem Forest.eqv (hf : Forest S parent) : Equivalence (SameTree parent) where
  refl x := by
    obtain ⟨r, h⟩ := hf.rooted x
    exact ⟨r, h, h⟩
  symm := fun ⟨r, h, h'⟩ => ⟨r, h', h⟩
  trans := fun ⟨r, h, h'⟩ ⟨s, hs, hs'⟩ => ⟨s, h'.unique hs ▸ h, hs'⟩

theorem Forest.iterate_mem (hf : Forest S parent) (hx : x ∈ S) (n : ℕ) : parent^[n] x ∈ S :=
  Set.MapsTo.iterate (s := (S : Set α)) hf.closed n hx

/-- The way to the root is shorter than the number of elements. -/
theorem Forest.exists_depth (hf : Forest S parent) (hx : x ∈ S) :
    ∃ n < S.card, parent (parent^[n] x) = parent^[n] x := by
  classical
  have hex : ∃ n, parent (parent^[n] x) = parent^[n] x := by
    obtain ⟨r, h⟩ := hf.rooted x
    clear hx
    induction h with
    | root h => exact ⟨0, h⟩
    | step _ ih =>
      obtain ⟨n, hn⟩ := ih
      exact ⟨n + 1, hn⟩
  refine ⟨Nat.find hex, ?_, Nat.find_spec hex⟩
  -- before the root no element is met twice: the way after the second time would do after the first
  have hinj : Set.InjOn (fun i => parent^[i] x) (Finset.range (Nat.find hex + 1)) := by
    have hlt : ∀ i j, i < j → j ≤ Nat.find hex → parent^[i] x ≠ parent^[j] x := by
      intro i j hij hj heq
      have hjump : parent^[Nat.find hex - j + i] x = parent^[Nat.find hex] x := by
        rw [Function.iterate_add_apply, heq, ← Function.iterate_add_apply, Nat.sub_add_cancel hj]
      refine Nat.find_min hex (m := Nat.find hex - j + i) (by omega) ?_
      rw [hjump]
      exact Nat.find_spec hex
    intro i hi j hj heq
    simp only [Finset.coe_range, Set.mem_Iio] at hi hj
    rcases lt_trichotomy i j with h | h | h
    · exact absurd heq (hlt i j h (by omega))
    · exact h
    · exact absurd heq.symm (hlt j i h (by omega))
  have hcard := Finset.card_le_card_of_injOn _ (fun i _ => hf.iterate_mem hx i) hinj
  rw [Finset.card_range] at hcard
  exact hcard

theorem SameTree.congr (h : ∀ y s, RootOf parent' y s ↔ RootOf parent y s) :
    SameTree parent' x y ↔ SameTree parent x y :=
  exists_congr fun s => and_congr (h x s) (h y s)

theorem Forest.congr (hf : Forest S parent) (hclosed : ∀ x ∈ S, parent' x ∈ S)
    (h : ∀ y s, RootOf parent' y s ↔ RootOf parent y s) : Forest S parent' where
  rooted y := by
    obtain ⟨r, hr⟩ := hf.rooted y
    exact ⟨r, (h y r).2 hr⟩
  closed := hclosed

/-! ## Components -/

/-- The trees are the components of the edges. -/
def Represents (E : α → α → Prop) (parent : α → α) : Prop :=
  ∀ u v, SameTree parent u v ↔ Relation.EqvGen E u v

/-- Where every element is its own parent, each is a tree of its own. -/
theorem forest_id (S : Finset α) : Forest S id where
  rooted x := ⟨x, .root rfl⟩
  closed _ hx := hx

theorem represents_id : Represents (fun _ _ : α => False) id := by
  intro u v
  constructor
  · rintro ⟨r, hu, hv⟩
    rw [← hu.eq_of_isRoot rfl, ← hv.eq_of_isRoot rfl]
    exact .refl r
  · intro h
    exact ((forest_id (∅ : Finset α)).eqv.eqvGen_iff).1 (h.mono fun _ _ => False.elim)

/-- One more edge. -/
theorem Represents.unite {E : α → α → Prop} (h : Represents E parent) (hf : Forest S parent)
    (hf' : Forest S parent') (hjoin : ∀ u v, SameTree parent' u v ↔ SameTree parent u v ∨
      SameTree parent u x ∧ SameTree parent v y ∨ SameTree parent u y ∧ SameTree parent v x) :
    Represents (fun u v => E u v ∨ u = x ∧ v = y) parent' := by
  have hxy : Relation.EqvGen (fun u v => E u v ∨ u = x ∧ v = y) x y := .rel _ _ (Or.inr ⟨rfl, rfl⟩)
  have hmono : ∀ {u v}, SameTree parent u v →
      Relation.EqvGen (fun u v => E u v ∨ u = x ∧ v = y) u v :=
    fun hs => ((h _ _).1 hs).mono fun _ _ => Or.inl
  intro u v
  constructor
  · rw [hjoin]
    rintro (hs | ⟨hu, hv⟩ | ⟨hu, hv⟩)
    · exact hmono hs
    · exact ((hmono hu).trans _ _ _ hxy).trans _ _ _ ((hmono hv).symm _ _)
    · exact ((hmono hu).trans _ _ _ (hxy.symm _ _)).trans _ _ _ ((hmono hv).symm _ _)
  · intro hgen
    refine hf'.eqv.eqvGen_iff.1 (hgen.mono fun u v he => (hjoin u v).2 ?_)
    rcases he with he | ⟨rfl, rfl⟩
    · exact Or.inl ((h _ _).2 (.rel _ _ he))
    · exact Or.inr (Or.inl ⟨hf.eqv.refl _, hf.eqv.refl _⟩)

end

section

variable {α : Type*} [DecidableEq α] {parent parent' : α → α} {S : Finset α} {x y r s : α}

/-! ## Compression and links -/

/-- A shortcut to the root moves no root. -/
theorem rootOf_update_root (hrooted : ∀ y, ∃ r, RootOf parent y r) (h : RootOf parent x r) :
    RootOf (Function.update parent x r) y s ↔ RootOf parent y s := by
  have hroot : Function.update parent x r r = r := by
    by_cases hr : r = x
    · rw [hr, Function.update_self]
    · rw [Function.update_of_ne hr]
      exact h.isRoot
  have hforward : ∀ {y s}, RootOf parent y s → RootOf (Function.update parent x r) y s := by
    intro y s hys
    induction hys with
    | @root y hy =>
      by_cases hyx : y = x
      · obtain rfl := (hyx ▸ h).eq_of_isRoot (hyx ▸ hy)
        subst hyx
        exact .root hroot
      · exact .root (by rwa [Function.update_of_ne hyx])
    | @step y s hys ih =>
      by_cases hyx : y = x
      · subst hyx
        obtain rfl := h.unique (.step hys)
        refine .step ?_
        rw [Function.update_self]
        exact .root hroot
      · refine .step ?_
        rwa [Function.update_of_ne hyx]
  refine ⟨fun h' => ?_, hforward⟩
  obtain ⟨t, ht⟩ := hrooted y
  rwa [h'.unique (hforward ht)]

/-- A root that is linked to another one takes its tree along. -/
theorem RootOf.update_link {a b : α} (ha : parent a = a) (hb : parent b = b) (hne : a ≠ b)
    (h : RootOf parent y s) :
    RootOf (Function.update parent a b) y (if s = a then b else s) := by
  have hroot : Function.update parent a b b = b := by rwa [Function.update_of_ne hne.symm]
  induction h with
  | @root y hy =>
    by_cases hya : y = a
    · subst hya
      rw [if_pos rfl]
      refine .step ?_
      rw [Function.update_self]
      exact .root hroot
    · rw [if_neg hya]
      exact .root (by rwa [Function.update_of_ne hya])
  | @step y s hys ih =>
    by_cases hya : y = a
    · rw [hya, ha] at ih
      rwa [hya]
    · refine .step ?_
      rwa [Function.update_of_ne hya]

/-! ## The operations -/

/-- `find`: the root, and the forest after path compression. -/
def find : ℕ → (α → α) → α → Option (α × (α → α))
  | 0, _, _ => none
  | fuel + 1, parent, x =>
    if parent x = x then some (x, parent)
    else (find fuel parent (parent x)).map fun found =>
      (found.1, Function.update found.2 x found.1)

/-- Two finds, and a link if the roots differ. -/
def unite (fuel : ℕ) (parent : α → α) (x y : α) : Option (α → α) := do
  let (a, parent) ← find fuel parent x
  let (b, parent) ← find fuel parent y
  return if a = b then parent else Function.update parent a b

/-- The unions of a list of edges. -/
def connect (fuel : ℕ) (parent : α → α) (edges : List (α × α)) : Option (α → α) :=
  edges.foldlM (fun parent e => unite fuel parent e.1 e.2) parent

/-- `find`, given the length of the way. -/
theorem find_of_depth (hf : Forest S parent) {n fuel : ℕ} (hx : x ∈ S) (hn : n < fuel)
    (hroot : parent (parent^[n] x) = parent^[n] x) :
    ∃ parent', find fuel parent x = some (parent^[n] x, parent') ∧ Forest S parent' ∧
      ∀ y s, RootOf parent' y s ↔ RootOf parent y s := by
  induction fuel generalizing n x with
  | zero => exact absurd hn (Nat.not_lt_zero n)
  | succ fuel ih =>
    unfold find
    by_cases hxr : parent x = x
    · rw [if_pos hxr, Function.iterate_fixed hxr]
      exact ⟨parent, rfl, hf, fun _ _ => Iff.rfl⟩
    · rw [if_neg hxr]
      cases n with
      | zero => exact absurd hroot hxr
      | succ n =>
        obtain ⟨parent₁, hfind, hf₁, hsame⟩ := ih (hf.closed x hx) (Nat.lt_of_succ_lt_succ hn) hroot
        have hroot₁ : RootOf parent₁ x (parent^[n] (parent x)) :=
          (hsame _ _).2 (.step (rootOf_iterate hroot))
        have hcompressed := fun y s => rootOf_update_root (y := y) (s := s) hf₁.rooted hroot₁
        refine ⟨Function.update parent₁ x (parent^[n] (parent x)), by rw [hfind]; rfl,
          hf₁.congr (fun y hy => ?_) hcompressed, fun y s => (hcompressed y s).trans (hsame y s)⟩
        by_cases hyx : y = x
        · rw [hyx, Function.update_self]
          exact hf.iterate_mem (hf.closed x hx) n
        · rw [Function.update_of_ne hyx]
          exact hf₁.closed y hy

/-- **`find`** returns the root and moves none. -/
theorem find_spec (hf : Forest S parent) (hx : x ∈ S) :
    ∃ r parent', find S.card parent x = some (r, parent') ∧ RootOf parent x r ∧ r ∈ S ∧
      Forest S parent' ∧ ∀ y s, RootOf parent' y s ↔ RootOf parent y s := by
  obtain ⟨n, hn, hroot⟩ := hf.exists_depth hx
  obtain ⟨parent', hfind, hf', hsame⟩ := find_of_depth hf hx hn hroot
  exact ⟨_, parent', hfind, rootOf_iterate hroot, hf.iterate_mem hx n, hf', hsame⟩

/-- **A union** joins the trees of the two elements. -/
theorem unite_spec (hf : Forest S parent) (hx : x ∈ S) (hy : y ∈ S) :
    ∃ parent', unite S.card parent x y = some parent' ∧ Forest S parent' ∧
      ∀ u v, SameTree parent' u v ↔ SameTree parent u v ∨
        SameTree parent u x ∧ SameTree parent v y ∨ SameTree parent u y ∧ SameTree parent v x := by
  obtain ⟨a, parent₁, hfind₁, hxa, -, hf₁, hsame₁⟩ := find_spec hf hx
  obtain ⟨b, parent₂, hfind₂, hyb, hb, hf₂, hsame₂⟩ := find_spec hf₁ hy
  have hsame : ∀ y s, RootOf parent₂ y s ↔ RootOf parent y s :=
    fun y s => (hsame₂ y s).trans (hsame₁ y s)
  replace hyb : RootOf parent y b := (hsame₁ y b).1 hyb
  have hunite : unite S.card parent x y =
      some (if a = b then parent₂ else Function.update parent₂ a b) := by
    unfold unite
    rw [hfind₁]
    show (find S.card parent₁ y).bind _ = _
    rw [hfind₂]
    rfl
  refine ⟨_, hunite, ?_⟩
  by_cases hab : a = b
  · -- they are in one tree already
    rw [if_pos hab]
    have hxy : SameTree parent x y := ⟨a, hxa, hab ▸ hyb⟩
    refine ⟨hf₂, fun u v => (SameTree.congr hsame).trans ⟨Or.inl, ?_⟩⟩
    rintro (h | ⟨hu, hv⟩ | ⟨hu, hv⟩)
    · exact h
    · exact hf.eqv.trans (hf.eqv.trans hu hxy) (hf.eqv.symm hv)
    · exact hf.eqv.trans (hf.eqv.trans hu (hf.eqv.symm hxy)) (hf.eqv.symm hv)
  · rw [if_neg hab]
    have hlink : ∀ {y s}, RootOf parent y s →
        RootOf (Function.update parent₂ a b) y (if s = a then b else s) := fun h =>
      ((hsame _ _).2 h).update_link ((hsame _ _).2 hxa).isRoot ((hsame _ _).2 hyb).isRoot hab
    refine ⟨⟨fun y => ?_, fun y hy => ?_⟩, fun u v => ?_⟩
    · obtain ⟨s, hs⟩ := hf.rooted y
      exact ⟨_, hlink hs⟩
    · by_cases hya : y = a
      · rw [hya, Function.update_self]
        exact hb
      · rw [Function.update_of_ne hya]
        exact hf₂.closed y hy
    · obtain ⟨s, hs⟩ := hf.rooted u
      obtain ⟨t, ht⟩ := hf.rooted v
      have htree : ∀ {w c z d}, RootOf parent w c → RootOf parent z d →
          (SameTree parent w z ↔ c = d) := fun hc hd =>
        ⟨fun ⟨r, hr, hr'⟩ => (hc.unique hr).trans (hr'.unique hd), fun h => ⟨_, hc, h ▸ hd⟩⟩
      have hnew : SameTree (Function.update parent₂ a b) u v ↔
          (if s = a then b else s) = if t = a then b else t :=
        ⟨fun ⟨r, hr, hr'⟩ => ((hlink hs).unique hr).trans (hr'.unique (hlink ht)),
          fun h => ⟨_, hlink hs, h ▸ hlink ht⟩⟩
      rw [hnew, htree hs ht, htree hs hxa, htree ht hyb, htree hs hyb, htree ht hxa]
      by_cases hsa : s = a
      · by_cases hta : t = a
        · simp [hsa, hta]
        · simp only [hsa, hta, if_true, if_false, true_and, and_false, or_false]
          constructor
          · exact fun h => Or.inr h.symm
          · rintro (h | h)
            · exact absurd h.symm hta
            · exact h.symm
      · by_cases hta : t = a
        · simp [hsa, hta]
        · simp [hsa, hta]

/-- **The unions of some edges**, in any order and direction, leave their components. -/
theorem connect_spec {E : α → α → Prop} {edges : List (α × α)} (hf : Forest S parent)
    (h : Represents E parent) (hin : ∀ e ∈ edges, e.1 ∈ S ∧ e.2 ∈ S) :
    ∃ parent', connect S.card parent edges = some parent' ∧ Forest S parent' ∧
      Represents (fun u v => E u v ∨ (u, v) ∈ edges) parent' := by
  induction edges generalizing parent E with
  | nil => exact ⟨parent, rfl, hf, by simpa using h⟩
  | cons e edges ih =>
    obtain ⟨hx, hy⟩ := hin e List.mem_cons_self
    obtain ⟨parent₁, hunite, hf₁, hjoin⟩ := unite_spec hf hx hy
    obtain ⟨parent', hconnect, hf', h'⟩ := ih hf₁ (h.unite hf hf₁ hjoin)
      fun e' he' => hin e' (List.mem_cons_of_mem e he')
    refine ⟨parent', ?_, hf', ?_⟩
    · rw [connect, List.foldlM_cons, hunite]
      exact hconnect
    · have hedges : (fun u v => (E u v ∨ u = e.1 ∧ v = e.2) ∨ (u, v) ∈ edges) =
          fun u v => E u v ∨ (u, v) ∈ e :: edges := by
        funext u v
        rw [List.mem_cons, Prod.ext_iff, or_assoc]
      rwa [hedges] at h'

end

/-! ## Classes -/

section

variable {α : Type} [DecidableEq α]

/-- The elements of a list by their roots. -/
def classes (fuel : ℕ) (parent : α → α) (xs : List α) : Option (HashMap α (List α)) :=
  (xs.foldlM (fun acc x => (find fuel acc.1 x).map fun found =>
    (found.2, acc.2.entry found.1 [] (· ++ [x]))) (parent, HashMap.empty)).map Prod.snd

/-- The elements of a list by a function. -/
def groups (rootOf : α → α) (xs : List α) : HashMap α (List α) :=
  HashMap.groupFold rootOf [] (fun x l => l ++ [x]) xs

theorem mem_entries_groups {rootOf : α → α} {xs group : List α} {r : α} :
    (r, group) ∈ (groups rootOf xs).entries ↔
      r ∈ xs.map rootOf ∧ group = xs.filter fun x => rootOf x = r := by
  have hpush : ∀ l : List α, l.foldl (fun a x => a ++ [x]) [] = l := fun l => by
    rw [List.foldl_append_eq_append, ← List.flatMap_def, List.flatMap_singleton', List.nil_append]
  rw [groups, HashMap.mem_entries, HashMap.get?_groupFold, hpush, Option.ite_none_right_eq_some,
    Option.some_inj, @eq_comm _ _ group]

/-- **The classes**: the elements grouped by their roots. -/
theorem classes_eq {parent : α → α} {S : Finset α} {xs : List α} {rootOf : α → α}
    (hf : Forest S parent) (hin : ∀ x ∈ xs, x ∈ S) (hroot : ∀ x ∈ xs, RootOf parent x (rootOf x)) :
    classes S.card parent xs = some (groups rootOf xs) := by
  have hloop : ∀ m : HashMap α (List α), ∃ parent',
      xs.foldlM (fun acc x => (find S.card acc.1 x).map fun found =>
        (found.2, acc.2.entry found.1 [] (· ++ [x]))) (parent, m) =
      some (parent', xs.foldl (fun m x => m.entry (rootOf x) [] (· ++ [x])) m) := by
    induction xs generalizing parent with
    | nil => exact fun m => ⟨parent, rfl⟩
    | cons x xs ih =>
      intro m
      obtain ⟨r, parent₁, hfind, hxr, -, hf₁, hsame⟩ := find_spec hf (hin x List.mem_cons_self)
      obtain rfl := hxr.unique (hroot x List.mem_cons_self)
      obtain ⟨parent', hxs⟩ := ih hf₁ (fun y hy => hin y (List.mem_cons_of_mem x hy))
        (fun y hy => (hsame y _).2 (hroot y (List.mem_cons_of_mem x hy)))
        (m.entry (rootOf x) [] (· ++ [x]))
      refine ⟨parent', ?_⟩
      rw [List.foldlM_cons, hfind]
      exact hxs
  obtain ⟨parent', hparent⟩ := hloop HashMap.empty
  unfold classes
  rw [hparent]
  rfl

end

end Spectral.Lib.UnionFind
