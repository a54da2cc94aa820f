import Mathlib.Logic.Relation

/-!
# Forwarding graphs

Things that were merged into others point to what they were merged into.  A node of the set
`V` *forwards* when an edge leaves it, and *holds* when it is in `V` and does not forward.  A
graph is *grounded* when every forwarding node of `V` has a chain of edges to a node that
holds, so that nothing is lost by following the edges.

* `Grounded.mono_nodes` — new nodes keep a graph grounded.
* `Grounded.forward_iff` — pointing the nodes `S`, which hold, to `t` keeps it grounded exactly
  when `t` leads to a node that holds and is not in `S`.
* `grounded_cascade_iff` — taking nodes away, with the edges that leave them, keeps it grounded
  exactly when every forwarding node that stays has a way out among the nodes that stay.
* `grounded_delete_iff` — the same for taking a node away with all its edges.

An arbitrary number of edges may leave a node, and cycles are allowed as long as they have a
way out.
-/

namespace Spectral.Lib

open Relation

variable {κ : Type*}

/-- Some edge leaves the node. -/
def Forwarding (E : κ → κ → Prop) (x : κ) : Prop := ∃ y, E x y

/-- The node is there and no edge leaves it. -/
def Holds (V : κ → Prop) (E : κ → κ → Prop) (x : κ) : Prop := V x ∧ ¬ Forwarding E x

/-- A chain of edges goes from the node to one that holds. -/
def LeadsOut (V : κ → Prop) (E : κ → κ → Prop) (x : κ) : Prop :=
  ∃ y, ReflTransGen E x y ∧ Holds V E y

/-- Every forwarding node leads to a node that holds. -/
def Grounded (V : κ → Prop) (E : κ → κ → Prop) : Prop :=
  ∀ x, V x → Forwarding E x → LeadsOut V E x

variable {V V' : κ → Prop} {E E' : κ → κ → Prop}

/-- A node that does not forward has no chain but the empty one. -/
theorem eq_of_reflTransGen_of_not_forwarding {x y : κ} (h : ReflTransGen E x y)
    (hx : ¬ Forwarding E x) : x = y := by
  rcases h.cases_head with rfl | ⟨z, hxz, -⟩
  · rfl
  · exact absurd ⟨z, hxz⟩ hx

/-- In a grounded graph every node leads to one that holds. -/
theorem Grounded.leadsOut (h : Grounded V E) {x : κ} (hx : V x) : LeadsOut V E x := by
  by_cases hf : Forwarding E x
  · exact h x hx hf
  · exact ⟨x, .refl, hx, hf⟩

/-- **New nodes.**  The edges start at old nodes, so the new ones hold. -/
theorem Grounded.mono_nodes (h : Grounded V E) (hV : ∀ x, V x → V' x)
    (hE : ∀ x y, E x y → V x) : Grounded V' E := by
  rintro x - ⟨y, hxy⟩
  obtain ⟨z, hxz, hz, hnot⟩ := h x (hE x y hxy) ⟨y, hxy⟩
  exact ⟨z, hxz, hV z hz, hnot⟩

theorem Grounded.congr (h : Grounded V E) (hV : ∀ x, V' x ↔ V x)
    (hE : ∀ x y, E' x y ↔ E x y) : Grounded V' E' := by
  have hVV : V' = V := funext fun x => propext (hV x)
  have hEE : E' = E := funext fun x => funext fun y => propext (hE x y)
  rwa [hVV, hEE]

/-! ## New edges -/

section Forward

variable {S : κ → Prop} {t : κ}

/-- Of the nodes `S`, which hold, edges to `t` are drawn, and of nodes that forward already. -/
structure ForwardTo (V : κ → Prop) (E E' : κ → κ → Prop) (S : κ → Prop) (t : κ) : Prop where
  holds : ∀ x, S x → Holds V E x
  old : ∀ x y, E x y → E' x y
  new : ∀ x, S x → E' x t
  only : ∀ x y, E' x y → E x y ∨ y = t ∧ (S x ∨ Forwarding E x)

theorem ForwardTo.holds_iff (h : ForwardTo V E E' S t) {x : κ} :
    Holds V E' x ↔ Holds V E x ∧ ¬ S x := by
  constructor
  · rintro ⟨hx, hnot⟩
    refine ⟨⟨hx, fun ⟨y, hxy⟩ => hnot ⟨y, h.old x y hxy⟩⟩, fun hS => hnot ⟨t, h.new x hS⟩⟩
  · rintro ⟨⟨hx, hnot⟩, hS⟩
    refine ⟨hx, fun ⟨y, hxy⟩ => ?_⟩
    rcases h.only x y hxy with hold | ⟨-, hS' | hf⟩
    · exact hnot ⟨y, hold⟩
    · exact hS hS'
    · exact hnot hf

/-- A chain that uses a new edge goes on from `t` by old edges, in the end. -/
theorem ForwardTo.chain (h : ForwardTo V E E' S t) {x y : κ} (hxy : ReflTransGen E' x y) :
    ReflTransGen E x y ∨ ReflTransGen E t y := by
  induction hxy with
  | refl => exact Or.inl .refl
  | tail _ hyz ih =>
    rcases h.only _ _ hyz with hold | ⟨rfl, -⟩
    · exact ih.imp (fun hc => hc.tail hold) fun hc => hc.tail hold
    · exact Or.inr .refl

/-- **New edges.**  Pointing `S` to `t` keeps a grounded graph grounded exactly when `t` leads
to a node that holds and is not itself in `S`. -/
theorem Grounded.forward_iff (hg : Grounded V E) (h : ForwardTo V E E' S t)
    (hS : ∃ s, S s) :
    Grounded V E' ↔ ∃ y, ReflTransGen E t y ∧ Holds V E y ∧ ¬ S y := by
  constructor
  · intro hg'
    obtain ⟨s, hs⟩ := hS
    obtain ⟨y, hsy, hy⟩ := hg' s (h.holds s hs).1 ⟨t, h.new s hs⟩
    obtain ⟨hyE, hyS⟩ := h.holds_iff.1 hy
    rcases h.chain hsy with hold | hty
    · -- `s` holds in the old graph, so the chain is empty, but its end is not in `S`
      rw [eq_of_reflTransGen_of_not_forwarding hold (h.holds s hs).2] at hs
      exact absurd hs hyS
    · exact ⟨y, hty, hyE, hyS⟩
  · rintro ⟨y, hty, hyE, hyS⟩ x hx hf
    have hy' : Holds V E' y := h.holds_iff.2 ⟨hyE, hyS⟩
    have hmono : ∀ {a b}, ReflTransGen E a b → ReflTransGen E' a b := fun hab =>
      ReflTransGen.mono h.old _ _ hab
    by_cases hxS : S x
    · exact ⟨y, .head (h.new x hxS) (hmono hty), hy'⟩
    · obtain ⟨z, hxz, hz⟩ := hg.leadsOut hx
      by_cases hzS : S z
      · exact ⟨y, (hmono hxz).trans (.head (h.new z hzS) (hmono hty)), hy'⟩
      · exact ⟨z, hmono hxz, h.holds_iff.2 ⟨hz, hzS⟩⟩

/-- Edges that leave only forwarding nodes keep a grounded graph grounded. -/
theorem Grounded.forward_of_empty (hg : Grounded V E) (h : ForwardTo V E E' S t)
    (hS : ¬ ∃ s, S s) : Grounded V E' := by
  intro x hx hf
  obtain ⟨z, hxz, hz⟩ := hg.leadsOut hx
  exact ⟨z, ReflTransGen.mono h.old _ _ hxz, h.holds_iff.2 ⟨hz, fun hzS => hS ⟨z, hzS⟩⟩⟩

end Forward

/-! ## Nodes taken away -/

section Cascade

variable {stays : κ → Prop}

/-- A chain of edges that only visits nodes that stay. -/
def ChainAmong (E : κ → κ → Prop) (stays : κ → Prop) : κ → κ → Prop :=
  ReflTransGen fun a b => E a b ∧ stays b

/-- The chains of the graph that is left: from a node that stays to one that stays. -/
theorem chainAmong_iff (hE : ∀ x y, E' x y ↔ E x y ∧ stays x) {x y : κ} (hx : stays x) :
    ChainAmong E stays x y ↔ ReflTransGen E' x y ∧ stays y := by
  constructor
  · intro h
    induction h with
    | refl => exact ⟨.refl, hx⟩
    | tail _ hyz ih => exact ⟨ih.1.tail ((hE _ _).2 ⟨hyz.1, ih.2⟩), hyz.2⟩
  · rintro ⟨h, hy⟩
    induction h with
    | refl => exact .refl
    | tail _ hyz ih =>
      obtain ⟨hE', hstays⟩ := (hE _ _).1 hyz
      exact (ih hstays).tail ⟨hE', hy⟩

/-- **Nodes taken away with the edges that leave them.**  What is left is grounded exactly when
every forwarding node that stays has a chain among the nodes that stay to one that holds. -/
theorem grounded_cascade_iff (hV : ∀ x, V' x ↔ V x ∧ stays x)
    (hE : ∀ x y, E' x y ↔ E x y ∧ stays x) :
    Grounded V' E' ↔ ∀ x, V x → stays x → Forwarding E x →
      ∃ y, ChainAmong E stays x y ∧ Holds V E y := by
  have hforward : ∀ x, stays x → (Forwarding E' x ↔ Forwarding E x) := by
    intro x hx
    exact exists_congr fun y => (hE x y).trans (and_iff_left hx)
  have hchain : ∀ x y, stays x →
      (ReflTransGen E' x y ∧ Holds V' E' y ↔ ChainAmong E stays x y ∧ Holds V E y) := by
    intro x y hx
    rw [chainAmong_iff hE hx]
    constructor
    · rintro ⟨hc, hy, hnot⟩
      obtain ⟨hVy, hs⟩ := (hV y).1 hy
      exact ⟨⟨hc, hs⟩, hVy, fun hf => hnot ((hforward y hs).2 hf)⟩
    · rintro ⟨⟨hc, hs⟩, hVy, hnot⟩
      exact ⟨hc, (hV y).2 ⟨hVy, hs⟩, fun hf => hnot ((hforward y hs).1 hf)⟩
  constructor
  · intro hg x hx hs hf
    obtain ⟨y, hy⟩ := hg x ((hV x).2 ⟨hx, hs⟩) ((hforward x hs).2 hf)
    exact ⟨y, (hchain x y hs).1 hy⟩
  · intro hall x hx hf
    obtain ⟨hVx, hs⟩ := (hV x).1 hx
    obtain ⟨y, hy⟩ := hall x hVx hs ((hforward x hs).1 hf)
    exact ⟨y, (hchain x y hs).2 hy⟩

/-- **A node taken away with all its edges.**  What is left is grounded exactly when every node
that still forwards has a chain that avoids the node, to one whose edges all led to it. -/
theorem grounded_delete_iff {k : κ} (hV : ∀ x, V' x ↔ V x ∧ x ≠ k)
    (hE : ∀ x y, E' x y ↔ E x y ∧ x ≠ k ∧ y ≠ k) :
    Grounded V' E' ↔ ∀ x, V x → x ≠ k → (∃ y, E x y ∧ y ≠ k) →
      ∃ y, ChainAmong E (· ≠ k) x y ∧ V y ∧ ∀ z, E y z → z = k := by
  have hforward : ∀ x, x ≠ k → (Forwarding E' x ↔ ∃ y, E x y ∧ y ≠ k) := by
    intro x hx
    refine exists_congr fun y => ?_
    rw [hE, and_iff_right hx]
  have hchain : ∀ x y, x ≠ k → (ReflTransGen E' x y ↔ ChainAmong E (· ≠ k) x y) := by
    intro x y hx
    constructor
    · intro h
      refine ReflTransGen.mono (fun a b hab => ?_) _ _ h
      exact ⟨((hE a b).1 hab).1, ((hE a b).1 hab).2.2⟩
    · intro h
      suffices ReflTransGen E' x y ∧ y ≠ k from this.1
      induction h with
      | refl => exact ⟨.refl, hx⟩
      | tail _ hyz ih => exact ⟨ih.1.tail ((hE _ _).2 ⟨hyz.1, ih.2, hyz.2⟩), hyz.2⟩
  have hend : ∀ x y, x ≠ k → ChainAmong E (· ≠ k) x y → y ≠ k := by
    intro x y hx h
    rcases h.cases_tail with rfl | ⟨z, -, hzy⟩
    · exact hx
    · exact hzy.2
  constructor
  · intro hg x hx hk hf
    obtain ⟨y, hxy, hy, hnot⟩ := hg x ((hV x).2 ⟨hx, hk⟩) ((hforward x hk).2 hf)
    have hyk := ((hV y).1 hy).2
    refine ⟨y, (hchain x y hk).1 hxy, ((hV y).1 hy).1, fun z hz => ?_⟩
    exact Classical.byContradiction fun hzk => hnot ((hforward y hyk).2 ⟨z, hz, hzk⟩)
  · intro hall x hx hf
    obtain ⟨hVx, hk⟩ := (hV x).1 hx
    obtain ⟨y, hxy, hy, hz⟩ := hall x hVx hk ((hforward x hk).1 hf)
    have hyk := hend x y hk hxy
    refine ⟨y, (hchain x y hk).2 hxy, (hV y).2 ⟨hy, hyk⟩, fun hfy => ?_⟩
    obtain ⟨z, hyz, hzk⟩ := (hforward y hyk).1 hfy
    exact hzk (hz z hyz)

end Cascade

end Spectral.Lib
