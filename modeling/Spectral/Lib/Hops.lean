import Mathlib.Data.Set.Defs
import Mathlib.Order.Basic

/-!
# Hops

The nodes of a graph that are at most so many steps from a start, and a search that goes from the
start level by level.

* `Near` — a node is at most `n` steps away.
* `near_congr` — steps from nodes that are too far away do not count.
* `Levels` — the invariant of a search: what it came to, what it has yet to go on from, and what it
  is done with.  `Levels.next` is one more level, `Levels.of_done` the end of the search.
-/

namespace Spectral.Lib

variable {κ : Type*} (E : κ → κ → Prop) (start : κ)

/-- A node is at most so many steps from the start. -/
def Near : ℕ → κ → Prop
  | 0, x => x = start
  | n + 1, x => Near n x ∨ ∃ y, Near n y ∧ E y x

variable {E start} {n : ℕ} {x : κ}

theorem near_start (n : ℕ) : Near E start n start := by
  induction n with
  | zero => rfl
  | succ n ih => exact Or.inl ih

theorem Near.step {y : κ} (h : Near E start n x) (hstep : E x y) : Near E start (n + 1) y :=
  Or.inr ⟨x, h, hstep⟩

theorem Near.mono {m : ℕ} (hmn : m ≤ n) (h : Near E start m x) : Near E start n x := by
  induction hmn with
  | refl => exact h
  | step _ ih => exact Or.inl ih

/-- What has the start and goes along with every step has all that is near. -/
theorem Near.mem_of_closed {s : Set κ} (hstart : start ∈ s) (hclosed : ∀ x ∈ s, ∀ y, E x y → y ∈ s)
    (h : Near E start n x) : x ∈ s := by
  induction n generalizing x with
  | zero => exact (show x = start from h) ▸ hstart
  | succ n ih =>
    rcases h with h | ⟨y, h, hstep⟩
    · exact ih h
    · exact hclosed y (ih h) x hstep

/-- Steps from nodes that are too far away do not count. -/
theorem near_congr {E' : κ → κ → Prop} (h : ∀ m < n, ∀ y, Near E start m y → ∀ z, E y z ↔ E' y z) :
    Near E start n x ↔ Near E' start n x := by
  induction n generalizing x with
  | zero => exact Iff.rfl
  | succ n ih =>
    have hn : ∀ {y}, Near E start n y ↔ Near E' start n y := ih fun m hm => h m (by omega)
    refine or_congr hn (exists_congr fun y => ?_)
    constructor
    · rintro ⟨hy, hstep⟩
      exact ⟨hn.1 hy, (h n (by omega) y hy x).1 hstep⟩
    · rintro ⟨hy, hstep⟩
      exact ⟨hn.2 hy, (h n (by omega) y (hn.2 hy) x).2 hstep⟩

/-! ## A search by levels -/

/-- The state of a search after `n` levels: it came to all that is near, and it is done with what it
came to before the last level. -/
structure Levels (E : κ → κ → Prop) (start : κ) (n : ℕ) (visited frontier explored : Set κ) :
    Prop where
  reached : ∀ x, Near E start n x → x ∈ visited
  behind : ∀ m < n, ∀ x, Near E start m x → x ∈ explored
  pending : ∀ x ∈ visited, x ∈ frontier ∨ x ∈ explored
  spread : ∀ x ∈ explored, ∀ y, E x y → y ∈ visited

namespace Levels

variable {visited frontier explored visited' frontier' explored' : Set κ}

theorem init (hstart : start ∈ visited) (hpending : ∀ x ∈ visited, x ∈ frontier ∨ x ∈ explored)
    (hspread : ∀ x ∈ explored, ∀ y, E x y → y ∈ visited) :
    Levels E start 0 visited frontier explored where
  reached x h := (show x = start from h) ▸ hstart
  behind m hm := absurd hm (Nat.not_lt_zero m)
  pending := hpending
  spread := hspread

/-- One more level: the search is done with all it had yet to go on from, and goes on from what is
new. -/
theorem next (h : Levels E start n visited frontier explored) (hvisited : ∀ x ∈ visited, x ∈ visited')
    (hexplored : ∀ x ∈ explored, x ∈ explored') (hfrontier : ∀ x ∈ frontier, x ∈ explored')
    (hfresh : ∀ x ∈ visited', x ∈ visited ∨ x ∈ frontier')
    (hspread : ∀ x ∈ explored', ∀ y, E x y → y ∈ visited') :
    Levels E start (n + 1) visited' frontier' explored' := by
  have hdone : ∀ x ∈ visited, x ∈ explored' := fun x hx =>
    (h.pending x hx).elim (hfrontier x) (hexplored x)
  refine ⟨fun x hx => ?_, fun m hm x hx => ?_, fun x hx => ?_, hspread⟩
  · rcases hx with hx | ⟨y, hy, hstep⟩
    · exact hvisited x (h.reached x hx)
    · exact hspread y (hdone y (h.reached y hy)) x hstep
  · exact hdone x (h.reached x (hx.mono (by omega)))
  · exact (hfresh x hx).symm.imp_right (hdone x)

/-- A search that has nothing to go on from has come to all there is. -/
theorem of_done (h : Levels E start n visited frontier explored) (hdone : ∀ x, x ∉ frontier) (m : ℕ) :
    Levels E start m visited frontier explored := by
  have hexplored : ∀ x ∈ visited, x ∈ explored := fun x hx =>
    (h.pending x hx).resolve_left (hdone x)
  have hnear : ∀ m x, Near E start m x → x ∈ visited := fun _ _ hx =>
    hx.mem_of_closed (h.reached start (near_start n)) fun x hx => h.spread x (hexplored x hx)
  exact ⟨hnear m, fun m' _ x hx => hexplored x (hnear m' x hx), h.pending, h.spread⟩

end Levels

end Spectral.Lib
