import Mathlib.Order.Lattice
import Mathlib.Data.Set.Lattice

/-!
# Two-phase sets

The abstract replicated set with tombstones: what has ever been added, what has
ever been removed, and the live members, which are the first without the second.  A
removal is final.  The states form a join semilattice, and a replica's state is the
join of the effects of what was delivered to it, so it is a function of the *set* of
deliveries: neither their order nor their repetition shows
(`collect_congr`).

`run_refines` is the rule for using it: an implementation whose every step joins the
delivery's effect to the abstract state it represents ends a run in a representation
of the collected effects.
-/

namespace Spectral.Lib

/-- What was ever added and what was ever removed. -/
@[ext] structure TwoPhaseSet (ι : Type*) where
  /-- Everything ever added. -/
  added : Set ι
  /-- Everything ever removed. -/
  removed : Set ι

namespace TwoPhaseSet

variable {ι δ σ : Type*}

/-- The members: added and never removed. -/
def live (S : TwoPhaseSet ι) : Set ι := S.added \ S.removed

/-- The join of two states. -/
def merge (S T : TwoPhaseSet ι) : TwoPhaseSet ι := ⟨S.added ∪ T.added, S.removed ∪ T.removed⟩

/-- The state of a replica nothing was delivered to. -/
def bot : TwoPhaseSet ι := ⟨∅, ∅⟩

/-- The state of a replica that the deliveries `ds` reached, in that order. -/
def collect (effect : δ → TwoPhaseSet ι) (ds : List δ) : TwoPhaseSet ι :=
  ds.foldl (fun S d => S.merge (effect d)) bot

@[simp] theorem mem_live {S : TwoPhaseSet ι} {i : ι} :
    i ∈ S.live ↔ i ∈ S.added ∧ i ∉ S.removed := Iff.rfl

@[simp] theorem mem_added_merge {S T : TwoPhaseSet ι} {i : ι} :
    i ∈ (S.merge T).added ↔ i ∈ S.added ∨ i ∈ T.added := Iff.rfl

@[simp] theorem mem_removed_merge {S T : TwoPhaseSet ι} {i : ι} :
    i ∈ (S.merge T).removed ↔ i ∈ S.removed ∨ i ∈ T.removed := Iff.rfl

@[simp] theorem not_mem_added_bot (i : ι) : i ∉ (bot : TwoPhaseSet ι).added := Set.notMem_empty i

@[simp] theorem not_mem_removed_bot (i : ι) : i ∉ (bot : TwoPhaseSet ι).removed :=
  Set.notMem_empty i

theorem merge_assoc (S T U : TwoPhaseSet ι) : (S.merge T).merge U = S.merge (T.merge U) := by
  ext i <;> simp [or_assoc]

/-- Starting from a state already reached only joins that state on. -/
theorem foldl_merge (effect : δ → TwoPhaseSet ι) (S : TwoPhaseSet ι) (ds : List δ) :
    ds.foldl (fun S d => S.merge (effect d)) S = S.merge (collect effect ds) := by
  induction ds generalizing S with
  | nil => ext i <;> simp [collect]
  | cons d ds ih =>
    have h : collect effect (d :: ds) = (bot.merge (effect d)).merge (collect effect ds) := by
      rw [collect, List.foldl_cons, ih]
    rw [List.foldl_cons, ih, h, merge_assoc]
    ext i <;> simp

theorem collect_cons (effect : δ → TwoPhaseSet ι) (d : δ) (ds : List δ) :
    collect effect (d :: ds) = (effect d).merge (collect effect ds) := by
  rw [collect, List.foldl_cons, foldl_merge]
  ext i <;> simp

theorem mem_added_collect {effect : δ → TwoPhaseSet ι} {ds : List δ} {i : ι} :
    i ∈ (collect effect ds).added ↔ ∃ d ∈ ds, i ∈ (effect d).added := by
  induction ds with
  | nil => simp [collect]
  | cons d ds ih => simp [collect_cons, ih]

theorem mem_removed_collect {effect : δ → TwoPhaseSet ι} {ds : List δ} {i : ι} :
    i ∈ (collect effect ds).removed ↔ ∃ d ∈ ds, i ∈ (effect d).removed := by
  induction ds with
  | nil => simp [collect]
  | cons d ds ih => simp [collect_cons, ih]

/-- **Delivery order and duplication do not show.**  Replicas that received the same
deliveries, in any order and any number of times, are in the same state. -/
theorem collect_congr (effect : δ → TwoPhaseSet ι) {ds ds' : List δ} (h : ∀ d, d ∈ ds ↔ d ∈ ds') :
    collect effect ds = collect effect ds' := by
  ext i
  · simp [mem_added_collect, h]
  · simp [mem_removed_collect, h]

/-- An implementation that represents a two-phase set, and whose every step joins the
effect of the delivery on, represents the collected effects after any deliveries. -/
theorem run_refines {effect : δ → TwoPhaseSet ι} {step : σ → δ → σ}
    {R : σ → TwoPhaseSet ι → Prop} {ds : List δ} {s : σ} {S : TwoPhaseSet ι}
    (hstep : ∀ s S, ∀ d ∈ ds, R s S → R (step s d) (S.merge (effect d))) (h0 : R s S) :
    R (ds.foldl step s) (S.merge (collect effect ds)) := by
  induction ds generalizing s S with
  | nil => simpa [collect, merge, bot] using h0
  | cons d ds ih =>
    rw [collect_cons, ← merge_assoc]
    exact ih (fun s S e he => hstep s S e (List.mem_cons_of_mem d he))
      (hstep s S d List.mem_cons_self h0)

end TwoPhaseSet

end Spectral.Lib
