import Spectral.Lib.Run

/-!
# Calls that cannot be noticed

Some calls of a system are hidden, and an observer sees part of its state.

* `Unwinding` — what one call has to do: a hidden call changes nothing that is seen, and what is seen
  after any other call depends on what was seen before it.
* `run_purge` — a run looks like the one without its hidden calls.
-/

namespace Spectral.Lib

variable {σ α τ : Type*}

/-- The conditions on one call.  A hidden call is unnoticed where `ok` holds, in a state with the
invariant `I`. -/
structure Unwinding (step : σ → α → σ) (I : σ → Prop) (ok : σ → α → Prop) (hidden : α → Bool)
    (seen : σ → τ) : Prop where
  keeps : ∀ s a, I s → I (step s a)
  unnoticed : ∀ s a, I s → ok s a → hidden a = true → seen (step s a) = seen s
  respects : ∀ s t a, seen s = seen t → hidden a = false → seen (step s a) = seen (step t a)

namespace Unwinding

variable {step : σ → α → σ} {I : σ → Prop} {ok : σ → α → Prop} {hidden : α → Bool} {seen : σ → τ}

/-- Without hidden calls, states that look alike go on looking alike. -/
theorem run_of_visible (h : Unwinding step I ok hidden seen) {l : List α}
    (hl : ∀ a ∈ l, hidden a = false) {s t : σ} (hst : seen s = seen t) :
    seen (run step s l) = seen (run step t l) := by
  induction l generalizing s t with
  | nil => exact hst
  | cons a l ih =>
    obtain ⟨ha, hrest⟩ := List.forall_mem_cons.1 hl
    exact ih hrest (h.respects s t a hst ha)

theorem visible_filter (hidden : α → Bool) (l : List α) :
    ∀ a ∈ l.filter (fun a => !hidden a), hidden a = false :=
  fun a ha => by simpa using (List.mem_filter.1 ha).2

/-- **A run looks like the one without its hidden calls.** -/
theorem run_purge (h : Unwinding step I ok hidden seen) {s : σ} {l : List α} (hI : I s)
    (hok : AllSteps step ok s l) :
    seen (run step s l) = seen (run step s (l.filter fun a => !hidden a)) := by
  induction l generalizing s with
  | nil => rfl
  | cons a l ih =>
    obtain ⟨hfirst, hrest⟩ := hok
    rw [run_cons, ih (h.keeps s a hI) hrest]
    cases ha : hidden a with
    | true =>
      -- the call is left out, and the run goes on from a state that looks the same
      rw [List.filter_cons_of_neg (by simp [ha])]
      exact h.run_of_visible (visible_filter hidden l) (h.unnoticed s a hI hfirst ha)
    | false => rw [List.filter_cons_of_pos (by simp [ha]), run_cons]

end Unwinding

end Spectral.Lib
