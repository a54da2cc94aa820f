import Mathlib.Data.List.Basic

/-!
# One transaction or many

A step reads and changes a state, and returns a result or fails.  A list of calls can be made one
by one, each in a transaction of its own, so that a call that fails leaves the state as it was and
the next one starts from there; or all in one transaction, which the first failure rolls back.

* `callAll_map_snd` — one transaction returns the results of the calls made one by one, or the
  first of their errors.
* `callEach_of_callAll` — when it goes through, it leaves what they leave.
* `eq_of_callAll` — what a step keeps, a transaction keeps.
-/

namespace Spectral.Lib

variable {σ α β ε : Type} (step : σ → α → Except ε (σ × β))

/-- One call in its own transaction: a failure is rolled back. -/
def call (s : σ) (a : α) : σ × Except ε β :=
  match step s a with
  | .ok (t, b) => (t, .ok b)
  | .error e => (s, .error e)

/-- The calls one by one, and what each returns. -/
def callEach : σ → List α → σ × List (Except ε β)
  | s, [] => (s, [])
  | s, a :: l =>
    let first := call step s a
    let rest := callEach first.1 l
    (rest.1, first.2 :: rest.2)

/-- The calls in one transaction, and what they return. -/
def callAll : σ → List α → Except ε (σ × List β)
  | s, [] => .ok (s, [])
  | s, a :: l =>
    match step s a with
    | .error e => .error e
    | .ok (t, b) => (callAll t l).map fun rest => (rest.1, b :: rest.2)

theorem callEach_cons (s : σ) (a : α) (l : List α) :
    callEach step s (a :: l) =
      ((callEach step (call step s a).1 l).1,
        (call step s a).2 :: (callEach step (call step s a).1 l).2) := rfl

variable {step}

theorem callAll_cons_of_error {s : σ} {a : α} {e : ε} (h : step s a = .error e) (l : List α) :
    callAll step s (a :: l) = .error e := by
  unfold callAll
  rw [h]

theorem callAll_cons_of_ok {s t : σ} {a : α} {b : β} (h : step s a = .ok (t, b)) (l : List α) :
    callAll step s (a :: l) = (callAll step t l).map fun rest => (rest.1, b :: rest.2) := by
  conv_lhs => unfold callAll
  rw [h]

theorem call_of_error {s : σ} {a : α} {e : ε} (h : step s a = .error e) :
    call step s a = (s, .error e) := by
  unfold call
  rw [h]

theorem call_of_ok {s t : σ} {a : α} {b : β} (h : step s a = .ok (t, b)) :
    call step s a = (t, .ok b) := by
  unfold call
  rw [h]

/-- **The results of a transaction** are those of the calls one by one, or the first error. -/
theorem callAll_map_snd (s : σ) (l : List α) :
    (callAll step s l).map Prod.snd = (callEach step s l).2.mapM id := by
  induction l generalizing s with
  | nil => rfl
  | cons a l ih =>
    rw [callEach_cons, List.mapM_cons]
    cases ha : step s a with
    | error e =>
      rw [callAll_cons_of_error ha, call_of_error ha]
      rfl
    | ok p =>
      obtain ⟨t, b⟩ := p
      rw [callAll_cons_of_ok ha, call_of_ok ha, ← ih t]
      cases callAll step t l <;> rfl

/-- **A transaction that goes through** leaves what the calls one by one leave. -/
theorem callEach_of_callAll {s t : σ} {l : List α} {bs : List β}
    (h : callAll step s l = .ok (t, bs)) : callEach step s l = (t, bs.map .ok) := by
  induction l generalizing s bs with
  | nil =>
    cases h
    rfl
  | cons a l ih =>
    cases ha : step s a with
    | error e =>
      rw [callAll_cons_of_error ha] at h
      cases h
    | ok p =>
      obtain ⟨u, b⟩ := p
      rw [callAll_cons_of_ok ha] at h
      rw [callEach_cons, call_of_ok ha]
      cases hrest : callAll step u l with
      | error e =>
        rw [hrest] at h
        cases h
      | ok rest =>
        rw [hrest] at h
        cases h
        rw [ih hrest]
        rfl

/-- A transaction returns a result for each call, and keeps what a step keeps. -/
theorem eq_of_callAll {γ : Type} {f : σ → γ} (hstep : ∀ s a t b, step s a = .ok (t, b) → f t = f s)
    {s t : σ} {l : List α} {bs : List β} (h : callAll step s l = .ok (t, bs)) :
    bs.length = l.length ∧ f t = f s := by
  induction l generalizing s bs with
  | nil =>
    cases h
    exact ⟨rfl, rfl⟩
  | cons a l ih =>
    cases ha : step s a with
    | error e =>
      rw [callAll_cons_of_error ha] at h
      cases h
    | ok p =>
      obtain ⟨u, b⟩ := p
      rw [callAll_cons_of_ok ha] at h
      cases hrest : callAll step u l with
      | error e =>
        rw [hrest] at h
        cases h
      | ok rest =>
        rw [hrest] at h
        cases h
        obtain ⟨hlength, hkept⟩ := ih hrest
        exact ⟨congrArg (· + 1) hlength, hkept.trans (hstep s a u b ha)⟩

end Spectral.Lib
