import Mathlib.Data.List.Induction

/-!
# Runs of a step function

A system is a step function `step : σ → α → σ`: what one call `a` does to a state.
A run is a list of calls applied in order.  This file has the rules by which a fact
about one step becomes a fact about every run:

* `run_invariant` — a property each step keeps holds after every run;
* `AllSteps` and `run_invariant_of_allSteps` — the same when the steps keep it only
  under a condition on the state they start from, for the runs all of whose steps
  meet the condition;
* `run_history` — a property relating the state to the calls made so far;
* `rel_run_of_allSteps` — a relation between two systems, kept by steps that look alike, holds after
  two runs that look alike;
* `exists_run_of_step` — a system whose steps are steps of another one, or none, has
  runs that are runs of the other one;
* `rel_of_foldlM_eq_ok` — a relation between states, such as "once set, never unset",
  holds between the start and the end of a run whose steps can fail.
-/

namespace Spectral.Lib

variable {σ α : Type*}

/-- The state after the calls `l`, made in order from `s`. -/
def run (step : σ → α → σ) (s : σ) (l : List α) : σ := l.foldl step s

/-- Every step of the run meets the condition `ok` in the state it starts from. -/
def AllSteps (step : σ → α → σ) (ok : σ → α → Prop) : σ → List α → Prop
  | _, [] => True
  | s, a :: l => ok s a ∧ AllSteps step ok (step s a) l

section

variable (step : σ → α → σ)

@[simp] theorem run_nil (s : σ) : run step s [] = s := rfl

@[simp] theorem run_cons (s : σ) (a : α) (l : List α) :
    run step s (a :: l) = run step (step s a) l := rfl

theorem run_append (s : σ) (l l' : List α) : run step s (l ++ l') = run step (run step s l) l' :=
  List.foldl_append

theorem run_concat (s : σ) (l : List α) (a : α) :
    run step s (l ++ [a]) = step (run step s l) a := by
  rw [run_append, run_cons, run_nil]

variable (ok : σ → α → Prop)

@[simp] theorem allSteps_nil (s : σ) : AllSteps step ok s [] := trivial

@[simp] theorem allSteps_cons (s : σ) (a : α) (l : List α) :
    AllSteps step ok s (a :: l) ↔ ok s a ∧ AllSteps step ok (step s a) l := Iff.rfl

theorem allSteps_append (s : σ) (l l' : List α) :
    AllSteps step ok s (l ++ l') ↔ AllSteps step ok s l ∧ AllSteps step ok (run step s l) l' := by
  induction l generalizing s with
  | nil => simp
  | cons a l ih => simp [ih, and_assoc]

instance [∀ s a, Decidable (ok s a)] (s : σ) (l : List α) : Decidable (AllSteps step ok s l) :=
  go s l
where
  /-- The condition is checked step by step, along the run. -/
  go (s : σ) : (l : List α) → Decidable (AllSteps step ok s l)
    | [] => isTrue trivial
    | a :: l =>
      have := go (step s a) l
      inferInstanceAs (Decidable (ok s a ∧ AllSteps step ok (step s a) l))

end

variable {step : σ → α → σ} {ok : σ → α → Prop}

/-- A property every step keeps, under the condition, holds after every run whose
steps all meet the condition. -/
theorem run_invariant_of_allSteps {I : σ → Prop} {s : σ} {l : List α}
    (hstep : ∀ s a, I s → ok s a → I (step s a)) (h0 : I s) (hok : AllSteps step ok s l) :
    I (run step s l) := by
  induction l generalizing s with
  | nil => exact h0
  | cons a l ih => exact ih (hstep s a h0 hok.1) hok.2

/-- A condition that every step meets. -/
theorem allSteps_of_forall (h : ∀ s a, ok s a) (s : σ) (l : List α) : AllSteps step ok s l := by
  induction l generalizing s with
  | nil => trivial
  | cons a l ih => exact ⟨h s a, ih (step s a)⟩

/-- Among the runs whose steps meet a side condition: when the condition says exactly when a step
keeps a property, beside one that every step from there keeps, the runs all of whose steps meet it
are those that never leave the property. -/
theorem allSteps_iff_forall_past_of_allSteps {C : σ → α → Prop} {J I : σ → Prop} {s : σ}
    {l : List α} (hkeep : ∀ s a, J s → I s → C s a → J (step s a))
    (hstep : ∀ s a, J s → I s → C s a → (I (step s a) ↔ ok s a)) (hJ : J s) (hI : I s)
    (hC : AllSteps step C s l) :
    AllSteps step ok s l ↔ ∀ past, past <+: l → I (run step s past) := by
  induction l generalizing s with
  | nil =>
    refine iff_of_true trivial fun past hpast => ?_
    rw [List.prefix_nil.1 hpast]
    exact hI
  | cons a l ih =>
    obtain ⟨hfine, hfines⟩ := hC
    rw [allSteps_cons]
    constructor
    · rintro ⟨hok, hrest⟩ past hpast
      have hfirst := (hstep s a hJ hI hfine).2 hok
      cases past with
      | nil => exact hI
      | cons a' past =>
        obtain ⟨rfl, hlater⟩ := List.cons_prefix_cons.1 hpast
        exact (ih (hkeep s a' hJ hI hfine) hfirst hfines).1 hrest past hlater
    · intro h
      have hfirst : I (step s a) := h [a] ⟨l, rfl⟩
      refine ⟨(hstep s a hJ hI hfine).1 hfirst,
        (ih (hkeep s a hJ hI hfine) hfirst hfines).2 fun past hpast => ?_⟩
      exact h (a :: past) ((List.prefix_cons_inj a).2 hpast)

/-- When the condition says exactly when a step keeps a property, beside one that every step from
there keeps, the runs all of whose steps meet it are those that never leave the property. -/
theorem allSteps_iff_forall_past_of_invariant {J I : σ → Prop} {s : σ} {l : List α}
    (hkeep : ∀ s a, J s → I s → J (step s a)) (hstep : ∀ s a, J s → I s → (I (step s a) ↔ ok s a))
    (hJ : J s) (hI : I s) :
    AllSteps step ok s l ↔ ∀ past, past <+: l → I (run step s past) :=
  allSteps_iff_forall_past_of_allSteps (C := fun _ _ => True) (fun s a hs hi _ => hkeep s a hs hi)
    (fun s a hs hi _ => hstep s a hs hi) hJ hI (allSteps_of_forall (fun _ _ => trivial) s l)

/-- When the condition says exactly when a step keeps the property, the runs all of whose
steps meet it are those that never leave the property. -/
theorem allSteps_iff_forall_past {I : σ → Prop} {s : σ} {l : List α}
    (hstep : ∀ s a, I s → (I (step s a) ↔ ok s a)) (h0 : I s) :
    AllSteps step ok s l ↔ ∀ past, past <+: l → I (run step s past) :=
  allSteps_iff_forall_past_of_invariant (J := fun _ => True) (fun _ _ _ _ => trivial)
    (fun s a _ => hstep s a) trivial h0

/-- The same with something a step shows: the condition says exactly when a step keeps the property
and shows it. -/
theorem allSteps_iff_forall_past_and {J I : σ → Prop} {P : σ → α → Prop} {s : σ} {l : List α}
    (hkeep : ∀ s a, J s → I s → J (step s a))
    (hstep : ∀ s a, J s → I s → (ok s a ↔ I (step s a) ∧ P s a)) (hJ : J s) (hI : I s) :
    AllSteps step ok s l ↔
      (∀ past, past <+: l → I (run step s past)) ∧ AllSteps step P s l := by
  have hkeeps : AllSteps step (fun s a => I (step s a)) s l ↔
      ∀ past, past <+: l → I (run step s past) :=
    allSteps_iff_forall_past_of_invariant hkeep (fun _ _ _ _ => Iff.rfl) hJ hI
  rw [← hkeeps]
  clear hkeeps
  induction l generalizing s with
  | nil => simp
  | cons a l ih =>
    rw [allSteps_cons, allSteps_cons, allSteps_cons, hstep s a hJ hI]
    constructor
    · rintro ⟨⟨hnext, hshown⟩, hrest⟩
      obtain ⟨hkept, hlater⟩ := (ih (hkeep s a hJ hI) hnext).1 hrest
      exact ⟨⟨hnext, hkept⟩, hshown, hlater⟩
    · rintro ⟨⟨hnext, hkept⟩, hshown, hlater⟩
      exact ⟨⟨hnext, hshown⟩, (ih (hkeep s a hJ hI) hnext).2 ⟨hkept, hlater⟩⟩

/-- A property every step keeps holds after every run. -/
theorem run_invariant {I : σ → Prop} {s : σ} {l : List α} (hstep : ∀ s a, I s → I (step s a))
    (h0 : I s) : I (run step s l) := by
  induction l generalizing s with
  | nil => exact h0
  | cons a l ih => exact ih (hstep s a h0)

/-- A property of the calls made so far and the state they lead to, kept by each
further call, holds of every run. -/
theorem run_history {I : List α → σ → Prop} {s : σ} {l : List α}
    (hstep : ∀ past s a, I past s → I (past ++ [a]) (step s a)) (h0 : I [] s) :
    I l (run step s l) := by
  suffices h : ∀ (past : List α) (s : σ), I past s → I (past ++ l) (run step s l) by
    simpa using h [] s h0
  induction l with
  | nil => intro past s h; simpa using h
  | cons a l ih =>
    intro past s h
    have := ih (past ++ [a]) (step s a) (hstep past s a h)
    rwa [List.append_assoc, List.singleton_append] at this

/-- Two runs side by side: what steps that look alike keep between two states, under a condition on
the first one's step, holds after runs that look alike. -/
theorem rel_run_of_allSteps {τ β γ : Type*} {step' : τ → β → τ} {look : α → γ} {look' : β → γ}
    {R : σ → τ → Prop}
    (hstep : ∀ s t a b, R s t → ok s a → look a = look' b → R (step s a) (step' t b))
    {s : σ} {t : τ} {l : List α} {l' : List β} (h0 : R s t) (hok : AllSteps step ok s l)
    (hlook : l.map look = l'.map look') : R (run step s l) (run step' t l') := by
  induction l generalizing s t l' with
  | nil =>
    obtain rfl := List.map_eq_nil_iff.1 hlook.symm
    exact h0
  | cons a l ih =>
    obtain ⟨b, l', rfl, hb, hl'⟩ := List.map_eq_cons_iff.1 hlook.symm
    rw [run_cons, run_cons]
    exact ih (hstep s t a b h0 hok.1 hb.symm) hok.2 hl'.symm

/-- Two levels of one system: when every step of the lower one is a step of the upper one on
what the upper one sees, or is invisible to it, so is every run. -/
theorem exists_run_of_step {τ β : Type*} {step' : τ → β → τ} {view : σ → τ}
    (hstep : ∀ s a, view (step s a) = view s ∨ ∃ b, view (step s a) = step' (view s) b)
    (s : σ) (l : List α) : ∃ l', view (run step s l) = run step' (view s) l' := by
  induction l using List.reverseRecOn with
  | nil => exact ⟨[], rfl⟩
  | append_singleton l a ih =>
    obtain ⟨l', hl'⟩ := ih
    rw [run_concat]
    rcases hstep (run step s l) a with hsame | ⟨b, hb⟩
    · exact ⟨l', hsame.trans hl'⟩
    · exact ⟨l' ++ [b], by rw [run_concat, hb, hl']⟩

/-- The fallible run of one more call goes through when both parts do. -/
theorem foldlM_concat_eq_ok {ε : Type*} {step : σ → α → Except ε σ} {s t : σ} {l : List α} {a : α} :
    (l ++ [a]).foldlM step s = .ok t ↔ ∃ u, l.foldlM step s = .ok u ∧ step u a = .ok t := by
  rw [List.foldlM_append]
  cases hpast : l.foldlM step s with
  | error e =>
    constructor
    · intro h; cases h
    · rintro ⟨u, hu, -⟩; cases hu
  | ok u =>
    constructor
    · intro h
      refine ⟨u, rfl, ?_⟩
      cases ha : step u a with
      | error e => simp only [bind, Except.bind, List.foldlM_cons, ha] at h; cases h
      | ok v =>
        simp only [bind, Except.bind, List.foldlM_cons, List.foldlM_nil, ha] at h
        exact h
    · rintro ⟨v, hv, hstep⟩
      cases hv
      simp only [bind, Except.bind, List.foldlM_cons, List.foldlM_nil, hstep, pure, Except.pure]

/-- The fallible run: what every step that goes through respects, a run that goes through
respects. -/
theorem rel_of_foldlM_eq_ok {ε : Type*} {step : σ → α → Except ε σ} {R : σ → σ → Prop}
    (hrefl : ∀ s, R s s) (htrans : ∀ s t u, R s t → R t u → R s u)
    (hstep : ∀ s a t, step s a = .ok t → R s t) {s t : σ} {l : List α}
    (h : l.foldlM step s = .ok t) : R s t := by
  induction l generalizing s with
  | nil => cases h; exact hrefl _
  | cons a l ih =>
    rw [List.foldlM_cons] at h
    cases ha : step s a with
    | error e => rw [ha] at h; cases h
    | ok u =>
      rw [ha] at h
      exact htrans _ _ _ (hstep s a u ha) (ih h)

/-- What an invariant gives of each step, a run of such steps has throughout. -/
theorem allSteps_of_invariant {P : σ → α → Prop} {I : σ → Prop} {s : σ} {l : List α}
    (hstep : ∀ s a, I s → ok s a → P s a ∧ I (step s a)) (h0 : I s)
    (hok : AllSteps step ok s l) : AllSteps step P s l := by
  induction l generalizing s with
  | nil => trivial
  | cons a l ih =>
    obtain ⟨hP, hI⟩ := hstep s a h0 hok.1
    exact ⟨hP, ih hI hok.2⟩

end Spectral.Lib
