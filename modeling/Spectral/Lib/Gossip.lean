import Spectral.Lib.Run
import Mathlib.Data.List.Forall2

/-!
# Networks that lose, delay and repeat messages

Nodes act on their own state, ship snapshots of it and receive the snapshots of others.  What was
shipped stays shipped: a delivery names one of the messages sent so far, so a message may come late,
in another order, more than once or never.

* `Party` — what a node can do; `Network` — the states of the nodes and the messages sent;
  `Party.step` — one event.
* `historian` — the party whose state is the list of the acts it has heard of, its own and those
  behind the messages it received.
* `simulates_run` — the rule for using them: two parties whose acts, snapshots and deliveries
  correspond are in corresponding states at every node after every run.
-/

namespace Spectral.Lib

/-- What happens in a network of nodes `ν` that act by `δ`, ship what `κ` asks for and receive
under circumstances `τ`. -/
inductive NetEvent (ν δ κ τ : Type*) where
  | act (i : ν) (d : δ)
  | ship (i : ν) (c : κ)
  | deliver (k : ℕ) (i : ν) (t : τ)

/-- The states of the nodes, and every message ever sent. -/
structure Network (ν σ μ : Type*) where
  node : ν → σ
  sent : List μ

/-- What a node can do. -/
structure Party (σ δ κ τ μ : Type*) where
  start : σ
  act : σ → δ → σ
  ship : σ → κ → μ
  receive : σ → τ → μ → σ

variable {ν σ σ' δ δ' κ τ μ μ' : Type*}

/-- The acts among the events. -/
def acts (es : List (NetEvent ν δ κ τ)) : List δ :=
  es.filterMap fun
    | .act _ d => some d
    | _ => none

theorem mem_acts {es : List (NetEvent ν δ κ τ)} {d : δ} : d ∈ acts es ↔ ∃ i, .act i d ∈ es := by
  rw [acts, List.mem_filterMap]
  constructor
  · rintro ⟨e, he, hd⟩
    cases e with
    | act i d' =>
      obtain rfl := Option.some.inj hd
      exact ⟨i, he⟩
    | ship i c => cases hd
    | deliver k i t => cases hd
  · rintro ⟨i, he⟩
    exact ⟨_, he, rfl⟩

namespace Party

variable [DecidableEq ν]

/-- The network before anything happened. -/
def initial (P : Party σ δ κ τ μ) : Network ν σ μ := ⟨fun _ => P.start, []⟩

/-- One event.  A delivery of a message that was never sent does nothing. -/
def step (P : Party σ δ κ τ μ) (N : Network ν σ μ) : NetEvent ν δ κ τ → Network ν σ μ
  | .act i d => { N with node := Function.update N.node i (P.act (N.node i) d) }
  | .ship i c => { N with sent := N.sent ++ [P.ship (N.node i) c] }
  | .deliver k i t =>
    match N.sent[k]? with
    | none => N
    | some m => { N with node := Function.update N.node i (P.receive (N.node i) t m) }

theorem step_deliver_none (P : Party σ δ κ τ μ) {N : Network ν σ μ} {k : ℕ} {i : ν} {t : τ}
    (hk : N.sent.length ≤ k) : P.step N (.deliver k i t) = N := by
  simp [step, List.getElem?_eq_none hk]

theorem step_deliver_some (P : Party σ δ κ τ μ) {N : Network ν σ μ} {k : ℕ} {i : ν} {t : τ}
    (hk : k < N.sent.length) : P.step N (.deliver k i t) =
      { N with node := Function.update N.node i (P.receive (N.node i) t N.sent[k]) } := by
  simp [step, List.getElem?_eq_getElem hk]

/-- The network after the events. -/
def after (P : Party σ δ κ τ μ) (es : List (NetEvent ν δ κ τ)) : Network ν σ μ :=
  run P.step P.initial es

/-- The party that keeps what it has heard of: `what` of its own acts, and of the histories it
receives all.  A snapshot is the part of the history that is asked for. -/
def historian (what : δ → δ') (asked : κ → δ' → Bool) : Party (List δ') δ κ τ (List δ') where
  start := []
  act h d := h ++ [what d]
  ship h c := h.filter (asked c)
  receive h _ m := h ++ m

/-! ## Two networks side by side -/

/-- Corresponding nodes are in related states, and corresponding messages are related. -/
structure Related (R : σ → σ' → Prop) (M : μ → μ' → Prop) (N : Network ν σ μ)
    (N' : Network ν σ' μ') : Prop where
  node : ∀ i, R (N.node i) (N'.node i)
  sent : List.Forall₂ M N.sent N'.sent

variable {P : Party σ δ κ τ μ} {Q : Party σ' δ κ τ μ'} {R : σ → σ' → Prop} {M : μ → μ' → Prop}

theorem forall₂_update {f : ν → σ} {g : ν → σ'} (h : ∀ i, R (f i) (g i)) {i : ν} {s : σ} {s' : σ'}
    (hs : R s s') (j : ν) : R (Function.update f i s j) (Function.update g i s' j) := by
  by_cases hj : j = i
  · subst hj
    simpa using hs
  · simpa [Function.update_of_ne hj] using h j

/-- What it takes for two parties to go along with each other, on acts that are `ok`. -/
structure Simulates (P : Party σ δ κ τ μ) (Q : Party σ' δ κ τ μ') (ok : δ → Prop)
    (R : σ → σ' → Prop) (M : μ → μ' → Prop) : Prop where
  start : R P.start Q.start
  act : ∀ s s' d, ok d → R s s' → R (P.act s d) (Q.act s' d)
  ship : ∀ s s' c, R s s' → M (P.ship s c) (Q.ship s' c)
  receive : ∀ s s' t m m', R s s' → M m m' → R (P.receive s t m) (Q.receive s' t m')

/-- **One event.** -/
theorem Simulates.step {ok : δ → Prop} (h : P.Simulates Q ok R M) {N : Network ν σ μ}
    {N' : Network ν σ' μ'} (hN : Related R M N N') (e : NetEvent ν δ κ τ)
    (hok : ∀ i d, e = .act i d → ok d) : Related R M (P.step N e) (Q.step N' e) := by
  cases e with
  | act i d => exact ⟨forall₂_update hN.node (h.act _ _ d (hok i d rfl) (hN.node i)), hN.sent⟩
  | ship i c =>
    exact ⟨hN.node, List.rel_append hN.sent (.cons (h.ship _ _ c (hN.node i)) .nil)⟩
  | deliver k i t =>
    have hlen := hN.sent.length_eq
    by_cases hk : k < N.sent.length
    · have hk' : k < N'.sent.length := hlen ▸ hk
      rw [step_deliver_some P hk, step_deliver_some Q hk']
      have hmessage : M N.sent[k] N'.sent[k] := hN.sent.get hk hk'
      exact ⟨forall₂_update hN.node (h.receive _ _ t _ _ (hN.node i) hmessage), hN.sent⟩
    · have hk' : ¬ k < N'.sent.length := hlen ▸ hk
      rw [step_deliver_none P (Nat.not_lt.1 hk), step_deliver_none Q (Nat.not_lt.1 hk')]
      exact hN

/-- **Every run.** -/
theorem simulates_run {ok : δ → Prop} (h : P.Simulates Q ok R M) {es : List (NetEvent ν δ κ τ)}
    (hok : ∀ d ∈ acts es, ok d) : Related R M (P.after es) (Q.after es) := by
  induction es using List.reverseRecOn with
  | nil => exact ⟨fun _ => h.start, .nil⟩
  | append_singleton es e ih =>
    have hpast : ∀ d ∈ acts es, ok d := fun d hd =>
      have ⟨i, hi⟩ := mem_acts.1 hd
      hok d (mem_acts.2 ⟨i, List.mem_append_left _ hi⟩)
    unfold after
    rw [run_concat, run_concat]
    refine h.step (ih hpast) e fun i d he => hok d (mem_acts.2 ⟨i, ?_⟩)
    exact List.mem_append_right _ (he ▸ List.mem_singleton_self _)

end Party

end Spectral.Lib
