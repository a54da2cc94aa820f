import Spectral.Lib.Transaction
import Spectral.Wing.Coherence

/-!
# Batched writes

`write_batch` writes a list of memories in one transaction, and pops the wings it touched once the
transaction is committed, each of them once.  `writeEach` is what a caller of `write` gets for the
same list.

* `writeEach_eq` — the writes one by one are the calls of `writeStep` one by one, beside a cache
  in which the wings of all of them are popped.
* `writeBatch_eq_writeEach` — a batch returns what the writes return, and leaves and pops what they
  do; if one of them fails, it returns its error, and nothing has happened.
-/

namespace Spectral

open Spectral.Lib

/-- An item of a batch, and the clock reading at which it is written. -/
structure WriteItem where
  memory : Memory
  fingerprints : List Fingerprint
  now : String

/-- An item written at a time. -/
def WriteItem.at (now : String) (item : Memory × List Fingerprint) : WriteItem :=
  ⟨item.1, item.2, now⟩

/-- What a write returns from its transaction: the outcome, and the wings to pop. -/
abbrev Wrote := WriteOutcome × List String

/-- The write of an item, in a transaction. -/
def Env.writeStep (env : Env) (s : Store) (item : WriteItem) : Except String (Store × Wrote) :=
  match env.writeMemoryInTx item.now s item.memory item.fingerprints with
  | .ok (s', outcome) => .ok (s', outcome, s.invalidatedWings item.memory outcome)
  | .error e => .error e

/-- The wings a write pops: none if it fails. -/
def poppedWings : Except String Wrote → List String
  | .ok (_, wings) => wings
  | .error _ => []

/-- The wings a batch pops: sorted, each of them once. -/
def batchWings (written : List Wrote) : List String :=
  ((written.flatMap Prod.snd).insertionSort (· ≤ ·)).dedup

/-- What a call leaves, what it returns, and the wings it pops. -/
structure WriteEffect (L : WingCache) (ρ : Type) where
  after : CachedStore L
  result : ρ
  popped : List String

namespace CachedStore

variable {L : WingCache} (env : Env)

/-- `MemoryStore::write`. -/
def write (c : CachedStore L) (item : WriteItem) : WriteEffect L (Except String WriteOutcome) :=
  let wrote := call env.writeStep c.store item
  ⟨c.popped wrote.1 (poppedWings wrote.2), wrote.2.map Prod.fst, poppedWings wrote.2⟩

/-- The memories written one by one, in order. -/
def writeEach : CachedStore L → List WriteItem → WriteEffect L (List (Except String WriteOutcome))
  | c, [] => ⟨c, [], []⟩
  | c, item :: items =>
    let first := c.write env item
    let rest := writeEach first.after items
    ⟨rest.after, first.result :: rest.result, first.popped ++ rest.popped⟩

/-- `MemoryStore::write_batch`. -/
def writeBatch (c : CachedStore L) (items : List WriteItem) :
    WriteEffect L (Except String (List WriteOutcome)) :=
  match callAll env.writeStep c.store items with
  | .ok (s, written) =>
    ⟨c.popped s (batchWings written), .ok (written.map Prod.fst), batchWings written⟩
  | .error e => ⟨c, .error e, []⟩

end CachedStore

/-! ## The operations of the store -/

theorem Env.writeStep_of_error (env : Env) {now e : String} {s : Store}
    {item : Memory × List Fingerprint} (h : env.writeMemoryInTx now s item.1 item.2 = .error e) :
    env.writeStep s (WriteItem.at now item) = .error e := by
  unfold writeStep WriteItem.at
  rw [h]

theorem Env.writeStep_of_ok (env : Env) {now : String} {s t : Store} {outcome : WriteOutcome}
    {item : Memory × List Fingerprint}
    (h : env.writeMemoryInTx now s item.1 item.2 = .ok (t, outcome)) :
    env.writeStep s (WriteItem.at now item) =
      .ok (t, outcome, s.invalidatedWings item.1 outcome) := by
  unfold writeStep WriteItem.at
  rw [h]

theorem Env.foldlM_writeItem (env : Env) (now : String) (s : Store) (outcomes : List WriteOutcome)
    (wings : List String) (items : List (Memory × List Fingerprint)) :
    items.foldlM (env.writeItem now) (s, outcomes, wings) =
      (callAll env.writeStep s (items.map (WriteItem.at now))).map fun p =>
        (p.1, outcomes ++ p.2.map Prod.fst, wings ++ p.2.flatMap Prod.snd) := by
  induction items generalizing s outcomes wings with
  | nil => simp [callAll, pure, Except.pure, Except.map]
  | cons item items ih =>
    rw [List.foldlM_cons, List.map_cons]
    unfold writeItem
    cases hwrite : env.writeMemoryInTx now s item.1 item.2 with
    | error e =>
      rw [callAll_cons_of_error (env.writeStep_of_error hwrite)]
      rfl
    | ok p =>
      obtain ⟨t, outcome⟩ := p
      rw [callAll_cons_of_ok (env.writeStep_of_ok hwrite)]
      refine (ih t _ _).trans ?_
      cases callAll env.writeStep t (items.map (WriteItem.at now)) with
      | error e => rfl
      | ok q => simp [Except.map]

/-- A batch in the terms of its items. -/
theorem Env.writeBatch_eq (env : Env) (now : String) (s : Store)
    (items : List (Memory × List Fingerprint)) :
    env.writeBatch now s items =
      (callAll env.writeStep s (items.map (WriteItem.at now))).map fun p =>
        (p.1, p.2.map Prod.fst, batchWings p.2) := by
  unfold writeBatch
  rw [foldlM_writeItem]
  cases callAll env.writeStep s (items.map (WriteItem.at now)) <;> rfl

namespace CachedStore

variable {L : WingCache} {env : Env}

theorem apply_write {pf : Platform} (c : CachedStore L) (now : String)
    (item : Memory × List Fingerprint) :
    c.apply env pf ⟨.write item.1 item.2, now⟩ = (c.write env (WriteItem.at now item)).after := by
  unfold write call Env.writeStep apply WriteItem.at
  dsimp only
  cases env.writeMemoryInTx now c.store item.1 item.2 <;> rfl

theorem apply_writeBatch {pf : Platform} (c : CachedStore L) (now : String)
    (items : List (Memory × List Fingerprint)) :
    c.apply env pf ⟨.writeBatch items, now⟩ =
      (c.writeBatch env (items.map (WriteItem.at now))).after := by
  unfold writeBatch apply
  dsimp only
  rw [Env.writeBatch_eq]
  cases callAll env.writeStep c.store (items.map (WriteItem.at now)) <;> rfl

/-! ## A batch and its writes -/

/-- **The writes one by one** leave the store that the calls in transactions leave, and pop the
wings of all of them. -/
theorem writeEach_eq (c : CachedStore L) (items : List WriteItem) :
    c.writeEach env items =
      ⟨c.popped (callEach env.writeStep c.store items).1
          ((callEach env.writeStep c.store items).2.flatMap poppedWings),
        (callEach env.writeStep c.store items).2.map (Except.map Prod.fst),
        (callEach env.writeStep c.store items).2.flatMap poppedWings⟩ := by
  induction items generalizing c with
  | nil => rfl
  | cons item items ih =>
    unfold writeEach
    dsimp only
    rw [ih, callEach_cons]
    dsimp only [write, popped]
    rw [List.flatMap_cons, Cache.popAll_append]
    rfl

theorem flatMap_poppedWings_ok (written : List Wrote) :
    (written.map Except.ok).flatMap poppedWings = written.flatMap Prod.snd := by
  rw [List.flatMap_map]
  rfl

theorem mem_batchWings {written : List Wrote} {wing : String} :
    wing ∈ batchWings written ↔ wing ∈ written.flatMap Prod.snd := by
  unfold batchWings
  rw [List.mem_dedup, List.mem_insertionSort]

theorem mapM_map_fst (results : List (Except String Wrote)) :
    (results.map (Except.map Prod.fst)).mapM id = (results.mapM id).map (List.map Prod.fst) := by
  induction results with
  | nil => rfl
  | cons result results ih =>
    rw [List.map_cons, List.mapM_cons, List.mapM_cons, ih]
    cases result with
    | error e => rfl
    | ok wrote => cases results.mapM id <;> rfl

/-- **Batched writes.**  A batch returns the outcomes of the writes one by one, or the error of
the first that fails.  When none fails, it leaves the store and the cache as they do, and pops the
same wings.  When one fails, the store and the cache are as before and no wing is popped. -/
theorem writeBatch_eq_writeEach (c : CachedStore wingCache) (items : List WriteItem) :
    (c.writeBatch env items).result = (c.writeEach env items).result.mapM id ∧
      (∀ outcomes, (c.writeBatch env items).result = .ok outcomes →
        (c.writeBatch env items).after = (c.writeEach env items).after ∧
          ∀ wing, wing ∈ (c.writeBatch env items).popped ↔
            wing ∈ (c.writeEach env items).popped) ∧
      ∀ e, (c.writeBatch env items).result = .error e →
        (c.writeBatch env items).after = c ∧ (c.writeBatch env items).popped = [] := by
  have hresults : (callAll env.writeStep c.store items).map Prod.snd =
      (callEach env.writeStep c.store items).2.mapM id := callAll_map_snd c.store items
  rw [writeEach_eq]
  dsimp only
  rw [mapM_map_fst, ← hresults]
  unfold writeBatch
  cases hall : callAll env.writeStep c.store items with
  | error e =>
    refine ⟨rfl, ?_, fun _ _ => ⟨rfl, rfl⟩⟩
    intro outcomes h
    cases h
  | ok p =>
    obtain ⟨s, written⟩ := p
    refine ⟨rfl, fun _ _ => ?_, ?_⟩
    · rw [callEach_of_callAll hall]
      dsimp only
      rw [flatMap_poppedWings_ok]
      refine ⟨?_, fun wing => mem_batchWings⟩
      unfold popped
      congr 1
      exact Cache.popAll_lru_congr (fun wing => mem_batchWings) c.cache
    · intro e h
      cases h

end CachedStore

end Spectral
