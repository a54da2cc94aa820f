import Spectral.Lib.Threads
import Spectral.Wing.Cache

/-!
# The wing cache under concurrent searches and writes

`wing_search` looks the wing up in the cache, fetches its rows under the connection lock, and
puts them in the cache when the lock is released.  A write commits, and then pops the wings it
touched, one by one, before it gives the connection back.

The state is the store, the cache, and the calls under way; a step is one of these actions of
one call.  `Tracked` says what holds between the steps: a cached entry, or the rows a search
holds, are the rows of the wing, or a write that has committed is still to pop the wing.

* `tracked_step` — every step keeps it, under the condition `Unheld` on the pops.
* `coherent_of_unheld` — so when all calls have returned the cache is coherent.
* `stale_entry_note` — a search that fetches before a write and puts after it leaves the rows
  of before the write in the cache.
-/

namespace Spectral

open Spectral.Lib

/-- How far a `wing_search` is. -/
inductive SearchPhase where
  | lookup
  | fetch
  | put (fetched : List MemoryHit)
  | returned (hits : List MemoryHit)
  deriving DecidableEq

/-- A call of `wing_search`. -/
structure SearchCall where
  wing : String
  queryTerms : List String
  maxResults : ℕ
  phase : SearchPhase := .lookup
  deriving DecidableEq

/-- How far a `write` is: before its commit, with wings left to pop, or returned. -/
inductive WritePhase where
  | commit
  | invalidate (wings : List String) (outcome : WriteOutcome)
  | returned (result : Except String WriteOutcome)
  deriving DecidableEq

/-- A call of `write`. -/
structure WriteCall where
  memory : Memory
  fingerprints : List Fingerprint := []
  phase : WritePhase := .commit
  deriving DecidableEq

/-- The wings a write has left to pop. -/
def WriteCall.pendingWings (w : WriteCall) : List String :=
  match w.phase with
  | .invalidate wings _ => wings
  | _ => []

/-- The rows a search has fetched and not yet put. -/
def SearchCall.fetched (c : SearchCall) : Option (List MemoryHit) :=
  match c.phase with
  | .put fetched => some fetched
  | _ => none

/-- Has the search returned? -/
def SearchCall.isReturned (c : SearchCall) : Bool :=
  match c.phase with
  | .returned _ => true
  | _ => false

/-- Has the write returned? -/
def WriteCall.isReturned (w : WriteCall) : Bool :=
  match w.phase with
  | .returned _ => true
  | _ => false

/-- A store shared by concurrent calls. -/
structure SharedStore (L : WingCache) where
  store : Store
  cache : L.State
  /-- Searches read through connections of their own (the reader pool). -/
  pooled : Bool := true
  searches : List SearchCall := []
  writes : List WriteCall := []

/-- One action of one call. -/
inductive RaceStep where
  | wingSearch (wing : String) (queryTerms : List String) (maxResults : ℕ)
  | lookup (search : ℕ)
  | fetch (search : ℕ)
  | put (search : ℕ)
  | write (memory : Memory) (fingerprints : List Fingerprint)
  | commit (write : ℕ) (now : String)
  | invalidate (write : ℕ)
  deriving DecidableEq

namespace SharedStore

section

variable {L : WingCache} (env : Env) (toLowercase : String → String) (b : SharedStore L)

/-- A write holds the connection from its commit until its last pop. -/
def connLocked : Bool := b.writes.any fun w =>
  match w.phase with
  | .invalidate _ _ => true
  | _ => false

/-- A search moves on. -/
def setSearch (search : ℕ) (phase : SearchPhase) : SharedStore L :=
  { b with searches := b.searches.modify search fun c => { c with phase } }

/-- A write moves on. -/
def setWrite (write : ℕ) (phase : WritePhase) : SharedStore L :=
  { b with writes := b.writes.modify write fun c => { c with phase } }

/-- The cache lookup of a search. -/
def lookup (search : ℕ) : SharedStore L :=
  match b.searches[search]? with
  | some { wing, queryTerms, maxResults, phase := .lookup } =>
    let touched := { b with cache := L.touch b.cache wing }
    match L.peek b.cache wing with
    | some cached =>
      touched.setSearch search (.returned (rankWing toLowercase queryTerms maxResults cached))
    | none => touched.setSearch search .fetch
  | _ => b

/-- The row fetch of a search. -/
def fetch (search : ℕ) : SharedStore L :=
  match b.searches[search]? with
  | some { wing, phase := .fetch, .. } =>
    if b.pooled ∨ b.connLocked = false then
      b.setSearch search (.put (b.store.wingRows wing))
    else b
  | _ => b

/-- The cache put of a search, and its return. -/
def put (search : ℕ) : SharedStore L :=
  match b.searches[search]? with
  | some { wing, queryTerms, maxResults, phase := .put fetched } =>
    { b with cache := L.put b.cache wing fetched }.setSearch search
      (.returned (rankWing toLowercase queryTerms maxResults fetched))
  | _ => b

/-- The transaction of a write. -/
def commit (write : ℕ) (now : String) : SharedStore L :=
  match b.writes[write]? with
  | some { memory, fingerprints, phase := .commit } =>
    if b.connLocked then b
    else
      match env.writeMemoryInTx now b.store memory fingerprints with
      | .ok (s, outcome) =>
        { b with store := s }.setWrite write
          (.invalidate (b.store.invalidatedWings memory outcome) outcome)
      | .error e => b.setWrite write (.returned (.error e))
  | _ => b

/-- A write pops its next wing, or returns. -/
def invalidate (write : ℕ) : SharedStore L :=
  match b.writes[write]? with
  | some { phase := .invalidate (wing :: wings) outcome, .. } =>
    { b with cache := L.pop b.cache wing }.setWrite write (.invalidate wings outcome)
  | some { phase := .invalidate [] outcome, .. } => b.setWrite write (.returned (.ok outcome))
  | _ => b

/-- One step.  A step that is not enabled changes nothing. -/
def step : RaceStep → SharedStore L
  | .wingSearch wing queryTerms maxResults =>
    { b with searches := b.searches ++ [{ wing, queryTerms, maxResults }] }
  | .lookup i => b.lookup toLowercase i
  | .fetch i => b.fetch i
  | .put i => b.put toLowercase i
  | .write memory fingerprints => { b with writes := b.writes ++ [{ memory, fingerprints }] }
  | .commit i now => b.commit env i now
  | .invalidate i => b.invalidate i

/-- All calls have returned. -/
def Idle : Prop :=
  (∀ c ∈ b.searches, c.isReturned = true) ∧ ∀ w ∈ b.writes, w.isReturned = true

instance : Decidable b.Idle :=
  inferInstanceAs (Decidable ((∀ c ∈ b.searches, _) ∧ ∀ w ∈ b.writes, _))

/-- A write that has committed is still to pop the wing. -/
def Pending (wing : String) : Prop := ∃ w ∈ b.writes, wing ∈ w.pendingWings

instance (wing : String) : Decidable (b.Pending wing) :=
  inferInstanceAs (Decidable (∃ w ∈ b.writes, wing ∈ w.pendingWings))

/-- **The condition on a pop.**  When a write pops a wing, every search that holds fetched
rows of the wing holds its present rows, unless the wing is to be popped once more, by the
same write or by another one. -/
def Unheld : RaceStep → Prop
  | .invalidate write => ∀ w ∈ b.writes[write]?, ∀ wing ∈ w.pendingWings.head?,
      ∀ c ∈ b.searches, c.wing = wing → ∀ fetched ∈ c.fetched,
        fetched = b.store.wingRows wing ∨ (b.invalidate write).Pending wing
  | _ => True

instance (a : RaceStep) : Decidable (b.Unheld a) := by
  cases a <;> unfold Unheld <;> infer_instance

/-- What is cached, and what a search holds, is up to date or about to be popped. -/
structure Tracked : Prop where
  cached : L.CoherentExcept b.cache b.store.wingRows b.Pending
  held : ∀ c ∈ b.searches, ∀ fetched ∈ c.fetched,
    fetched = b.store.wingRows c.wing ∨ b.Pending c.wing

end

variable {L : WingCache} {env : Env} {toLowercase : String → String} {b : SharedStore L}

/-! ## Pending pops -/

/-- What is pending when a write has moved on: the wings it has now, and those of the other
writes. -/
theorem pending_setWrite {i : ℕ} {w : WriteCall} {phase : WritePhase} {wing : String}
    (hi : b.writes[i]? = some w) :
    (b.setWrite i phase).Pending wing ↔
      wing ∈ ({ w with phase } : WriteCall).pendingWings ∨
        ∃ x ∈ b.writes.eraseIdx i, wing ∈ x.pendingWings := exists_mem_modify_iff hi

/-- What is pending, split at one write. -/
theorem pending_iff_at {i : ℕ} {w : WriteCall} {wing : String} (hi : b.writes[i]? = some w) :
    b.Pending wing ↔ wing ∈ w.pendingWings ∨
      ∃ x ∈ b.writes.eraseIdx i, wing ∈ x.pendingWings := exists_mem_iff_at hi

/-! ## One step -/

/-- A step that leaves the rows of the wings and what is pending, and a coherent cache. -/
theorem Tracked.setSearch {b : SharedStore L} (h : b.Tracked) (cache : L.State) {i : ℕ}
    {phase : SearchPhase} (hcache : L.CoherentExcept cache b.store.wingRows b.Pending)
    (hphase : ∀ c, b.searches[i]? = some c → ∀ fetched ∈ ({ c with phase } : SearchCall).fetched,
      fetched = b.store.wingRows c.wing ∨ b.Pending c.wing) :
    ({ b with cache }.setSearch i phase).Tracked where
  cached := hcache
  held := forall_mem_modify h.held hphase

/-- A write that moves on with the same wings left to pop. -/
theorem Tracked.setWrite_of_eq (h : b.Tracked) {i : ℕ} {w : WriteCall} {phase : WritePhase}
    (hi : b.writes[i]? = some w)
    (hsame : ({ w with phase } : WriteCall).pendingWings = w.pendingWings) :
    (b.setWrite i phase).Tracked := by
  have hpend : ∀ wing, b.Pending wing → (b.setWrite i phase).Pending wing := by
    intro wing hwing
    rwa [pending_setWrite hi, hsame, ← pending_iff_at hi]
  exact ⟨h.cached.mono hpend, fun c hc fetched hput =>
    (h.held c hc fetched hput).imp_right (hpend c.wing)⟩

theorem tracked_lookup (h : b.Tracked) (i : ℕ) : (b.lookup toLowercase i).Tracked := by
  unfold lookup
  split
  · dsimp only
    split
    · exact h.setSearch _ (h.cached.touch _) fun _ _ _ hput => by cases hput
    · exact h.setSearch _ (h.cached.touch _) fun _ _ _ hput => by cases hput
  · exact h

theorem tracked_fetch (h : b.Tracked) (i : ℕ) : (b.fetch i).Tracked := by
  unfold fetch
  split
  · rename_i hi
    split
    · refine h.setSearch b.cache h.cached fun c hc fetched hput => ?_
      rw [hi] at hc
      cases hc
      cases hput
      exact Or.inl rfl
    · exact h
  · exact h

theorem tracked_put (h : b.Tracked) (i : ℕ) : (b.put toLowercase i).Tracked := by
  unfold put
  split
  · rename_i hi
    have hheld := h.held _ (List.mem_of_getElem? hi) _ rfl
    exact h.setSearch _ (h.cached.put hheld) fun _ _ _ hput => by cases hput
  · exact h

/-- A commit makes pending every wing whose rows it changes. -/
theorem tracked_commit (h : b.Tracked) (i : ℕ) (now : String) : (b.commit env i now).Tracked := by
  unfold commit
  split
  · rename_i memory fingerprints hi
    split
    · exact h
    · split
      · rename_i s outcome hwrite
        let b' : SharedStore L := { b with store := s }
        have hpend : ∀ wing, (b'.setWrite i (.invalidate
            (b.store.invalidatedWings memory outcome) outcome)).Pending wing ↔
              wing ∈ b.store.invalidatedWings memory outcome ∨ b.Pending wing := by
          intro wing
          rw [pending_setWrite (b := b') hi, pending_iff_at hi]
          simp [WriteCall.pendingWings, b']
        have hrows : ∀ wing, ¬ wing ∈ b.store.invalidatedWings memory outcome →
            s.wingRows wing = b.store.wingRows wing :=
          fun wing => Env.wingRows_writeMemoryInTx hwrite
        refine ⟨h.cached.change (fun wing hw => hrows wing fun hin => hw ((hpend wing).2
          (Or.inl hin))) fun wing hw => (hpend wing).2 (Or.inr hw), fun c hc fetched hput => ?_⟩
        by_cases hin : c.wing ∈ b.store.invalidatedWings memory outcome
        · exact Or.inr ((hpend c.wing).2 (Or.inl hin))
        · rcases h.held c hc fetched hput with rfl | hold
          · exact Or.inl (hrows c.wing hin).symm
          · exact Or.inr ((hpend c.wing).2 (Or.inr hold))
      · exact h.setWrite_of_eq hi rfl
  · exact h

/-- A pop leaves the wing as it is for the searches, which is where the condition is needed. -/
theorem tracked_invalidate (h : b.Tracked) {i : ℕ} (hun : b.Unheld (.invalidate i)) :
    (b.invalidate i).Tracked := by
  unfold invalidate
  split
  · rename_i wing wings outcome hi
    let b' : SharedStore L := { b with cache := L.pop b.cache wing }
    have hnext : b.invalidate i = b'.setWrite i (.invalidate wings outcome) := by
      unfold invalidate
      rw [hi]
    have hold : ∀ k, b.Pending k →
        k = wing ∨ (b'.setWrite i (.invalidate wings outcome)).Pending k := by
      intro k hk
      rw [pending_setWrite (b := b') hi]
      rcases (pending_iff_at hi).1 hk with hk | hk
      · exact (List.mem_cons.1 hk).imp_right Or.inl
      · exact Or.inr (Or.inr hk)
    refine ⟨Cache.CoherentExcept.pop (h.cached.mono hold), fun c hc fetched hput => ?_⟩
    by_cases hwing : c.wing = wing
    · have hheld := hun _ hi wing rfl c hc hwing fetched hput
      rwa [hnext, ← hwing] at hheld
    · exact (h.held c hc fetched hput).imp_right fun hk => (hold c.wing hk).resolve_left hwing
  · rename_i hi
    exact h.setWrite_of_eq hi rfl
  · exact h

/-- **One step** keeps the cache and the searches up to date, or about to be popped. -/
theorem tracked_step (h : b.Tracked) {a : RaceStep} (hun : b.Unheld a) :
    (b.step env toLowercase a).Tracked := by
  cases a with
  | wingSearch wing queryTerms maxResults =>
    refine ⟨h.cached, fun c hc fetched hput => ?_⟩
    rcases List.mem_append.1 hc with hc | hc
    · exact h.held c hc fetched hput
    · rw [List.mem_singleton] at hc
      subst hc
      cases hput
  | lookup i => exact tracked_lookup h i
  | fetch i => exact tracked_fetch h i
  | put i => exact tracked_put h i
  | write memory fingerprints =>
    have hold : ∀ k, b.Pending k → (b.step env toLowercase (.write memory fingerprints)).Pending k := by
      rintro k ⟨w, hw, hk⟩
      exact ⟨w, List.mem_append_left _ hw, hk⟩
    exact ⟨h.cached.mono hold, fun c hc fetched hput =>
      (h.held c hc fetched hput).imp_right (hold c.wing)⟩
  | commit i now => exact tracked_commit h i now
  | invalidate i => exact tracked_invalidate h hun

/-! ## Every interleaving -/

/-- When all calls have returned nothing is pending. -/
theorem not_pending_of_idle (h : b.Idle) (wing : String) : ¬ b.Pending wing := by
  rintro ⟨w, hw, hwing⟩
  have hreturned := h.2 w hw
  unfold WriteCall.isReturned at hreturned
  unfold WriteCall.pendingWings at hwing
  split at hreturned
  · rename_i hphase
    simp [hphase] at hwing
  · cases hreturned

/-- **Every interleaving.**  From a coherent cache with no call under way, in every run of any
number of searches and writes whose pops all meet `Unheld`: once all calls have returned, the
cached entry of a wing, if there is one, is the rows the store has for the wing. -/
theorem coherent_of_unheld (b : SharedStore L) (hcoherent : L.Coherent b.cache b.store.wingRows)
    (hidle : b.Idle) (steps : List RaceStep)
    (hun : AllSteps (step env toLowercase) Unheld b steps)
    (hdone : (run (step env toLowercase) b steps).Idle) :
    L.Coherent (run (step env toLowercase) b steps).cache
      (run (step env toLowercase) b steps).store.wingRows := by
  have hstart : b.Tracked := by
    refine ⟨(Cache.coherentExcept_false.2 hcoherent).mono fun _ => False.elim,
      fun c hc fetched hput => ?_⟩
    have hreturned := hidle.1 c hc
    unfold SearchCall.isReturned at hreturned
    unfold SearchCall.fetched at hput
    split at hreturned
    · rename_i hphase
      simp [hphase] at hput
    · cases hreturned
  have htracked := run_invariant_of_allSteps (I := fun b : SharedStore L => b.Tracked)
    (fun _ _ h hun => tracked_step h hun) hstart hun
  exact Cache.coherentExcept_false.1
    (htracked.cached.mono fun wing hw => not_pending_of_idle hdone wing hw)

/-- A memory of a wing. -/
def workNote : Memory :=
  { id := "0aa1", key := "note", content := "ship on monday", wing := some "work" }

/-- A search that has put its rows before the write commits. -/
def fetchPutWrite : List RaceStep :=
  [.wingSearch "work" [] 10, .lookup 0, .fetch 0, .put 0,
    .write workNote [], .commit 0 "2026-01-01 09:00:00", .invalidate 0, .invalidate 0]

theorem coherent_of_unheld_note :
    let b₀ : SharedStore wingCache := { store := {}, cache := wingCache.empty }
    let b := run (step (Env.ofRecords [] []) String.toLower) b₀ fetchPutWrite
    wingCache.Coherent b₀.cache b₀.store.wingRows ∧ b₀.Idle ∧
      AllSteps (step (Env.ofRecords [] []) String.toLower) Unheld b₀ fetchPutWrite ∧ b.Idle ∧
      wingCache.Coherent b.cache b.store.wingRows :=
  ⟨Cache.coherent_empty _, by decide, by decide +kernel, by decide +kernel,
    coherent_of_unheld _ (Cache.coherent_empty _) (by decide) fetchPutWrite (by decide +kernel)
      (by decide +kernel)⟩

/-! ## A stale entry -/

/-- A search and a write of the wing, one within the other. -/
def fetchWritePut : List RaceStep :=
  [.wingSearch "work" [] 10, .lookup 0, .fetch 0,
    .write workNote [], .commit 0 "2026-01-01 09:00:00", .invalidate 0, .invalidate 0, .put 0]

/-- **The stale entry.**  The search fetches before the write commits and puts after it has
popped the wing: both have returned, and the wing is cached without the memory. -/
theorem stale_entry_note :
    let b : SharedStore wingCache :=
      run (step (Env.ofRecords [] []) String.toLower) { store := {}, cache := wingCache.empty }
        fetchWritePut
    b.Idle ∧ wingCache.peek b.cache "work" = some [] ∧
      b.store.wingRows "work" ≠ [] := by
  decide +kernel

end SharedStore

end Spectral
