import Mathlib.Data.Finset.Basic
import Mathlib.Data.Finset.Card
import Spectral.Recognition.Accumulate
import Spectral.Recognition.Index

/-!
# The two recognition stores and the engine over them

`RecognitionEngine` works over any `RecognitionStore`: the index in SQLite, which is
`RecognitionIndex`, and the one in memory, which keeps multi-maps from a hash to the memories
that have it.

* `InMemoryRecognitionStore` — the maps, and the operations on them.
* `RecognitionEngine.enroll`, `forget`, `recognize` — the engine, over either store.  Recognition
  is given the orders in which the database returns its rows and in which the maps of the scoring
  are run through.
-/

namespace Spectral

open Spectral.Lib

/-- `RecognitionStore`: what the engine asks of a store. -/
class RecognitionStore (σ : Type) where
  /-- A fresh store. -/
  fresh : σ
  isEnrolled : σ → String → Bool
  enrolledCount : σ → ℕ
  indexMemory : σ → String → StimulusPrints → σ
  indexMinhash : σ → String → List UInt64 → List UInt64 → σ
  forgetMemory : σ → String → σ × Bool
  lookupPairs : σ → List (UInt64 × String) → List FeatureMatch
  lookupGrams : σ → List (UInt64 × String) → List FeatureMatch
  lookupMinhash : σ → List UInt64 → List (String × List UInt64)

/-- The store in SQLite. -/
instance : RecognitionStore RecognitionIndex where
  fresh := {}
  isEnrolled ix id := ix.isEnrolled id
  enrolledCount ix := ix.enrolled.rows.length
  indexMemory ix id prints := ix.indexMemory id prints
  indexMinhash ix id signature bands := ix.indexMinhash id signature bands
  forgetMemory ix id := ix.forget id
  lookupPairs ix hashes := RecognitionIndex.lookupTable ix.pairs hashes
  lookupGrams ix hashes := RecognitionIndex.lookupTable ix.grams hashes
  lookupMinhash ix probeBands := ix.lookupMinhash probeBands

/-! ## The store in memory -/

/-- `HashMap<u64, Vec<(String, String)>>`: the memories that have a hash, with their labels. -/
abbrev FeatureMap := HashMap UInt64 (List (String × String))

/-- `InMemoryRecognitionStore`. -/
structure InMemoryRecognitionStore where
  enrolled : Finset String := ∅
  pending : Finset String := ∅
  pairs : FeatureMap := .empty
  grams : FeatureMap := .empty
  minhashSig : HashMap String (List UInt64) := .empty
  minhashBands : HashMap UInt64 (List String) := .empty

namespace InMemoryRecognitionStore

/-- The pushes of some fingerprints. -/
def pushFeatures (id : String) (hashes : List (UInt64 × String)) (index : FeatureMap) :
    FeatureMap :=
  hashes.foldl (fun index h => index.entry h.1 [] fun entries => entries ++ [(id, h.2)]) index

/-- What `forget_memory` does to a multi-map: the memory's entries go, and the keys left without
entries. -/
def dropFeatures (id : String) (index : FeatureMap) : FeatureMap :=
  (index.mapValues fun entries => entries.filter fun e => e.1 ≠ id).retain fun _ entries =>
    decide (entries ≠ [])

/-- `lookup`. -/
def lookup (index : FeatureMap) (hashes : List (UInt64 × String)) : List FeatureMatch :=
  hashes.flatMap fun h =>
    match index.get? h.1 with
    | none => []
    | some entries => entries.map fun e =>
        { hash := h.1, memoryId := e.1, label := e.2, docFrequency := entries.length }

variable (s : InMemoryRecognitionStore)

/-- `index_memory`. -/
def indexMemory (id : String) (prints : StimulusPrints) : InMemoryRecognitionStore :=
  { s with
    enrolled := insert id s.enrolled
    pairs := pushFeatures id prints.pairHashes s.pairs
    grams := pushFeatures id prints.gramHashes s.grams }

/-- A band's push of a memory, unless the memory is there. -/
def pushBand (id : String) (bands : HashMap UInt64 (List String)) (b : UInt64) :
    HashMap UInt64 (List String) :=
  bands.entry b [] fun ids => if id ∈ ids then ids else ids ++ [id]

/-- `index_minhash`. -/
def indexMinhash (id : String) (signature bands : List UInt64) : InMemoryRecognitionStore :=
  { s with
    minhashSig := s.minhashSig.insert id signature
    minhashBands := bands.foldl (pushBand id) s.minhashBands }

/-- `forget_memory`. -/
def forgetMemory (id : String) : InMemoryRecognitionStore × Bool :=
  ({ s with
    enrolled := s.enrolled.erase id
    pairs := dropFeatures id s.pairs
    grams := dropFeatures id s.grams
    minhashSig := s.minhashSig.remove id
    minhashBands := (s.minhashBands.mapValues fun ids => ids.filter fun i => i ≠ id).retain
      fun _ ids => decide (ids ≠ []) }, decide (id ∈ s.enrolled))

/-- One id of one band: `seen.insert(id)`, and the id with its signature when it was not seen. -/
def collectCandidate (acc : List String × List (String × List UInt64)) (id : String) :
    List String × List (String × List UInt64) :=
  if id ∈ acc.1 then acc
  else (id :: acc.1, match s.minhashSig.get? id with
    | none => acc.2
    | some sig => acc.2 ++ [(id, sig)])

/-- `lookup_minhash`. -/
def lookupMinhash (probeBands : List UInt64) : List (String × List UInt64) :=
  ((probeBands.flatMap fun b => (s.minhashBands.get? b).getD []).foldl s.collectCandidate
    ([], [])).2

end InMemoryRecognitionStore

instance : RecognitionStore InMemoryRecognitionStore where
  fresh := {}
  isEnrolled s id := decide (id ∈ s.enrolled)
  enrolledCount s := s.enrolled.card
  indexMemory s id prints := s.indexMemory id prints
  indexMinhash s id signature bands := s.indexMinhash id signature bands
  forgetMemory s id := s.forgetMemory id
  lookupPairs s hashes := InMemoryRecognitionStore.lookup s.pairs hashes
  lookupGrams s hashes := InMemoryRecognitionStore.lookup s.grams hashes
  lookupMinhash s probeBands := s.lookupMinhash probeBands

/-! ## The engine -/

/-- The orders in which recognition gets what it does not sort: the rows of the database, and the
entries of the maps of the scoring. -/
structure RecognitionOrders extends IterationOrders where
  matched : Shuffle FeatureMatch := .inOrder
  candidates : Shuffle (String × List UInt64) := .inOrder

namespace RecognitionEngine

variable {σ : Type} [RecognitionStore σ] (rc : Recognizer)

open RecognitionStore

/-- `enroll`. -/
def enroll (store : σ) (id content : String) : σ :=
  if isEnrolled store id then store
  else
    let indexed := indexMemory store id (rc.fingerprintStimulus content)
    if 0 < rc.minhashWeight then
      indexMinhash indexed id (rc.shingleSet content) (rc.shingleSet content)
    else indexed

/-- `forget`. -/
def forget (store : σ) (id : String) : σ × Bool := forgetMemory store id

/-- `recognize`. -/
def recognize (o : RecognitionOrders) (store : σ) (stimulus : String) : RecognitionResult :=
  let prints := rc.fingerprintStimulus stimulus
  let minhashMatches := if 0 < rc.minhashWeight then
      (o.candidates.run (lookupMinhash store (rc.shingleSet stimulus))).map fun c =>
        { memoryId := c.1, similarity := containment (rc.shingleSet stimulus) c.2 : MinHashMatch }
    else []
  scoreCandidatesIn o.toIterationOrders rc.numerics prints
    (o.matched.run (lookupPairs store prints.pairHashes))
    (o.matched.run (lookupGrams store prints.gramHashes)) minhashMatches (enrolledCount store)
    rc.score rc.minhashWeight rc.minSimilarity

/-- Over SQLite the engine enrols as the index does when nothing fails. -/
theorem enroll_index (ix : RecognitionIndex) (id content : String) :
    enroll rc ix id content = (ix.enroll rc none id content).1 := by
  show (if ix.isEnrolled id then ix else _) = _
  unfold RecognitionIndex.enroll
  by_cases hid : ix.isEnrolled id
  · simp [hid]
  · by_cases hweight : 0 < rc.minhashWeight <;> simp [hid, hweight] <;> rfl

/-- Over SQLite the engine recognizes as the index does. -/
theorem recognize_index (o : RecognitionOrders) (ix : RecognitionIndex) (stimulus : String) :
    recognize rc o ix stimulus = ix.recognize rc stimulus := by
  unfold recognize RecognitionIndex.recognize RecognitionIndex.minhashMatches
  rw [scoreCandidatesIn_eq]
  refine scoreCandidates_perm _ _ _ _ _ _ (o.matched.perm _) (o.matched.perm _) ?_
  split
  · exact (o.candidates.perm _).map _
  · exact .rfl

end RecognitionEngine

end Spectral
