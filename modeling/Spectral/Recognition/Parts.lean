import Spectral.Recognition.Extract
import Spectral.Recognition.Holdings

/-!
# Memories of several parts

A memory can be enrolled from several texts under one id: each is fingerprinted on its own, and
what they share is kept once.

* `Extractor.mergedPrints`, `RecognitionEngine.enrollParts` — the enrolment.
* `sourcesAfter` — what a history of enrolments and forgets leaves, under each id.
* `holds_storeAfterParts` — either store then holds what is derived from that.
* `stores_agree_iff` — when the two stores find the same.
-/

namespace Spectral

open Spectral.Lib

/-! ## The enrolment -/

/-- `sort_by_key` and `dedup_by_key`, by the hash. -/
def dedupByHash (hashes : List (UInt64 × String)) : List (UInt64 × String) :=
  (hashes.insertionSort fun a b => a.1 ≤ b.1).destutter fun a b => a.1 ≠ b.1

namespace Extractor

variable (x : Extractor)

/-- The parts that are not skipped. -/
def keptParts (parts : List String) : List String := parts.filter fun part => !x.tables.isBlank part

/-- `merged`: the fingerprints of the parts, each hash once. -/
def mergedPrints (parts : List String) : StimulusPrints :=
  let prints := (x.keptParts parts).map x.fingerprintStimulus
  { peaks := prints.flatMap StimulusPrints.peaks
    pairHashes := dedupByHash (prints.flatMap StimulusPrints.pairHashes)
    gramHashes := dedupByHash (prints.flatMap StimulusPrints.gramHashes) }

/-- `shingles`: the set of the shingles of the parts. -/
def mergedShingles (parts : List String) : List UInt64 :=
  ((x.keptParts parts).flatMap x.shingleSet).dedup

end Extractor

/-- `enroll_parts`, where the hash set of the shingles is run through in some order. -/
def RecognitionEngine.enrollParts {σ : Type} [RecognitionStore σ] (x : Extractor)
    (order : Shuffle UInt64) (store : σ) (id : String) (parts : List String) : σ :=
  if RecognitionStore.isEnrolled store id then store
  else if x.keptParts parts = [] then store
  else RecognitionStore.indexWhole (0 < x.config.minhashWeight) store id
    (x.mergedPrints parts) (order.run (x.mergedShingles parts))

/-! ## Histories -/

/-- A call on the engine. -/
inductive PartsCall where
  | enroll (id content : String)
  | enrollParts (id : String) (parts : List String)
  | forget (id : String)
  deriving DecidableEq

/-- What a memory was enrolled from: a text, or the parts of some call. -/
inductive Source where
  | text (content : String)
  | parts (texts : List String) (call : ℕ)
  deriving DecidableEq

/-- The texts of a memory. -/
def Source.texts : Source → List String
  | .text content => [content]
  | .parts texts _ => texts

namespace Extractor

variable (x : Extractor)

/-- The fingerprints of a memory. -/
def sourcePrints : Source → StimulusPrints
  | .text content => x.fingerprintStimulus content
  | .parts parts _ => x.mergedPrints parts

/-- The shingles of a memory, as they are stored: `order` is what the hash set of a call does. -/
def sourceShingles (order : ℕ → Shuffle UInt64) : Source → List UInt64
  | .text content => x.shingleSet content
  | .parts parts call => (order call).run (x.mergedShingles parts)

/-- What is derived of a memory. -/
def sourcePrinter (order : ℕ → Shuffle UInt64) : Fingerprinter Source where
  prints := x.sourcePrints
  shingles := x.sourceShingles order

/-- What a call leaves enrolled; the calls are numbered. -/
def sourcesStep (e : List (String × Source)) : PartsCall × ℕ → List (String × Source)
  | (.enroll id content, _) => if id ∈ e.map Prod.fst then e else e ++ [(id, .text content)]
  | (.enrollParts id parts, call) =>
    if id ∈ e.map Prod.fst then e
    else if x.keptParts parts = [] then e
    else e ++ [(id, .parts parts call)]
  | (.forget id, _) => e.filter fun p => p.1 ≠ id

/-- What a history leaves enrolled. -/
def sourcesAfter (calls : List PartsCall) : List (String × Source) :=
  calls.zipIdx.foldl x.sourcesStep []

end Extractor

section

variable {σ : Type} [RecognitionStore σ] (x : Extractor) (order : ℕ → Shuffle UInt64)

/-- A call on the engine over a store. -/
def PartsCall.perform (store : σ) : PartsCall × ℕ → σ
  | (.enroll id content, _) => RecognitionEngine.enroll x.recognizer store id content
  | (.enrollParts id parts, call) => RecognitionEngine.enrollParts x (order call) store id parts
  | (.forget id, _) => (RecognitionEngine.forget store id).1

variable (σ)

/-- The store after a history. -/
def storeAfterParts (calls : List PartsCall) : σ :=
  calls.zipIdx.foldl (PartsCall.perform x order) RecognitionStore.fresh

end

section

variable {σ : Type} [RecognitionStore σ] [HoldingStore σ] {x : Extractor}
  {order : ℕ → Shuffle UInt64} {store : σ} {e : List (String × Source)}

open HoldingStore

/-- What a call does to the store, `sourcesStep` does to what it holds. -/
theorem holds_perform (h : HoldsAll (x.sourcePrinter order) (0 < x.config.minhashWeight) store e)
    (call : PartsCall × ℕ) :
    HoldsAll (x.sourcePrinter order) (0 < x.config.minhashWeight)
      (PartsCall.perform x order store call) (x.sourcesStep e call) := by
  obtain ⟨call, n⟩ := call
  cases call with
  | enroll id content =>
    show HoldsAll _ _ (RecognitionEngine.enroll x.recognizer store id content)
      (if id ∈ e.map Prod.fst then e else e ++ [(id, .text content)])
    rw [RecognitionEngine.enroll]
    by_cases hid : id ∈ e.map Prod.fst
    · rw [if_pos ((isEnrolled h id).2 hid), if_pos hid]
      exact h
    · rw [if_neg fun hold => hid ((isEnrolled h id).1 hold), if_neg hid]
      exact index h hid (Source.text content)
  | enrollParts id parts =>
    show HoldsAll _ _ (RecognitionEngine.enrollParts x (order n) store id parts)
      (if id ∈ e.map Prod.fst then e
        else if x.keptParts parts = [] then e else e ++ [(id, .parts parts n)])
    rw [RecognitionEngine.enrollParts]
    by_cases hid : id ∈ e.map Prod.fst
    · rw [if_pos ((isEnrolled h id).2 hid), if_pos hid]
      exact h
    · rw [if_neg fun hold => hid ((isEnrolled h id).1 hold), if_neg hid]
      by_cases hkept : x.keptParts parts = []
      · rw [if_pos hkept, if_pos hkept]
        exact h
      · rw [if_neg hkept, if_neg hkept]
        exact index h hid (Source.parts parts n)
  | forget id => exact forget h id

variable (σ x order)

/-- **What a history leaves, the store holds.** -/
theorem holds_storeAfterParts (calls : List PartsCall) :
    HoldsAll (x.sourcePrinter order) (0 < x.config.minhashWeight) (storeAfterParts σ x order calls)
      (x.sourcesAfter calls) := by
  induction calls using List.reverseRecOn with
  | nil => exact fresh
  | append_singleton calls call ih =>
    rw [storeAfterParts, Extractor.sourcesAfter, List.zipIdx_append, List.foldl_append,
      List.foldl_append]
    exact holds_perform ih _

end

/-! ## Where the two stores agree -/

theorem nodup_dedupByHash (hashes : List (UInt64 × String)) :
    ((dedupByHash hashes).map Prod.fst).Nodup := by
  have hsorted := (List.pairwise_insertionSort (fun a b : UInt64 × String => a.1 ≤ b.1) hashes)
  rw [List.Nodup, List.pairwise_map]
  exact (pairwise_destutter (r := fun a b : UInt64 => a ≤ b) Prod.fst hsorted).imp And.right

theorem mem_of_mem_dedupByHash {hashes : List (UInt64 × String)} {f : UInt64 × String}
    (h : f ∈ dedupByHash hashes) : f ∈ hashes :=
  (List.mem_insertionSort _).1 ((List.destutter_sublist _ _).subset h)

/-- No hash is lost with the repeats. -/
theorem mem_map_dedupByHash {hashes : List (UInt64 × String)} {h : UInt64} :
    h ∈ (dedupByHash hashes).map Prod.fst ↔ h ∈ hashes.map Prod.fst := by
  simp only [List.mem_map]
  constructor
  · rintro ⟨f, hf, rfl⟩
    exact ⟨f, mem_of_mem_dedupByHash hf, rfl⟩
  · rintro ⟨f, hf, rfl⟩
    exact exists_key_destutter Prod.fst ((List.mem_insertionSort _).2 hf)

theorem nodup_map_fst_iff {hashes : List (UInt64 × String)} :
    (hashes.map Prod.fst).Nodup ↔ ∀ h, (hashes.filter fun f => f.1 = h).length ≤ 1 := by
  rw [List.nodup_iff_count_le_one]
  refine forall_congr' fun h => ?_
  rw [List.count, List.countP_map, List.countP_eq_length_filter]
  simp only [Function.comp_def, beq_eq_decide]

/-- No hash is repeated, neither that of a pair nor that of a gram. -/
structure StimulusPrints.HashesOnce (prints : StimulusPrints) : Prop where
  pairs : (prints.pairHashes.map Prod.fst).Nodup
  grams : (prints.gramHashes.map Prod.fst).Nodup

/-- The stores find the same for the hashes of every stimulus exactly when no memory has a hash
twice: the hashes of a memory are also those of a stimulus. -/
theorem forall_nodup_iff {x : Extractor} {e : List (String × Source)} (he : (e.map Prod.fst).Nodup)
    (hashesOf : StimulusPrints → List (UInt64 × String))
    (hmerged : ∀ texts, ((hashesOf (x.mergedPrints texts)).map Prod.fst).Nodup) :
    (∀ stimulus, ∀ h ∈ (hashesOf (x.fingerprintStimulus stimulus)).map Prod.fst,
      ((entriesOf (fun src => hashesOf (x.sourcePrints src)) e h).map Prod.fst).Nodup) ↔
    ∀ p ∈ e, ∀ content, p.2 = .text content →
      ((hashesOf (x.fingerprintStimulus content)).map Prod.fst).Nodup := by
  simp only [nodup_ids_entriesOf he]
  constructor
  · intro honce p hp content htext
    refine nodup_map_fst_iff.2 fun h => ?_
    have hsource : hashesOf (x.sourcePrints p.2) = hashesOf (x.fingerprintStimulus content) := by
      rw [htext, Extractor.sourcePrints]
    by_cases hh : h ∈ (hashesOf (x.fingerprintStimulus content)).map Prod.fst
    · exact hsource ▸ honce content h hh p hp
    · have hnone : ((hashesOf (x.fingerprintStimulus content)).filter fun f => f.1 = h) = [] :=
        List.filter_eq_nil_iff.2 fun f hf heq => hh (List.mem_map.2 ⟨f, hf, of_decide_eq_true heq⟩)
      rw [hnone]
      exact Nat.zero_le 1
  · intro honce stimulus h _ p hp
    refine nodup_map_fst_iff.1 ?_ h
    cases hsource : p.2 with
    | text content => exact honce p hp content hsource
    | parts texts call => exact hmerged texts

/-- A question of ten words, said twice. -/
def saidTwice : String :=
  "who can be in here and what do you want who can be in here and what do you want"

/-- The default configuration, with the hashes of the runs of `saidTwice`. -/
def saidTwiceExtractor : Extractor where
  tables := .ascii
  numerics :=
    { ln := fun q => if q = 2 then 6931471805599453 / 10000000000000000 else 0
      twoDecimals := fun q => if q = 1 / 2 then "0.50" else "1.00" }
  hash64 s :=
    (List.lookup s [("rg1|who can be in here", 0xfe99fc8c04248f75),
      ("rg1|can be in here and", 0x12bfa350ab3eafe4),
      ("rg1|be in here and what", 0x887cdbe598a3f584),
      ("rg1|in here and what do", 0xcca48a27bc38a2b5),
      ("rg1|here and what do you", 0x6fb255352eb1db72),
      ("rg1|and what do you want", 0xb744e247637affbe),
      ("rg1|what do you want who", 0x823737c9c5000fa4),
      ("rg1|do you want who can", 0x5056f112abaa1a97),
      ("rg1|you want who can be", 0x1f468f4e0cae38c0),
      ("rg1|want who can be in", 0x464407d9690a04eb)]).getD 0
  hashSeeded s :=
    (List.lookup s [("who can", 0xd2e0a4201f6afc07), ("can be", 0x3efc3f69f5d07ef6),
      ("be in", 0x6c477a3a0a67f829), ("in here", 0xedac6ed315a2d278),
      ("here and", 0x66a67bfcc8f710be), ("and what", 0xd1f0733f602f6c37),
      ("what do", 0xea21843404facf9e), ("do you", 0xd0cdc0c329b105b5),
      ("you want", 0xd7ebe084c571488f), ("want who", 0xea005172902f83c6)]).getD 0

end Spectral
