import Spectral.Lib.Encoding
import Spectral.Recognition.Audit

/-!
# The stored shingle sets

The shingle set of a memory is stored as bytes and read back by a lookup.  What a recognition then
computes is the fraction of the shingles of the stimulus that the memory has, if the set was stored
in order.

* `signatureFromBytes_signatureToBytes` — the bytes are read back.
* `assignedSimilarity` — the similarity that a recognition gives a memory, and zero where the memory
  is no candidate.
* `similarity_eq_fraction_iff` — when it is the fraction in common.
-/

namespace Spectral

open Spectral.Lib

/-! ## Bytes -/

/-- `signature_to_bytes`. -/
def signatureToBytes (sig : List UInt64) : List UInt8 := sig.flatMap fun v => leBytes 8 v.toNat

/-- `signature_from_bytes`. -/
def signatureFromBytes (bytes : List UInt8) : List UInt64 :=
  if bytes.length % 8 = 0 then
    (chunks 8 (bytes.length / 8) bytes).map fun c => UInt64.ofNat (ofLeBytes c)
  else []

example : signatureToBytes [1, 258] = [1, 0, 0, 0, 0, 0, 0, 0, 2, 1, 0, 0, 0, 0, 0, 0] := by decide

/-- **The stored bytes are read back.** -/
theorem signatureFromBytes_signatureToBytes (sig : List UInt64) :
    signatureFromBytes (signatureToBytes sig) = sig := by
  have hwidth : ∀ v : UInt64, (leBytes 8 v.toNat).length = 8 := fun v => length_leBytes 8 _
  have hlength : (signatureToBytes sig).length = 8 * sig.length := length_flatMap_of_length hwidth sig
  have hread : ∀ v : UInt64, UInt64.ofNat (ofLeBytes (leBytes 8 v.toNat)) = v := by
    intro v
    rw [ofLeBytes_leBytes v.toNat_lt, UInt64.ofNat_toNat]
  have hcount : (signatureToBytes sig).length / 8 = sig.length := by omega
  rw [signatureFromBytes, if_pos (by omega), hcount, signatureToBytes, chunks_flatMap hwidth,
    List.map_map]
  exact (List.map_congr_left fun v _ => hread v).trans (List.map_id sig)

/-! ## Similarity -/

section

variable {σ : Type} [RecognitionStore σ]

/-- The similarity that a recognition assigns to a memory: the containment of the shingles of the
stimulus in those that are read for it. -/
def assignedSimilarity (x : Extractor) (o : RecognitionOrders) (store : σ) (stimulus id : String) : ℚ :=
  (((o.candidates.run (RecognitionStore.lookupMinhash store (x.shingleSet stimulus))).find? fun c =>
    c.1 = id).map fun c => containment (x.shingleSet stimulus)
      (signatureFromBytes (signatureToBytes c.2))).getD 0

variable [HoldingStore σ]

/-- It is the containment in the shingles of the memory. -/
theorem assignedSimilarity_eq {x : Extractor} {order : ℕ → Shuffle UInt64} {calls : List PartsCall}
    (o : RecognitionOrders) {p : String × Source} (hp : p ∈ x.sourcesAfter calls)
    (hon : 0 < x.config.minhashWeight) (stimulus : String) :
    assignedSimilarity x o (storeAfterParts σ x order calls) stimulus p.1 =
      containment (x.shingleSet stimulus) (x.sourceShingles order p.2) := by
  have hholds := holds_storeAfterParts σ x order calls
  have hcandidate : ∀ c, c ∈ o.candidates.run (RecognitionStore.lookupMinhash
      (storeAfterParts σ x order calls) (x.shingleSet stimulus)) ↔
      ∃ q ∈ x.sourcesAfter calls, q.1 = c.1 ∧ x.sourceShingles order q.2 = c.2 ∧
        ∃ b ∈ x.shingleSet stimulus, b ∈ x.sourceShingles order q.2 := by
    intro c
    rw [(o.candidates.perm _).mem_iff, HoldingStore.mem_lookupMinhash hholds]
    exact and_iff_right hon
  unfold assignedSimilarity
  simp only [signatureFromBytes_signatureToBytes]
  cases hfound : (o.candidates.run (RecognitionStore.lookupMinhash (storeAfterParts σ x order calls)
      (x.shingleSet stimulus))).find? fun c => c.1 = p.1 with
  | some c =>
    have hid : c.1 = p.1 := by simpa using List.find?_some hfound
    obtain ⟨q, hq, hqc, hshingles, -⟩ := (hcandidate c).1 (List.mem_of_find?_eq_some hfound)
    have hsame : q = p :=
      List.inj_on_of_nodup_map (HoldingStore.nodup hholds) hq hp (hqc.trans hid)
    rw [← hsame, hshingles]
    rfl
  | none =>
    -- a memory that is no candidate has nothing in common with the stimulus
    have hnone : ∀ b ∈ x.sourceShingles order p.2, b ∉ x.shingleSet stimulus := by
      intro b hb hprobe
      have hmem := (hcandidate (p.1, x.sourceShingles order p.2)).2 ⟨p, hp, rfl, rfl, b, hprobe, hb⟩
      exact List.find?_eq_none.1 hfound _ hmem (decide_eq_true rfl)
    have hzero : mergeCount (x.shingleSet stimulus) (x.sourceShingles order p.2) = 0 := by
      have hle : mergeCount (x.shingleSet stimulus) (x.sourceShingles order p.2) ≤
          (x.sourceShingles order p.2).countP (· ∈ x.shingleSet stimulus) :=
        mergeCount_le (x.sorted_shingleSet stimulus)
      have hcount : (x.sourceShingles order p.2).countP (· ∈ x.shingleSet stimulus) = 0 :=
        List.countP_eq_zero.2 fun b hb => by simpa using hnone b hb
      omega
    rw [containment, hzero]
    simp

end

/-- **The similarity is the fraction in common** exactly when the shingles of the memory are stored in
a suitable order: none that the stimulus has comes after a greater one.  A memory that was enrolled
from one text is stored so. -/
theorem similarity_eq_fraction_iff (σ : Type) [RecognitionStore σ] [HoldingStore σ] (x : Extractor)
    (order : ℕ → Shuffle UInt64) (calls : List PartsCall) (o : RecognitionOrders)
    {p : String × Source} (hp : p ∈ x.sourcesAfter calls) (hon : 0 < x.config.minhashWeight)
    (stimulus : String) :
    (assignedSimilarity x o (storeAfterParts σ x order calls) stimulus p.1 =
        x.commonFraction stimulus p.2 ↔
      InOrder (x.shingleSet stimulus) (x.sourceShingles order p.2)) ∧
    ∀ content, p.2 = .text content →
      InOrder (x.shingleSet stimulus) (x.sourceShingles order p.2) := by
  rw [assignedSimilarity_eq o hp hon]
  refine ⟨Extractor.containment_eq_iff, fun content hcontent => ?_⟩
  rw [hcontent]
  exact Extractor.inOrder_text content

/-- Of three words that were enrolled as parts, in order. -/
theorem similarity_eq_fraction_iff_three_words :
    assignedSimilarity saidTwiceExtractor {} (storeAfterParts RecognitionIndex saidTwiceExtractor
      (fun _ => .inOrder) [.enrollParts "m1" ["who can be"]]) "who can be" "m1" = 1 := by
  have hp : ("m1", Source.parts ["who can be"] 0) ∈
      saidTwiceExtractor.sourcesAfter [.enrollParts "m1" ["who can be"]] := by decide +kernel
  have horder : InOrder (saidTwiceExtractor.shingleSet "who can be")
      (saidTwiceExtractor.sourceShingles (fun _ => .inOrder) (.parts ["who can be"] 0)) := by
    decide +kernel
  have hfraction : saidTwiceExtractor.commonFraction "who can be" (.parts ["who can be"] 0) = 1 := by
    decide +kernel
  exact ((similarity_eq_fraction_iff RecognitionIndex saidTwiceExtractor (fun _ => .inOrder)
    [.enrollParts "m1" ["who can be"]] {} hp (by decide +kernel) "who can be").1.2 horder).trans
      hfraction

/-- **The parts "who can" and "can be" contain the stimulus, and half of it is found**: the hash set
gave the greater shingle first. -/
theorem half_found_of_two_parts :
    ("m1", Source.parts ["who can", "can be"] 0) ∈
      saidTwiceExtractor.sourcesAfter [.enrollParts "m1" ["who can", "can be"]] ∧
    saidTwiceExtractor.commonFraction "who can be" (.parts ["who can", "can be"] 0) = 1 ∧
    assignedSimilarity saidTwiceExtractor {} (storeAfterParts RecognitionIndex saidTwiceExtractor
      (fun _ => .inOrder) [.enrollParts "m1" ["who can", "can be"]]) "who can be" "m1" = 1 / 2 := by
  decide +kernel

end Spectral
