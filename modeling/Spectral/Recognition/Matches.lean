import Spectral.Recognition.Audit
import Spectral.Recognition.History

/-!
# Recognition in terms of what is enrolled

The lookups of a store come to a list that is read off the enrolled memories: for each hash of the
stimulus, the memories that have it.  The two stores differ in how often they answer a memory that
has a hash twice.

* `CountingStore` — how often a store answers, and the document frequency it gives.
* `matchesUnder`, `candidatesOf` — the matches and the candidates, in terms of the memories.
* `recognize_eq_content` — recognition is the scoring of these.
* `weight_matchesUnder` — what a channel adds to the score of a memory.
-/

namespace Spectral

open Spectral.Lib

/-! ## Lookups -/

/-- The matches of some hashes, where `answered` of the entries under a hash are answered. -/
def matchesUnder (answered : List (String × String) → List (String × String))
    (docFrequency : List (String × String) → ℕ) (entries : UInt64 → List (String × String))
    (hashes : List (UInt64 × String)) : List FeatureMatch :=
  hashes.flatMap fun h => (answered (entries h.1)).map fun entry =>
    { hash := h.1, memoryId := entry.1, label := entry.2, docFrequency := docFrequency (entries h.1) }

/-- The memories that share a shingle with the stimulus, with their shingles. -/
def candidatesOf {α : Type} (fp : Fingerprinter α) (e : List (String × α)) (bands : List UInt64) :
    List (String × List UInt64) :=
  (e.filter fun p => ∃ b ∈ bands, b ∈ fp.shingles p.2).map fun p => (p.1, fp.shingles p.2)

/-- A store answers entries as they are, or without repeats; what it answers of a memory depends on
the labels of that memory alone. -/
class CountingStore (σ : Type) [RecognitionStore σ] [HoldingStore σ] where
  answered : List (String × String) → List (String × String)
  docFrequency : List (String × String) → ℕ
  perm_answered : ∀ {l : List (String × String)} {id id' : String},
    (l.filter fun e => e.1 = id).map Prod.snd = (l.filter fun e => e.1 = id').map Prod.snd →
    (((answered l).filter fun e => e.1 = id).map Prod.snd).Perm
      (((answered l).filter fun e => e.1 = id').map Prod.snd)
  lookupPairs_perm : ∀ {α : Type} {fp : Fingerprinter α} {on : Prop} {store : σ}
    {e : List (String × α)}, HoldingStore.HoldsAll fp on store e → ∀ hashes,
    (RecognitionStore.lookupPairs store hashes).Perm
      (matchesUnder answered docFrequency (entriesOf (fun a => (fp.prints a).pairHashes) e) hashes)
  lookupGrams_perm : ∀ {α : Type} {fp : Fingerprinter α} {on : Prop} {store : σ}
    {e : List (String × α)}, HoldingStore.HoldsAll fp on store e → ∀ hashes,
    (RecognitionStore.lookupGrams store hashes).Perm
      (matchesUnder answered docFrequency (entriesOf (fun a => (fp.prints a).gramHashes) e) hashes)

section

variable {α : Type} {hashesOf : α → List (UInt64 × String)} {e : List (String × α)}
  {hashes : List (UInt64 × String)}

theorem HasFeatures.lookup_eq_matchesUnder {index : FeatureMap} (hindex : HasFeatures hashesOf e index) :
    InMemoryRecognitionStore.lookup index hashes =
      matchesUnder (fun l => l) List.length (entriesOf hashesOf e) hashes := by
  rw [lookup_eq]
  simp only [hindex _, matchesUnder]

theorem RecognitionIndex.HasRows.lookup_perm_matchesUnder
    {t : Table FeatureRow (SameKey fun r => r)} (ht : HasRows hashesOf e t) :
    (RecognitionIndex.lookupTable t hashes).Perm (matchesUnder List.dedup
      (fun l => (l.map Prod.fst).dedup.length) (entriesOf hashesOf e) hashes) := by
  unfold RecognitionIndex.lookupTable matchesUnder
  refine List.Perm.flatMap_left _ fun f _ => ?_
  have hmatches := (ht.rows_perm f.1).map fun entry => (⟨f.1, entry.1, entry.2,
    ((entriesOf hashesOf e f.1).map Prod.fst).dedup.length⟩ : FeatureMatch)
  rw [List.map_map] at hmatches
  refine (List.Perm.of_eq (List.map_congr_left fun r hr => ?_)).trans hmatches
  have hhash : r.hash = f.1 := of_decide_eq_true (List.mem_filter.1 hr).2
  rw [hhash, ht.docFrequency_eq]
  rfl

end

instance : CountingStore InMemoryRecognitionStore where
  answered l := l
  docFrequency := List.length
  perm_answered h := List.Perm.of_eq h
  lookupPairs_perm h _ := List.Perm.of_eq h.pairs.lookup_eq_matchesUnder
  lookupGrams_perm h _ := List.Perm.of_eq h.grams.lookup_eq_matchesUnder

instance : CountingStore RecognitionIndex where
  answered := List.dedup
  docFrequency l := (l.map Prod.fst).dedup.length
  perm_answered {l id id'} h := by
    have hnodup : ∀ i : String, ((l.dedup.filter fun e => e.1 = i).map Prod.snd).Nodup := by
      intro i
      refine List.Nodup.map_on ?_ ((List.nodup_dedup l).filter _)
      rintro ⟨a, label⟩ ha ⟨b, label'⟩ hb heq
      simp only [List.mem_filter, decide_eq_true_eq] at ha hb heq
      rw [ha.2, hb.2, heq]
    have hmem : ∀ (i label : String), label ∈ (l.dedup.filter fun e => e.1 = i).map Prod.snd ↔
        label ∈ (l.filter fun e => e.1 = i).map Prod.snd := by
      intro i label
      simp only [List.mem_map, List.mem_filter, List.mem_dedup]
    refine (List.perm_ext_iff_of_nodup (hnodup id) (hnodup id')).2 fun label => ?_
    rw [hmem, hmem, h]
  lookupPairs_perm h _ := h.pairs.lookup_perm_matchesUnder
  lookupGrams_perm h _ := h.grams.lookup_perm_matchesUnder

/-! ## Recognition -/

section

variable {σ : Type} [RecognitionStore σ] [HoldingStore σ] {α : Type} {rc : Recognizer}
  {fp : Fingerprinter α} {e : List (String × α)}

/-- The matches of its shingles. -/
def minhashMatchesOf (rc : Recognizer) (fp : Fingerprinter α) (e : List (String × α))
    (stimulus : String) : List MinHashMatch :=
  (candidatesOf fp e (rc.shingleSet stimulus)).map fun c =>
    ⟨c.1, containment (rc.shingleSet stimulus) c.2⟩

theorem lookupMinhash_perm_candidatesOf {store : σ}
    (h : HoldingStore.HoldsAll fp (0 < rc.minhashWeight) store e) (hon : 0 < rc.minhashWeight)
    (bands : List UInt64) :
    (RecognitionStore.lookupMinhash store bands).Perm (candidatesOf fp e bands) := by
  have hnodup : (candidatesOf fp e bands).Nodup := by
    refine List.Nodup.of_map Prod.fst ?_
    rw [candidatesOf, List.map_map]
    exact (HoldingStore.nodup h).sublist (List.filter_sublist.map Prod.fst)
  refine (List.perm_ext_iff_of_nodup (HoldingStore.nodup_lookupMinhash _ _) hnodup).2 fun c => ?_
  rw [HoldingStore.mem_lookupMinhash h, candidatesOf, List.mem_map]
  constructor
  · rintro ⟨-, p, hp, hid, hshingles, hb⟩
    exact ⟨p, List.mem_filter.2 ⟨hp, decide_eq_true hb⟩, Prod.ext hid hshingles⟩
  · rintro ⟨p, hp, rfl⟩
    obtain ⟨hp, hb⟩ := List.mem_filter.1 hp
    exact ⟨hon, p, hp, rfl, rfl, of_decide_eq_true hb⟩

/-- The engine's matches of the shingles. -/
theorem minhash_perm (stimulus : String) {store : σ}
    (h : HoldingStore.HoldsAll fp (0 < rc.minhashWeight) store e) (hon : 0 < rc.minhashWeight)
    (o : RecognitionOrders) :
    ((o.candidates.run (RecognitionStore.lookupMinhash store (rc.shingleSet stimulus))).map fun c =>
      { memoryId := c.1, similarity := containment (rc.shingleSet stimulus) c.2 : MinHashMatch }).Perm
      (minhashMatchesOf rc fp e stimulus) :=
  ((o.candidates.perm _).trans (lookupMinhash_perm_candidatesOf h hon _)).map _

end

section

variable (σ : Type) [RecognitionStore σ] [HoldingStore σ] [CountingStore σ] {α : Type}
  (rc : Recognizer) (fp : Fingerprinter α) (e : List (String × α)) (stimulus : String)

/-- The matches of the pairs of a stimulus. -/
def pairMatchesOf : List FeatureMatch :=
  matchesUnder (CountingStore.answered σ) (CountingStore.docFrequency σ)
    (entriesOf (fun a => (fp.prints a).pairHashes) e) (rc.fingerprintStimulus stimulus).pairHashes

/-- The matches of its grams. -/
def gramMatchesOf : List FeatureMatch :=
  matchesUnder (CountingStore.answered σ) (CountingStore.docFrequency σ)
    (entriesOf (fun a => (fp.prints a).gramHashes) e) (rc.fingerprintStimulus stimulus).gramHashes

/-- The weighed matches. -/
def weighedOf : List Contribution :=
  contributions rc.numerics rc.score (pairMatchesOf σ rc fp e stimulus)
    (gramMatchesOf σ rc fp e stimulus) (minhashMatchesOf rc fp e stimulus) e.length
    rc.minhashWeight rc.minSimilarity

/-- How many fingerprints a stimulus has. -/
def Recognizer.featureCount : ℕ :=
  (rc.fingerprintStimulus stimulus).pairHashes.length +
    (rc.fingerprintStimulus stimulus).gramHashes.length

variable {σ rc fp e}

open RecognitionEngine

/-- What the engine weighs. -/
theorem weighed_perm {store : σ} (h : HoldingStore.HoldsAll fp (0 < rc.minhashWeight) store e)
    (o : RecognitionOrders) : (weighed rc o store stimulus).Perm (weighedOf σ rc fp e stimulus) := by
  unfold weighed weighedOf
  rw [HoldingStore.enrolledCount h]
  by_cases hon : 0 < rc.minhashWeight
  · rw [if_pos hon]
    exact contributions_perm _ _ _ _ _ ((o.matched.perm _).trans (CountingStore.lookupPairs_perm h _))
      ((o.matched.perm _).trans (CountingStore.lookupGrams_perm h _)) (minhash_perm stimulus h hon o)
  · unfold contributions
    rw [if_neg hon, if_neg hon]
    exact ((((o.matched.perm _).trans (CountingStore.lookupPairs_perm h _)).map _).append
      (((o.matched.perm _).trans (CountingStore.lookupGrams_perm h _)).map _)).append .rfl

/-- **Recognition is the scoring of what the memories have.** -/
theorem recognize_eq_content {store : σ}
    (h : HoldingStore.HoldsAll fp (0 < rc.minhashWeight) store e) (o : RecognitionOrders) :
    recognize rc o store stimulus =
      scoreCandidates rc.numerics (rc.fingerprintStimulus stimulus)
        (pairMatchesOf σ rc fp e stimulus) (gramMatchesOf σ rc fp e stimulus)
        (minhashMatchesOf rc fp e stimulus) e.length rc.score rc.minhashWeight rc.minSimilarity := by
  unfold recognize
  rw [scoreCandidatesIn_eq, HoldingStore.enrolledCount h]
  have hpairs := (o.matched.perm _).trans
    (CountingStore.lookupPairs_perm h (rc.fingerprintStimulus stimulus).pairHashes)
  have hgrams := (o.matched.perm _).trans
    (CountingStore.lookupGrams_perm h (rc.fingerprintStimulus stimulus).gramHashes)
  by_cases hon : 0 < rc.minhashWeight
  · rw [if_pos hon]
    exact scoreCandidates_perm _ _ _ _ _ _ hpairs hgrams (minhash_perm stimulus h hon o)
  · rw [if_neg hon, scoreCandidates_perm _ _ _ _ _ _ hpairs hgrams .rfl]
    -- the channel is off, so its matches are not looked at
    unfold scoreCandidates contributions bestSimilarity
    simp only [if_neg hon]
    rfl

/-- The traces that are shown are the strongest ones. -/
theorem traces_eq {store : σ} (h : HoldingStore.HoldsAll fp (0 < rc.minhashWeight) store e)
    (o : RecognitionOrders) : (recognize rc o store stimulus).traces =
      (rankedTraces (weighedOf σ rc fp e stimulus) (rc.featureCount stimulus)).take
        rc.score.maxTraces := by
  rw [recognize_eq_content stimulus h o]
  rfl

end

/-! ## What a channel adds -/

/-- The contribution of a match in one of the two hashed channels. -/
def featureContribution (channel : Channel) (weight : ℕ → ℚ) (m : FeatureMatch) : Contribution :=
  { channel, hash := m.hash, evidence := ⟨m.label, m.memoryId, weight m.docFrequency⟩ }

section

variable {answered : List (String × String) → List (String × String)}
  {docFrequency : List (String × String) → ℕ} {entries : UInt64 → List (String × String)}
  {hashes : List (UInt64 × String)} {channel : Channel} {weight : ℕ → ℚ} {id : String}

/-- How often a memory is answered under a hash. -/
def answersOf (answered : List (String × String) → List (String × String))
    (entries : UInt64 → List (String × String)) (id : String) (h : UInt64 × String) : ℕ :=
  (answered (entries h.1)).countP fun entry => entry.1 = id

theorem contributionsTo_append (cs cs' : List Contribution) :
    contributionsTo (cs ++ cs') id = contributionsTo cs id ++ contributionsTo cs' id :=
  List.filter_append ..

/-- The contributions to one memory, hash by hash. -/
theorem contributionsTo_matchesUnder : contributionsTo
    ((matchesUnder answered docFrequency entries hashes).map (featureContribution channel weight)) id =
      hashes.flatMap fun h => ((answered (entries h.1)).filter fun entry => entry.1 = id).map
        fun entry => { channel, hash := h.1,
                       evidence := ⟨entry.2, entry.1, weight (docFrequency (entries h.1))⟩ } := by
  unfold contributionsTo matchesUnder
  rw [List.map_flatMap, List.filter_flatMap]
  refine List.flatMap_congr fun h _ => ?_
  rw [List.map_map, List.filter_map]
  rfl

/-- **What a channel adds to a score.** -/
theorem weight_matchesUnder : ((contributionsTo ((matchesUnder answered docFrequency entries
      hashes).map (featureContribution channel weight)) id).map fun c => c.evidence.weight).sum =
    (hashes.map fun h => (answersOf answered entries id h : ℚ) *
      weight (docFrequency (entries h.1))).sum := by
  rw [contributionsTo_matchesUnder, List.map_flatMap, List.flatMap_def, List.sum_flatten, List.map_map]
  refine congrArg List.sum (List.map_congr_left fun h _ => ?_)
  simp only [Function.comp_apply, List.map_map, Function.comp_def]
  rw [List.map_const', List.sum_replicate, nsmul_eq_mul, answersOf, List.countP_eq_length_filter]

/-- The hits in a channel. -/
theorem hits_matchesUnder : (contributionsTo ((matchesUnder answered docFrequency entries
      hashes).map (featureContribution channel weight)) id).countP (fun c => c.channel = channel) =
    (hashes.map (answersOf answered entries id)).sum := by
  rw [contributionsTo_matchesUnder, List.countP_flatMap]
  refine congrArg List.sum (List.map_congr_left fun h _ => ?_)
  have hall : ((answered (entries h.1)).filter fun entry => entry.1 = id).countP
      (fun _ => decide (channel = channel)) =
        ((answered (entries h.1)).filter fun entry => entry.1 = id).length :=
    List.countP_eq_length.2 fun _ _ => decide_eq_true rfl
  rw [Function.comp_apply, List.countP_map, answersOf]
  exact hall.trans List.countP_eq_length_filter.symm

/-- The other channels have no hit there. -/
theorem hits_matchesUnder_of_ne {other : Channel} (hne : channel ≠ other) : (contributionsTo
    ((matchesUnder answered docFrequency entries hashes).map (featureContribution channel weight))
      id).countP (fun c => c.channel = other) = 0 := by
  rw [contributionsTo_matchesUnder, List.countP_eq_zero]
  intro c hc
  obtain ⟨h, -, hc⟩ := List.mem_flatMap.1 hc
  obtain ⟨entry, -, rfl⟩ := List.mem_map.1 hc
  simpa using hne

end

end Spectral
