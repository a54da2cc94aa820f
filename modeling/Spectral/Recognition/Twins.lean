import Spectral.Recognition.Reencounter

/-!
# Memories of the same text

Two memories enrolled with the same text are matched alike by every stimulus, so neither can be told
from the other.  The verdict compares the strongest trace with the next one: that is the twin unless
a third memory has the same score and an id between the two.

* `Alike` — two memories have the same contributions, but for their ids.
* `alike_of_same` — memories of the same text are alike, over either store.
* `UncheckedTwin` — a third memory stands between the twins, and the first one passes every test
  against it.
* `twins_unidentified_iff` — a twin is recognized exactly then.
-/

namespace Spectral

open Spectral.Lib

/-! ## Alike -/

/-- A contribution without its memory. -/
def Contribution.mark (c : Contribution) : Channel × UInt64 × String × ℚ :=
  (c.channel, c.hash, c.evidence.feature, c.evidence.weight)

/-- Two memories have the same contributions. -/
def Alike (cs : List Contribution) (id id' : String) : Prop :=
  ((contributionsTo cs id).map Contribution.mark).Perm ((contributionsTo cs id').map Contribution.mark)

section

variable {cs cs' : List Contribution} {id id' : String}

theorem Alike.append (h : Alike cs id id') (h' : Alike cs' id id') : Alike (cs ++ cs') id id' := by
  unfold Alike
  rw [contributionsTo_append, contributionsTo_append, List.map_append, List.map_append]
  exact List.Perm.append h h'

/-- They have the same score, hits and coverage. -/
theorem Alike.traceOf_eq (h : Alike cs id id') (n : ℕ) :
    traceOf cs n id' = { traceOf cs n id with memoryId := id' } := by
  have hscore := (h.map fun m => m.2.2.2).sum_eq
  have hhits : ∀ channel, channelHits cs channel id = channelHits cs channel id' := by
    intro channel
    have hcount := h.countP_eq fun m => decide (m.1 = channel)
    rw [List.countP_map, List.countP_map] at hcount
    exact hcount
  rw [List.map_map, List.map_map] at hscore
  unfold traceOf
  rw [TraceMatch.mk.injEq]
  refine ⟨rfl, hscore.symm, (hhits .pair).symm, (hhits .gram).symm, ?_⟩
  rw [hhits .pair, hhits .gram]

/-- They have the same features, so nothing is exclusive to either. -/
theorem Alike.exclusiveEvidence_eq (h : Alike cs id id') : exclusiveEvidence cs id id' = 0 := by
  have hfeatures : ∀ i, (hashedFeatures (contributionsTo cs i)) =
      ((((contributionsTo cs i).map Contribution.mark).filter fun m => m.1 ≠ .minhash).map
        fun m => (m.2.1, m.1)).dedup := by
    intro i
    rw [hashedFeatures, List.filter_map, List.map_map]
    rfl
  have hmem : ∀ f, f ∈ hashedFeatures (contributionsTo cs id) →
      f ∈ hashedFeatures (contributionsTo cs id') := by
    intro f hf
    rw [hfeatures, List.mem_dedup] at hf ⊢
    exact (((h.filter _).map _).mem_iff).1 hf
  have hnone : ((hashedFeatures (contributionsTo cs id)).filter fun f =>
      f ∉ hashedFeatures (contributionsTo cs id')) = [] := by
    refine List.filter_eq_nil_iff.2 fun f hf => ?_
    simpa using hmem f hf
  rw [exclusiveEvidence, hnone]
  rfl

end

/-! ## The same text -/

section

variable {α : Type} {e : List (String × α)} {id id' : String} {a : α}

/-- What a memory has under a hash. -/
theorem filter_entriesOf (hashesOf : α → List (UInt64 × String)) (he : (e.map Prod.fst).Nodup)
    (ha : (id, a) ∈ e) (h : UInt64) :
    ((entriesOf hashesOf e h).filter fun entry => entry.1 = id).map Prod.snd =
      ((hashesOf a).filter fun f => f.1 = h).map Prod.snd := by
  have hfilter : ((entriesOf hashesOf e h).filter fun entry => entry.1 = id) =
      entriesOf hashesOf (e.filter fun p => p.1 = id) h := by
    clear he ha
    unfold entriesOf
    induction e with
    | nil => rfl
    | cons p e ih =>
      rw [List.flatMap_cons, List.filter_append, ih]
      by_cases hp : p.1 = id <;> simp [hp]
  rw [hfilter, filter_id_eq he ha, entriesOf, List.flatMap_singleton, List.map_map]
  rfl

variable {σ : Type} [RecognitionStore σ] [HoldingStore σ] [CountingStore σ] {rc : Recognizer}
  {fp : Fingerprinter α} {stimulus : String}

/-- They are matched alike in a channel. -/
theorem alike_matchesUnder (σ : Type) [RecognitionStore σ] [HoldingStore σ] [CountingStore σ]
    (hashesOf : α → List (UInt64 × String)) (he : (e.map Prod.fst).Nodup) (ha : (id, a) ∈ e)
    (ha' : (id', a) ∈ e) (hashes : List (UInt64 × String)) (channel : Channel) (weight : ℕ → ℚ) :
    Alike ((matchesUnder (CountingStore.answered σ) (CountingStore.docFrequency σ)
      (entriesOf hashesOf e) hashes).map (featureContribution channel weight)) id id' := by
  unfold Alike
  rw [contributionsTo_matchesUnder, contributionsTo_matchesUnder, List.map_flatMap, List.map_flatMap]
  refine List.Perm.flatMap_left _ fun h _ => ?_
  have hsame : (((CountingStore.answered σ (entriesOf hashesOf e h.1)).filter
      fun entry => entry.1 = id).map Prod.snd).Perm (((CountingStore.answered σ
        (entriesOf hashesOf e h.1)).filter fun entry => entry.1 = id').map Prod.snd) :=
    CountingStore.perm_answered ((filter_entriesOf hashesOf he ha h.1).trans
      (filter_entriesOf hashesOf he ha' h.1).symm)
  have hmarks := hsame.map fun label => (channel, h.1, label,
    weight (CountingStore.docFrequency σ (entriesOf hashesOf e h.1)))
  rw [List.map_map, List.map_map] at hmarks ⊢
  exact hmarks

/-- They are matched alike by their shingles. -/
theorem alike_minhash (he : (e.map Prod.fst).Nodup) (ha : (id, a) ∈ e) (ha' : (id', a) ∈ e)
    (nu : Numerics) (enrolled : ℕ) (minhashWeight minSimilarity : ℚ) :
    Alike ((minhashMatchesOf rc fp e stimulus).filterMap
      (minhashContribution nu enrolled minhashWeight minSimilarity)) id id' := by
  unfold Alike
  rw [contributionsTo_minhash, contributionsTo_minhash, filter_minhashMatchesOf he ha,
    filter_minhashMatchesOf he ha']
  refine List.Perm.of_eq ?_
  split
  · by_cases hlow : containment (rc.shingleSet stimulus) (fp.shingles a) < minSimilarity <;>
      simp [minhashContribution, hlow, Contribution.mark]
  · rfl

/-- **Memories of the same text are alike.** -/
theorem alike_of_same (he : (e.map Prod.fst).Nodup) (ha : (id, a) ∈ e) (ha' : (id', a) ∈ e) :
    Alike (weighedOf σ rc fp e stimulus) id id' := by
  have hpairs := alike_matchesUnder σ (fun a => (fp.prints a).pairHashes) he ha ha'
    (rc.fingerprintStimulus stimulus).pairHashes .pair (rarity rc.numerics e.length)
  have hgrams := alike_matchesUnder σ (fun a => (fp.prints a).gramHashes) he ha ha'
    (rc.fingerprintStimulus stimulus).gramHashes .gram
    fun df => rarity rc.numerics e.length df * rc.score.gramWeight
  refine (hpairs.append hgrams).append ?_
  split
  · exact alike_minhash he ha ha' _ _ _ _
  · exact .rfl

end

/-! ## The verdict -/

/-- A memory with a trace. -/
def Traced (cs : List Contribution) (id : String) : Prop := ∃ c ∈ cs, c.evidence.memoryId = id

section

variable (config : ScoreConfig) (cs : List Contribution) (n : ℕ) (familiarity : ℚ) (id id' third : String)

/-- A memory whose trace is next to that of `id`, with the same score. -/
structure NextTied : Prop where
  traced : Traced cs third
  after : id < third
  tied : (traceOf cs n third).score = (traceOf cs n id).score
  first : ∀ i, Traced cs i → i ≠ id → (traceOf cs n third).StrongerFirst (traceOf cs n i)

/-- **The twin that is not looked at.**  A third memory has the score of the twins, and its id is
between theirs, so it is the one the first twin is compared with; and the first twin passes every test
against it. -/
structure UncheckedTwin : Prop where
  margin : config.discriminativeMargin = true
  coverage : config.recognizeCoverage ≤ (traceOf cs n id).coverage
  score : config.recognizeMinScore ≤ (traceOf cs n id).score
  familiarity : config.recognizeMinFamiliarity ≤ familiarity
  strongest : ∀ i, Traced cs i → (traceOf cs n id).StrongerFirst (traceOf cs n i)
  between : ∃ third, NextTied cs n id third ∧ third < id' ∧
    config.recognizeMinScore ≤ exclusiveEvidence cs id third ∧
    exclusiveEvidence cs third id * config.recognizeMargin ≤ exclusiveEvidence cs id third

end

section

variable {config : ScoreConfig} {cs : List Contribution} {n : ℕ} {familiarity : ℚ} {id id' : String}

/-- When a trace is recognized. -/
theorem verdictOf_eq_recognized_iff {coverageFamiliarity similarity : ℚ} {best : TraceMatch}
    {rest : List TraceMatch} :
    (verdictOf config cs coverageFamiliarity similarity (best :: rest)).1 = .recognized id ↔
      (config.recognizeCoverage ≤ best.coverage ∧ config.recognizeMinScore ≤ best.score ∧
        config.recognizeMinFamiliarity ≤ max coverageFamiliarity similarity ∧
          clearLead config cs best rest = true) ∧ best.memoryId = id := by
  rw [verdictOf]
  split_ifs with hbars hfamiliar
  · rw [Verdict.recognized.injEq]
    exact (and_iff_right hbars).symm
  · simp only [reduceCtorEq, hbars, false_and]
  · simp only [reduceCtorEq, hbars, false_and]

theorem TraceMatch.StrongerFirst.refl (t : TraceMatch) : t.StrongerFirst t := Or.inr ⟨rfl, le_refl _⟩

theorem TraceMatch.StrongerFirst.score_le {t t' : TraceMatch} (h : t.StrongerFirst t') :
    t'.score ≤ t.score := by
  rcases h with hlt | ⟨heq, -⟩
  · exact hlt.le
  · exact heq.ge

theorem TraceMatch.StrongerFirst.id_le {t t' : TraceMatch} (h : t.StrongerFirst t')
    (hscore : t.score = t'.score) : t.memoryId ≤ t'.memoryId :=
  (h.resolve_left fun hlt => hlt.ne' hscore).2

theorem pairwise_rankedTraces (cs : List Contribution) (n : ℕ) :
    (rankedTraces cs n).Pairwise TraceMatch.StrongerFirst :=
  List.pairwise_insertionSort _ _

/-- The first trace precedes all. -/
theorem StrongerFirst_of_head {best t : TraceMatch} {rest : List TraceMatch}
    (hsorted : (best :: rest).Pairwise TraceMatch.StrongerFirst) (ht : t ∈ best :: rest) :
    best.StrongerFirst t := by
  rcases List.mem_cons.1 ht with rfl | ht
  · exact .refl t
  · exact (List.pairwise_cons.1 hsorted).1 t ht

theorem traceOf_mem_iff : traceOf cs n id ∈ rankedTraces cs n ↔ Traced cs id := by
  rw [mem_rankedTraces]
  constructor
  · rintro ⟨c, hc, heq⟩
    exact ⟨c, hc, (congrArg TraceMatch.memoryId heq).symm⟩
  · rintro ⟨c, hc, rfl⟩
    exact ⟨c, hc, rfl⟩

theorem eq_traceOf_of_mem {t : TraceMatch} (h : t ∈ rankedTraces cs n) :
    t = traceOf cs n t.memoryId ∧ Traced cs t.memoryId := by
  obtain ⟨c, hc, rfl⟩ := mem_rankedTraces.1 h
  exact ⟨rfl, c, hc, rfl⟩

/-- A memory with a score has a trace. -/
theorem traced_of_score_pos (h : 0 < (traceOf cs n id).score) : Traced cs id := by
  by_contra hnot
  have hnone : contributionsTo cs id = [] := List.filter_eq_nil_iff.2 fun c hc hid =>
    hnot ⟨c, hc, of_decide_eq_true hid⟩
  have hzero : (traceOf cs n id).score = 0 := by
    show ((contributionsTo cs id).map fun c => c.evidence.weight).sum = 0
    rw [hnone, List.map_nil, List.sum_nil]
  exact h.ne' hzero

theorem Alike.symm (h : Alike cs id id') : Alike cs id' id := List.Perm.symm h

theorem Alike.traced (h : Alike cs id id') (hid : Traced cs id) : Traced cs id' := by
  have hlength := h.length_eq
  rw [List.length_map, List.length_map] at hlength
  obtain ⟨c, hc, rfl⟩ := hid
  have hpos : 0 < (contributionsTo cs id').length := by
    rw [← hlength]
    exact List.length_pos_of_mem (List.mem_filter.2 ⟨hc, decide_eq_true rfl⟩)
  obtain ⟨c', hc'⟩ := List.exists_mem_of_length_pos hpos
  obtain ⟨hc', hid'⟩ := List.mem_filter.1 hc'
  exact ⟨c', hc', of_decide_eq_true hid'⟩

/-- Against a trace of the same score only the exclusive evidence can lead. -/
theorem clearLead_tied_iff {best rival : TraceMatch} {rest : List TraceMatch}
    (hmargin : 1 < config.recognizeMargin) (hpos : 0 < best.score) (htied : rival.score = best.score) :
    clearLead config cs best (rival :: rest) = true ↔ config.discriminativeMargin = true ∧
      config.recognizeMinScore ≤ exclusiveEvidence cs best.memoryId rival.memoryId ∧
      exclusiveEvidence cs rival.memoryId best.memoryId * config.recognizeMargin ≤
        exclusiveEvidence cs best.memoryId rival.memoryId := by
  have hno : ¬ best.score * config.recognizeMargin ≤ best.score := by
    have := mul_lt_mul_of_pos_left hmargin hpos
    rw [mul_one] at this
    exact not_le.2 this
  unfold clearLead
  simp [htied, hno]

/-- Of two twins the one of the lesser id comes first. -/
theorem head_ne_twin {best : TraceMatch} {rest : List TraceMatch} (hlt : id < id')
    (halike : Alike cs id id') (htraces : rankedTraces cs n = best :: rest) : best.memoryId ≠ id' := by
  intro hbest
  have hsorted := pairwise_rankedTraces cs n
  obtain ⟨heq, htraced⟩ := eq_traceOf_of_mem
    (htraces ▸ List.mem_cons_self : best ∈ rankedTraces cs n)
  rw [hbest] at heq htraced
  have hother := (traceOf_mem_iff (n := n)).2 (halike.symm.traced htraced)
  rw [htraces] at hsorted hother
  have hle := (StrongerFirst_of_head hsorted hother).id_le (by rw [heq, halike.traceOf_eq n])
  rw [hbest] at hle
  exact absurd hlt (not_lt.2 hle)

/-- **Next to the first twin** there is a trace of the same score, that of the other twin at last. -/
theorem exists_nextTied {rest : List TraceMatch} (hlt : id < id') (halike : Alike cs id id')
    (htraces : rankedTraces cs n = traceOf cs n id :: rest) :
    ∃ third tail, rest = traceOf cs n third :: tail ∧ NextTied cs n id third ∧ third ≤ id' := by
  have hsorted := pairwise_rankedTraces cs n
  have hnodup := nodup_rankedTraces cs n
  rw [htraces, List.pairwise_cons] at hsorted
  rw [htraces, List.map_cons, List.nodup_cons] at hnodup
  have hother : ∀ i, Traced cs i → i ≠ id → traceOf cs n i ∈ rest := by
    intro i hi hne
    have hmem := traceOf_mem_iff (n := n).2 hi
    rw [htraces] at hmem
    exact (List.mem_cons.1 hmem).resolve_left fun heq => hne (congrArg TraceMatch.memoryId heq)
  have hid : Traced cs id :=
    traceOf_mem_iff.1 (htraces ▸ List.mem_cons_self : traceOf cs n id ∈ rankedTraces cs n)
  have htwin : traceOf cs n id' ∈ rest := hother id' (halike.traced hid) hlt.ne'
  cases rest with
  | nil => exact absurd htwin List.not_mem_nil
  | cons rival tail =>
    have hrival : rival ∈ rankedTraces cs n := htraces ▸ List.mem_cons_of_mem _ List.mem_cons_self
    obtain ⟨heq, htraced⟩ := eq_traceOf_of_mem hrival
    have hne : rival.memoryId ≠ id := fun hsame =>
      hnodup.1 (List.mem_map.2 ⟨rival, List.mem_cons_self, hsame⟩)
    -- the first twin precedes the rival, and the rival precedes the other twin
    have hbefore := hsorted.1 rival List.mem_cons_self
    have hafter := StrongerFirst_of_head hsorted.2 htwin
    have hsame : (traceOf cs n id').score = (traceOf cs n id).score := by rw [halike.traceOf_eq n]
    have htied : rival.score = (traceOf cs n id).score :=
      le_antisymm hbefore.score_le (hsame.symm.le.trans hafter.score_le)
    refine ⟨rival.memoryId, tail, by rw [← heq], ⟨htraced, ?_, ?_, ?_⟩, ?_⟩
    · exact lt_of_le_of_ne (hbefore.id_le htied.symm) hne.symm
    · rw [← heq, htied]
    · intro i hi hine
      rw [← heq]
      exact StrongerFirst_of_head hsorted.2 (hother i hi hine)
    · exact hafter.id_le (htied.trans hsame.symm)

/-- What is stronger than all others is first. -/
theorem exists_rankedTraces_eq (hid : Traced cs id)
    (hstrongest : ∀ i, Traced cs i → (traceOf cs n id).StrongerFirst (traceOf cs n i)) :
    ∃ rest, rankedTraces cs n = traceOf cs n id :: rest := by
  have hsorted := pairwise_rankedTraces cs n
  have hmem := (traceOf_mem_iff (n := n)).2 hid
  cases htraces : rankedTraces cs n with
  | nil =>
    rw [htraces] at hmem
    exact absurd hmem List.not_mem_nil
  | cons best rest =>
    obtain ⟨heq, htraced⟩ := eq_traceOf_of_mem
      (htraces ▸ List.mem_cons_self : best ∈ rankedTraces cs n)
    rw [htraces] at hsorted hmem
    have hlast := hstrongest best.memoryId htraced
    rw [← heq] at hlast
    have hsame : best.memoryId = id := (StrongerFirst_of_head hsorted hmem).memoryId_eq hlast
    exact ⟨rest, by rw [heq, hsame]⟩

/-- **A twin is recognized** exactly when the other one is not looked at. -/
theorem recognized_twin_iff (hlt : id < id') (halike : Alike cs id id')
    (hmargin : 1 < config.recognizeMargin) (hscore : 0 < config.recognizeMinScore)
    {coverageFamiliarity similarity : ℚ}
    (hfamiliarity : (rankedTraces cs n).head? = some (traceOf cs n id) →
      max coverageFamiliarity similarity = familiarity) :
    ((verdictOf config cs coverageFamiliarity similarity (rankedTraces cs n)).1 = .recognized id ∨
      (verdictOf config cs coverageFamiliarity similarity (rankedTraces cs n)).1 = .recognized id') ↔
    UncheckedTwin config cs n familiarity id id' := by
  constructor
  · intro h
    cases htraces : rankedTraces cs n with
    | nil =>
      rw [htraces] at h
      rcases h with h | h <;> cases h
    | cons best rest =>
      rw [htraces, verdictOf_eq_recognized_iff, verdictOf_eq_recognized_iff] at h
      obtain ⟨⟨hcoverage, hmin, hfam, hlead⟩, hbest⟩ :=
        h.resolve_right fun h => head_ne_twin hlt halike htraces h.2
      obtain ⟨heq, htraced⟩ := eq_traceOf_of_mem
        (htraces ▸ List.mem_cons_self : best ∈ rankedTraces cs n)
      rw [hbest] at heq
      subst heq
      obtain ⟨third, tail, rfl, hnext, hupto⟩ := exists_nextTied hlt halike htraces
      obtain ⟨hdisc, hexcl, hrival⟩ := (clearLead_tied_iff hmargin (hscore.trans_le hmin) hnext.tied).1
        hlead
      have hsorted := pairwise_rankedTraces cs n
      refine ⟨hdisc, hcoverage, hmin, ?_, fun i hi => ?_, third, hnext, ?_, hexcl, hrival⟩
      · rwa [← hfamiliarity (by rw [htraces]; rfl)]
      · have hmem := (traceOf_mem_iff (n := n)).2 hi
        rw [htraces] at hsorted hmem
        exact StrongerFirst_of_head hsorted hmem
      · -- against its twin the first has no exclusive evidence
        refine lt_of_le_of_ne hupto fun heq => ?_
        have hzero : exclusiveEvidence cs id third = 0 := by rw [heq, halike.exclusiveEvidence_eq]
        exact absurd (hscore.trans_le (hexcl.trans hzero.le)) (lt_irrefl 0)
  · intro h
    obtain ⟨third, hnext, -, hexcl, hrival⟩ := h.between
    have hpos := hscore.trans_le h.score
    obtain ⟨rest, htraces⟩ := exists_rankedTraces_eq (traced_of_score_pos hpos) h.strongest
    obtain ⟨next, tail, rfl, hnext', -⟩ := exists_nextTied hlt halike htraces
    -- both are next to the first twin
    have hsame : next = third := (hnext'.first third hnext.traced hnext.after.ne').memoryId_eq
      (hnext.first next hnext'.traced hnext'.after.ne')
    subst hsame
    rw [htraces, verdictOf_eq_recognized_iff]
    refine Or.inl ⟨⟨h.coverage, h.score, ?_, ?_⟩, rfl⟩
    · rw [hfamiliarity (by rw [htraces]; rfl)]
      exact h.familiarity
    · exact (clearLead_tied_iff hmargin hpos hnext.tied).2 ⟨h.margin, hexcl, hrival⟩

end

/-! ## The engine -/

section

variable (σ : Type) [RecognitionStore σ] [HoldingStore σ] [CountingStore σ] {α : Type}
  (rc : Recognizer) (fp : Fingerprinter α) (e : List (String × α)) (stimulus : String)

/-- How much of what the stimulus could have matched a trace has. -/
def coverageFamiliarityOf (enrolled : ℕ) (t : TraceMatch) : ℚ :=
  let totalPotential := rarity rc.numerics enrolled 1 *
    ((rc.fingerprintStimulus stimulus).pairHashes.length +
      rc.score.gramWeight * (rc.fingerprintStimulus stimulus).gramHashes.length)
  if 0 < totalPotential then min (t.score / totalPotential) 1 else 0

/-- The similarity of the memory whose shingles are most like those of the stimulus. -/
def similarityOf : ℚ :=
  bestSimilarity (minhashMatchesOf rc fp e stimulus) rc.minhashWeight rc.minSimilarity

/-- The familiarity of a stimulus whose strongest trace is that of `id`. -/
def familiarityOf (id : String) : ℚ :=
  max (coverageFamiliarityOf rc stimulus e.length
    (traceOf (weighedOf σ rc fp e stimulus) (rc.featureCount stimulus) id))
    (similarityOf rc fp e stimulus)

variable {σ rc fp e stimulus}

/-- The verdict, in terms of what is enrolled. -/
theorem verdict_eq_content {store : σ}
    (h : HoldingStore.HoldsAll fp (0 < rc.minhashWeight) store e) (o : RecognitionOrders) :
    (RecognitionEngine.recognize rc o store stimulus).verdict =
      (verdictOf rc.score (weighedOf σ rc fp e stimulus)
        (((rankedTraces (weighedOf σ rc fp e stimulus) (rc.featureCount stimulus)).head?.map
          (coverageFamiliarityOf rc stimulus e.length)).getD 0) (similarityOf rc fp e stimulus)
        (rankedTraces (weighedOf σ rc fp e stimulus) (rc.featureCount stimulus))).1 := by
  rw [recognize_eq_content stimulus h o]
  rfl

end

/-- An extractor that goes by exclusive evidence, and counts shingles for much. -/
def discriminativeExtractor : Extractor where
  tables := .ascii
  numerics :=
    { ln := fun q => if q = 2 then 6931471805599453 / 10000000000000000
        else if q = 4 then 13862943611198906 / 10000000000000000 else 0
      twoDecimals := fun _ => "" }
  hash64 s :=
    (List.lookup s [("rp1|alpha|beta", 0x8f69ba6730950926), ("rp1|alpha|gamma", 0x2ecae3e7108198db),
      ("rp1|beta|gamma", 0xa6b6ae5621869a38)]).getD 0
  hashSeeded s :=
    (List.lookup s [("alpha beta", 0x886bb7b0ef4ad728), ("beta gamma", 0x6f114ac522ccc3d6),
      ("gamma of", 0x8264f6c06cdc3637), ("of the", 0x7cec105c04b9629f),
      ("the who", 0x58299c4e048496b8), ("who why", 0x5a90bda4b3e17732)]).getD 0
  config :=
    { kgram := 8, minhashWeight := 9
      score := { recognizeMinScore := 2, discriminativeMargin := true }
      kgram_pos := RecognitionConfig.eight_pos, window_pos := RecognitionConfig.eight_pos }

/-- Two memories of the same text, and a third one under an id between theirs. -/
def hiddenTwin : List PartsCall :=
  [.enroll "a" "alpha beta gamma", .enroll "b" "of the who why", .enroll "c" "alpha beta gamma"]

end Spectral
