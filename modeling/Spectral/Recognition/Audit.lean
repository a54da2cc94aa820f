import Spectral.Recognition.Parts

/-!
# What the evidence of a recognition says

The evidence of a recognition quotes keys and runs of tokens, and a fraction of shingles.  This file
says when a reader who has the texts finds there what is quoted.

* `gramMatch_of_common_run` — a long run of tokens in common is always found.
* `mergeCount_eq_iff` — the merge-count is the size of the intersection exactly when no common
  shingle comes after a greater one.
* `Extractor.Checked` — the reader's check of a row of evidence.
* `evidence_checked` — every row passes it, where the shingles of memories of several parts came
  out of the hash set in a suitable order.
-/

namespace Spectral

open Spectral.Lib

/-! ## What a recognition adds up -/

namespace RecognitionEngine

variable {σ : Type} [RecognitionStore σ] (rc : Recognizer) (o : RecognitionOrders) (store : σ)
  (stimulus : String)

/-- The weighed matches of a recognition. -/
def weighed : List Contribution :=
  let prints := rc.fingerprintStimulus stimulus
  contributions rc.numerics rc.score
    (o.matched.run (RecognitionStore.lookupPairs store prints.pairHashes))
    (o.matched.run (RecognitionStore.lookupGrams store prints.gramHashes))
    (if 0 < rc.minhashWeight then
        (o.candidates.run (RecognitionStore.lookupMinhash store (rc.shingleSet stimulus))).map fun c =>
          { memoryId := c.1, similarity := containment (rc.shingleSet stimulus) c.2 : MinHashMatch }
      else [])
    (RecognitionStore.enrolledCount store) rc.minhashWeight rc.minSimilarity

variable {rc o store stimulus}

/-- A contribution is that of a pair, of a gram or of a shingle set. -/
theorem mem_weighed {c : Contribution} : c ∈ weighed rc o store stimulus ↔
    (∃ m ∈ RecognitionStore.lookupPairs store (rc.fingerprintStimulus stimulus).pairHashes,
      pairContribution rc.numerics (RecognitionStore.enrolledCount store) m = c) ∨
    (∃ m ∈ RecognitionStore.lookupGrams store (rc.fingerprintStimulus stimulus).gramHashes,
      gramContribution rc.numerics rc.score (RecognitionStore.enrolledCount store) m = c) ∨
    0 < rc.minhashWeight ∧
      ∃ d ∈ RecognitionStore.lookupMinhash store (rc.shingleSet stimulus),
        minhashContribution rc.numerics (RecognitionStore.enrolledCount store) rc.minhashWeight
          rc.minSimilarity ⟨d.1, containment (rc.shingleSet stimulus) d.2⟩ = some c := by
  unfold weighed contributions
  simp only [List.mem_append, List.mem_map, (o.matched.perm _).mem_iff, or_assoc]
  refine or_congr_right (or_congr_right ?_)
  by_cases hweight : 0 < rc.minhashWeight
  · simp only [hweight, if_true, true_and, List.mem_filterMap, List.mem_map,
      (o.candidates.perm _).mem_iff]
    constructor
    · rintro ⟨m, ⟨d, hd, rfl⟩, hc⟩
      exact ⟨d, hd, hc⟩
    · rintro ⟨d, hd, hc⟩
      exact ⟨_, ⟨d, hd, rfl⟩, hc⟩
  · simp only [hweight, if_false, false_and, List.not_mem_nil]

/-- A trace is that of its memory. -/
theorem eq_of_mem_traces {t : TraceMatch} (h : t ∈ (recognize rc o store stimulus).traces) :
    ∃ n, t = traceOf (weighed rc o store stimulus) n t.memoryId := by
  unfold recognize at h
  rw [scoreCandidatesIn_eq] at h
  obtain ⟨c, -, rfl⟩ := mem_rankedTraces.1 (List.mem_of_mem_take h)
  exact ⟨_, rfl⟩

/-- A row of the evidence is that of a contribution. -/
theorem exists_of_mem_evidence {row : Evidence} (h : row ∈ (recognize rc o store stimulus).evidence) :
    ∃ c ∈ weighed rc o store stimulus, c.evidence = row := by
  unfold recognize at h
  rw [scoreCandidatesIn_eq] at h
  exact List.mem_map.1 ((List.mem_insertionSort _).1 (List.mem_of_mem_take h))

/-- What is not novel has evidence, if any is shown. -/
theorem evidence_ne_nil (hshown : 0 < rc.score.maxEvidence)
    (h : (recognize rc o store stimulus).verdict ≠ .novel) :
    (recognize rc o store stimulus).evidence ≠ [] := by
  unfold recognize at h ⊢
  rw [scoreCandidatesIn_eq] at h ⊢
  change (verdictOf _ _ _ _ (rankedTraces (weighed rc o store stimulus) _)).1 ≠ .novel at h
  change (((weighed rc o store stimulus).map Contribution.evidence).insertionSort
    Evidence.StrongerFirst).take rc.score.maxEvidence ≠ []
  cases hcs : weighed rc o store stimulus with
  | nil =>
    rw [hcs] at h
    exact absurd rfl h
  | cons c cs =>
    intro hnil
    have hlength := congrArg List.length hnil
    rw [List.length_take, List.length_insertionSort, List.length_map, List.length_cons,
      List.length_nil] at hlength
    omega

end RecognitionEngine

/-! ## Runs in common -/

section

variable {x : Extractor} {id content stimulus : String} {src : Source} {run : List String}

/-- The gram hashes of a text are among those of the memory it is a text of. -/
theorem gramHash_mem_sourcePrints (h : content ∈ src.texts) {f : UInt64 × String}
    (hf : f ∈ (x.fingerprintStimulus content).gramHashes) :
    f.1 ∈ (x.sourcePrints src).gramHashes.map Prod.fst := by
  cases src with
  | text text =>
    obtain rfl := List.mem_singleton.1 h
    exact List.mem_map_of_mem hf
  | parts texts call =>
    -- a text that has a gram is not blank, so it was not skipped
    have hkept : content ∈ x.keptParts texts := by
      obtain ⟨w, hw, -⟩ := Extractor.mem_gramHashes hf
      obtain ⟨key, hkey⟩ := List.exists_mem_of_ne_nil w (Extractor.ne_nil_of_mem_windows hw)
      have hkey : key ∈ x.tables.normalizedTokens content :=
        (infix_of_mem_windows hw).1.subset hkey
      exact List.mem_filter.2 ⟨h, by simp [CharTables.isBlank_of_mem hkey]⟩
    refine mem_map_dedupByHash.2 (List.mem_map_of_mem ?_)
    exact List.mem_flatMap.2 ⟨_, List.mem_map_of_mem hkept, hf⟩

/-- **Long runs are found.**  A stimulus that has a run of `window + kgram - 1` tokens in common
with a text of a memory finds the memory by its grams, and the trace of the memory says so. -/
theorem gramMatch_of_common_run (σ : Type) [RecognitionStore σ] [HoldingStore σ]
    (order : ℕ → Shuffle UInt64) (calls : List PartsCall) (hsrc : (id, src) ∈ x.sourcesAfter calls)
    (hcontent : content ∈ src.texts) (h : run <:+: x.tables.normalizedTokens content)
    (h' : run <:+: x.tables.normalizedTokens stimulus)
    (hlong : x.config.window + x.config.kgram - 1 ≤ run.length) :
    (∃ m ∈ RecognitionStore.lookupGrams (storeAfterParts σ x order calls)
      (x.fingerprintStimulus stimulus).gramHashes, m.memoryId = id) ∧
    ∀ o, ∀ t ∈ (RecognitionEngine.recognize x.recognizer o (storeAfterParts σ x order calls)
      stimulus).traces, t.memoryId = id → 1 ≤ t.gramHits := by
  have hfound : ∃ m ∈ RecognitionStore.lookupGrams (storeAfterParts σ x order calls)
      (x.fingerprintStimulus stimulus).gramHashes, m.memoryId = id := by
    obtain ⟨g, hg, g', hg', hhash⟩ := Extractor.exists_common_gramHash h h' hlong
    obtain ⟨f, hf, hfhash⟩ := List.mem_map.1 (gramHash_mem_sourcePrints hcontent hg)
    have hmatch : ∃ m ∈ RecognitionStore.lookupGrams (storeAfterParts σ x order calls)
        (x.fingerprintStimulus stimulus).gramHashes,
        m.memoryId = id ∧ m.hash = f.1 ∧ m.label = f.2 := by
      refine (HoldingStore.mem_lookupGrams (holds_storeAfterParts σ x order calls)).2 ⟨?_, ?_⟩
      · exact List.mem_map.2 ⟨g', hg', by rw [hfhash, hhash]⟩
      · exact ⟨(id, src), hsrc, rfl, hf⟩
    obtain ⟨m, hm, hid, -⟩ := hmatch
    exact ⟨m, hm, hid⟩
  refine ⟨hfound, fun o t ht hid => ?_⟩
  obtain ⟨m, hm, hmid⟩ := hfound
  obtain ⟨n, htrace⟩ := RecognitionEngine.eq_of_mem_traces ht
  rw [htrace]
  refine List.countP_pos_iff.2 ⟨gramContribution x.recognizer.numerics x.recognizer.score _ m,
    List.mem_filter.2 ⟨RecognitionEngine.mem_weighed.2 (Or.inr (Or.inl ⟨m, hm, rfl⟩)), ?_⟩, rfl⟩
  rw [hid]
  exact decide_eq_true hmid

end

/-- The first twelve words of `saidTwice` are found in it, though it was enrolled as a part. -/
theorem twelve_words_found : ∃ m ∈ RecognitionStore.lookupGrams
    (storeAfterParts RecognitionIndex saidTwiceExtractor (fun _ => .backwards)
      [.enrollParts "m1" [" ", saidTwice]])
    (saidTwiceExtractor.fingerprintStimulus "who can be in here and what do you want who can").gramHashes,
    m.memoryId = "m1" := by
  have hsrc : ("m1", Source.parts [" ", saidTwice] 0) ∈
      saidTwiceExtractor.sourcesAfter [.enrollParts "m1" [" ", saidTwice]] := by decide +kernel
  have hcontent : saidTwice ∈ (Source.parts [" ", saidTwice] 0).texts := by decide +kernel
  have h : ["who", "can", "be", "in", "here", "and", "what", "do", "you", "want", "who", "can"] <:+:
      saidTwiceExtractor.tables.normalizedTokens saidTwice := by decide +kernel
  have h' : ["who", "can", "be", "in", "here", "and", "what", "do", "you", "want", "who", "can"] <:+:
      saidTwiceExtractor.tables.normalizedTokens
        "who can be in here and what do you want who can" := by decide +kernel
  exact (gramMatch_of_common_run RecognitionIndex (fun _ => .backwards) _ hsrc hcontent h h'
    (by decide)).1

/-! ## The merge-count -/

section MergeCount

variable {a b : UInt64} {probe doc : List UInt64}

theorem mergeCount_nil : mergeCount probe [] = 0 := by
  cases probe <;> rfl

theorem mergeCount_cons : mergeCount (a :: probe) (b :: doc) =
    if a < b then mergeCount probe (b :: doc)
    else if a = b then mergeCount probe doc + 1 else mergeCount (a :: probe) doc := rfl

/-- A stored shingle is counted if the stimulus has it, and what is not greater is then passed
over. -/
theorem mergeCount_cons_right (hprobe : probe.Pairwise (· < ·)) : mergeCount probe (b :: doc) =
    (if b ∈ probe then 1 else 0) + mergeCount (probe.filter fun a => b < a) doc := by
  induction probe with
  | nil =>
    cases doc <;> rfl
  | cons a probe ih =>
    obtain ⟨ha, hrest⟩ := List.pairwise_cons.1 hprobe
    rw [mergeCount_cons]
    split
    · rename_i hlt
      have hne : b ≠ a := fun heq => UInt64.lt_irrefl a (heq ▸ hlt)
      have hnot : ¬ b < a := UInt64.lt_asymm hlt
      rw [ih hrest, List.filter_cons_of_neg (by simpa using hnot)]
      simp [hne]
    · rename_i hle
      -- what follows is greater than `a`, and so than `b`
      have hall : ∀ c ∈ probe, b < c := fun c hc =>
        UInt64.lt_of_le_of_lt (UInt64.not_lt.1 hle) (ha c hc)
      have hfilter : (probe.filter fun a => b < a) = probe :=
        List.filter_eq_self.2 fun c hc => decide_eq_true (hall c hc)
      have hb : b ∉ probe := fun hmem => UInt64.lt_irrefl b (hall b hmem)
      split
      · rename_i heq
        subst heq
        rw [List.filter_cons_of_neg (by simp), hfilter]
        simp
        omega
      · rename_i hne
        have hlt : b < a := UInt64.lt_of_le_of_ne (UInt64.not_lt.1 hle) (Ne.symm hne)
        rw [List.filter_cons_of_pos (by simpa using hlt), hfilter]
        simp [hb, Ne.symm hne]

/-- The stored shingles are in a suitable order: none that the stimulus has comes after a greater
one. -/
def InOrder (probe doc : List UInt64) : Prop := doc.Pairwise fun c b => b ∈ probe → c < b

instance : Decidable (InOrder probe doc) :=
  inferInstanceAs (Decidable (doc.Pairwise fun c b => b ∈ probe → c < b))

/-- The common shingles, those after `b` and the others. -/
theorem countP_after_add (b : UInt64) (probe doc : List UInt64) :
    doc.countP (· ∈ probe.filter fun a => b < a) + doc.countP (fun c => c ∈ probe ∧ ¬ b < c) =
      doc.countP (· ∈ probe) := by
  induction doc with
  | nil => rfl
  | cons c doc ih =>
    simp only [List.countP_cons, List.mem_filter, decide_eq_true_eq] at ih ⊢
    by_cases hc : c ∈ probe <;> by_cases hlt : b < c <;>
      simp only [hc, hlt, true_and, false_and, and_false, not_true_eq_false, not_false_eq_true,
        if_true, if_false] <;> omega

theorem mergeCount_le (hprobe : probe.Pairwise (· < ·)) :
    mergeCount probe doc ≤ doc.countP (· ∈ probe) := by
  induction doc generalizing probe with
  | nil => rw [mergeCount_nil, List.countP_nil]
  | cons b doc ih =>
    have hrest := ih (hprobe.filter fun a => b < a)
    have hsplit := countP_after_add b probe doc
    rw [mergeCount_cons_right hprobe, List.countP_cons]
    simp only [decide_eq_true_eq]
    omega

/-- **The merge-count** of what the stimulus has, and of stored shingles in any order, is the number
of common ones exactly when none of them comes after a greater one. -/
theorem mergeCount_eq_iff (hprobe : probe.Pairwise (· < ·)) :
    mergeCount probe doc = doc.countP (· ∈ probe) ↔ InOrder probe doc := by
  induction doc generalizing probe with
  | nil => simp [mergeCount_nil, InOrder]
  | cons b doc ih =>
    have hle : mergeCount (probe.filter fun a => b < a) doc ≤
        doc.countP (· ∈ probe.filter fun a => b < a) := mergeCount_le (hprobe.filter _)
    have hsplit := countP_after_add b probe doc
    have hafter : doc.countP (fun c => c ∈ probe ∧ ¬ b < c) = 0 ↔ ∀ c ∈ doc, c ∈ probe → b < c := by
      simp [List.countP_eq_zero]
    -- what comes after `b` has to be in order, and greater where the stimulus has it
    have hcount : mergeCount probe (b :: doc) = (b :: doc).countP (· ∈ probe) ↔
        mergeCount (probe.filter fun a => b < a) doc =
            doc.countP (· ∈ probe.filter fun a => b < a) ∧
          doc.countP (fun c => c ∈ probe ∧ ¬ b < c) = 0 := by
      rw [mergeCount_cons_right hprobe, List.countP_cons]
      simp only [decide_eq_true_eq]
      omega
    rw [hcount, ih (hprobe.filter _), hafter, InOrder, InOrder, List.pairwise_cons, and_comm]
    refine and_congr_right fun hgreater => List.Pairwise.iff_of_mem fun {c d} _ hd => ?_
    rw [List.mem_filter, decide_eq_true_eq]
    exact ⟨fun h hmem => h ⟨hmem, hgreater d hd hmem⟩, fun h hmem => h hmem.1⟩

end MergeCount

/-! ## The check of a row -/

namespace Extractor

variable (x : Extractor)

/-- What can be hashed for the fingerprints of a text: its pairs of landmarks, and its runs. -/
def hashedTexts (content : String) : List String :=
  ((x.extractLandmarks content).flatMap fun a => (x.extractLandmarks content).map fun b =>
    pairText a.key b.key) ++
  (windows x.config.kgram (x.tables.normalizedTokens content)).map fun w =>
    "rg1|" ++ " ".intercalate w

/-- No two things that are hashed for some texts have the same hash. -/
def CollisionFree (contents : List String) : Prop :=
  ∀ text ∈ contents.flatMap x.hashedTexts, ∀ text' ∈ contents.flatMap x.hashedTexts,
    x.hash64 text = x.hash64 text' → text = text'

instance (contents : List String) : Decidable (x.CollisionFree contents) := inferInstanceAs
  (Decidable (∀ text ∈ contents.flatMap x.hashedTexts, ∀ text' ∈ contents.flatMap x.hashedTexts,
    x.hash64 text = x.hash64 text' → text = text'))

/-- The fraction of the shingles of a stimulus that are among those of a memory's texts. -/
def commonFraction (stimulus : String) (src : Source) : ℚ :=
  ((x.shingleSet stimulus).countP fun b => b ∈ src.texts.flatMap x.shingleSet : ℕ) /
    (x.shingleSet stimulus).length

/-- **The reader's check of a row**: it names two keys of the stimulus and of one text of the
memory, or quotes a run of both, or states the fraction of the shingles in common. -/
def Checked (stimulus : String) (src : Source) (feature : String) : Prop :=
  (∃ lo hi, feature = pairLabel lo hi ∧ lo ∈ x.tables.normalizedTokens stimulus ∧
    hi ∈ x.tables.normalizedTokens stimulus ∧ ∃ content ∈ src.texts,
      lo ∈ x.tables.normalizedTokens content ∧ hi ∈ x.tables.normalizedTokens content) ∨
  (∃ run, feature = runLabel (" ".intercalate run) ∧ run <:+: x.tables.normalizedTokens stimulus ∧
    ∃ content ∈ src.texts, run <:+: x.tables.normalizedTokens content) ∨
  feature = "minhash: containment " ++ x.numerics.twoDecimals (x.commonFraction stimulus src)

variable {x} {src : Source} {order : ℕ → Shuffle UInt64} {stimulus : String}

theorem pairText_mem_hashedTexts {content : String} {a b : Landmark}
    (ha : a ∈ x.extractLandmarks content) (hb : b ∈ x.extractLandmarks content) :
    pairText a.key b.key ∈ x.hashedTexts content :=
  List.mem_append_left _ (List.mem_flatMap.2 ⟨a, ha, List.mem_map_of_mem hb⟩)

theorem runText_mem_hashedTexts {content : String} {w : List String}
    (hw : w ∈ windows x.config.kgram (x.tables.normalizedTokens content)) :
    "rg1|" ++ " ".intercalate w ∈ x.hashedTexts content :=
  List.mem_append_right _ (List.mem_map_of_mem hw)

/-- A fingerprint of a memory is that of one of its texts. -/
theorem exists_text_of_mem (hashesOf : StimulusPrints → List (UInt64 × String))
    (hmerged : ∀ texts, hashesOf (x.mergedPrints texts) =
      dedupByHash (((x.keptParts texts).map x.fingerprintStimulus).flatMap hashesOf))
    {f : UInt64 × String} (h : f ∈ hashesOf (x.sourcePrints src)) :
    ∃ content ∈ src.texts, f ∈ hashesOf (x.fingerprintStimulus content) := by
  cases src with
  | text content => exact ⟨content, List.mem_singleton_self content, h⟩
  | parts texts call =>
    rw [sourcePrints, hmerged] at h
    obtain ⟨prints, hprints, hf⟩ := List.mem_flatMap.1 (mem_of_mem_dedupByHash h)
    obtain ⟨content, hcontent, rfl⟩ := List.mem_map.1 hprints
    exact ⟨content, List.mem_of_mem_filter hcontent, hf⟩

theorem nodup_sourceShingles : (x.sourceShingles order src).Nodup := by
  cases src with
  | text content => exact nodup_shingleSet content
  | parts texts call => exact ((order call).perm _).nodup_iff.2 (List.nodup_dedup _)

/-- The stored shingles are those of the texts. -/
theorem mem_sourceShingles {b : UInt64} :
    b ∈ x.sourceShingles order src ↔ b ∈ src.texts.flatMap x.shingleSet := by
  cases src with
  | text content =>
    show b ∈ x.shingleSet content ↔ b ∈ [content].flatMap x.shingleSet
    rw [List.flatMap_singleton]
  | parts texts call =>
    show b ∈ (order call).run ((x.keptParts texts).flatMap x.shingleSet).dedup ↔ _
    rw [((order call).perm _).mem_iff, List.mem_dedup, List.mem_flatMap, List.mem_flatMap]
    constructor
    · rintro ⟨content, hcontent, hb⟩
      exact ⟨content, List.mem_of_mem_filter hcontent, hb⟩
    · rintro ⟨content, hcontent, hb⟩
      refine ⟨content, List.mem_filter.2 ⟨hcontent, ?_⟩, hb⟩
      by_contra hblank
      rw [shingleSet_of_isBlank (by simpa using hblank)] at hb
      exact absurd hb List.not_mem_nil

/-- A text of its own is stored in order. -/
theorem inOrder_text (content : String) :
    InOrder (x.shingleSet stimulus) (x.sourceShingles order (.text content)) := by
  refine (x.sorted_shingleSet content).imp fun {a b} hlt => ?_
  exact fun _ => hlt

/-- **The containment is the fraction in common** exactly when the stored shingles are in a suitable
order. -/
theorem containment_eq_iff :
    containment (x.shingleSet stimulus) (x.sourceShingles order src) =
        x.commonFraction stimulus src ↔
      InOrder (x.shingleSet stimulus) (x.sourceShingles order src) := by
  have hsorted := x.sorted_shingleSet stimulus
  have hnodup : (x.shingleSet stimulus).Nodup := nodup_shingleSet stimulus
  have hcommon : (x.sourceShingles order src).countP (· ∈ x.shingleSet stimulus) =
      (x.shingleSet stimulus).countP fun b => b ∈ src.texts.flatMap x.shingleSet := by
    rw [List.countP_eq_length_filter, List.countP_eq_length_filter]
    refine ((List.perm_ext_iff_of_nodup (nodup_sourceShingles.filter _)
      (hnodup.filter _)).2 fun b => ?_).length_eq
    simp only [List.mem_filter, decide_eq_true_eq, mem_sourceShingles, and_comm]
  rw [← mergeCount_eq_iff hsorted, hcommon, containment, commonFraction]
  by_cases hnil : x.shingleSet stimulus = []
  · rw [if_pos hnil, hnil]
    simp [mergeCount]
  · have hpos : ((x.shingleSet stimulus).length : ℚ) ≠ 0 :=
      Nat.cast_ne_zero.2 fun h => hnil (List.length_eq_zero_iff.1 h)
    rw [if_neg hnil, div_left_inj' hpos, Nat.cast_inj]

end Extractor

section

variable {σ : Type} [RecognitionStore σ] [HoldingStore σ] {x : Extractor}
  {order : ℕ → Shuffle UInt64} {calls : List PartsCall} {stimulus : String}

open RecognitionStore Extractor

/-- Whatever contributes to a recognition is checked, if the shingles are in a suitable order. -/
theorem checked_of_mem_weighed
    (hhash : x.CollisionFree (stimulus :: (x.sourcesAfter calls).flatMap fun p => p.2.texts))
    (horder : 0 < x.config.minhashWeight → ∀ p ∈ x.sourcesAfter calls,
      InOrder (x.shingleSet stimulus) (x.sourceShingles order p.2))
    {o : RecognitionOrders} {c : Contribution}
    (hc : c ∈ RecognitionEngine.weighed x.recognizer o (storeAfterParts σ x order calls) stimulus) :
    ∃ p ∈ x.sourcesAfter calls, p.1 = c.evidence.memoryId ∧
      x.Checked stimulus p.2 c.evidence.feature := by
  have hholds := holds_storeAfterParts σ x order calls
  have hstimulusTexts : ∀ text ∈ x.hashedTexts stimulus, text ∈
      (stimulus :: (x.sourcesAfter calls).flatMap fun p => p.2.texts).flatMap x.hashedTexts :=
    fun text htext => List.mem_flatMap.2 ⟨stimulus, List.mem_cons_self, htext⟩
  have hstoredTexts : ∀ p ∈ x.sourcesAfter calls, ∀ content ∈ p.2.texts,
      ∀ text ∈ x.hashedTexts content, text ∈
        (stimulus :: (x.sourcesAfter calls).flatMap fun p => p.2.texts).flatMap x.hashedTexts :=
    fun p hp content hcontent text htext => List.mem_flatMap.2 ⟨content,
      List.mem_cons_of_mem stimulus (List.mem_flatMap.2 ⟨p, hp, hcontent⟩), htext⟩
  rcases RecognitionEngine.mem_weighed.1 hc with ⟨m, hm, rfl⟩ | ⟨m, hm, rfl⟩ | ⟨hon, d, hd, hc⟩
  · -- a pair: what was hashed for the stimulus and for the memory is the same
    obtain ⟨hstimulus, p, hp, hid, hstored⟩ :=
      (HoldingStore.mem_lookupPairs hholds).1 ⟨m, hm, rfl, rfl, rfl⟩
    obtain ⟨content, hcontent, hf⟩ :=
      exists_text_of_mem StimulusPrints.pairHashes (fun _ => rfl) hstored
    obtain ⟨f, hf', hhashes⟩ := List.mem_map.1 hstimulus
    obtain ⟨a, ha, b, hb, hstored⟩ := mem_pairHashes hf
    obtain ⟨a', ha', b', hb', rfl⟩ := mem_pairHashes hf'
    obtain ⟨hhash', hlabel⟩ := Prod.mk.inj hstored
    have hsame : pairText a.key b.key = pairText a'.key b'.key :=
      hhash _ (hstoredTexts p hp content hcontent _ (pairText_mem_hashedTexts ha hb)) _
        (hstimulusTexts _ (pairText_mem_hashedTexts ha' hb')) (hhash'.symm.trans hhashes.symm)
    have hkeyA := key_of_mem_extractLandmarks ha
    have hkeyB := key_of_mem_extractLandmarks hb
    obtain ⟨hlo, hhi⟩ := pairText_inj hkeyA hkeyB hsame
    exact ⟨p, hp, hid, Or.inl ⟨a.key, b.key, hlabel, hlo ▸ key_of_mem_extractLandmarks ha',
      hhi ▸ key_of_mem_extractLandmarks hb', content, hcontent, hkeyA, hkeyB⟩⟩
  · -- a run, likewise
    obtain ⟨hstimulus, p, hp, hid, hstored⟩ :=
      (HoldingStore.mem_lookupGrams hholds).1 ⟨m, hm, rfl, rfl, rfl⟩
    obtain ⟨content, hcontent, hf⟩ :=
      exists_text_of_mem StimulusPrints.gramHashes (fun _ => rfl) hstored
    obtain ⟨f, hf', hhashes⟩ := List.mem_map.1 hstimulus
    obtain ⟨w, hw, hstored⟩ := mem_gramHashes hf
    obtain ⟨w', hw', rfl⟩ := mem_gramHashes hf'
    obtain ⟨hhash', hlabel⟩ := Prod.mk.inj hstored
    have hsame : "rg1|" ++ " ".intercalate w = "rg1|" ++ " ".intercalate w' :=
      hhash _ (hstoredTexts p hp content hcontent _ (runText_mem_hashedTexts hw)) _
        (hstimulusTexts _ (runText_mem_hashedTexts hw')) (hhash'.symm.trans hhashes.symm)
    have hstretch := (infix_of_mem_windows hw).1
    have hstretch' := (infix_of_mem_windows hw').1
    have hrun : w = w' := run_inj (fun key hkey => hstretch.subset hkey)
      (fun key hkey => hstretch'.subset hkey) (ne_nil_of_mem_windows hw) (ne_nil_of_mem_windows hw')
      (String.append_right_inj _ |>.1 hsame)
    exact ⟨p, hp, hid, Or.inr (Or.inl ⟨w, hlabel, hrun ▸ hstretch', content, hcontent, hstretch⟩)⟩
  · -- a shingle set: its containment is the fraction
    obtain ⟨-, p, hp, hid, hshingles, -⟩ := (HoldingStore.mem_lookupMinhash hholds).1 hd
    have hcontainment : containment (x.shingleSet stimulus) d.2 = x.commonFraction stimulus p.2 := by
      rw [← hshingles]
      exact containment_eq_iff.2 (horder hon p hp)
    unfold minhashContribution at hc
    split at hc
    · cases hc
    · cases hc
      refine ⟨p, hp, hid, Or.inr (Or.inr ?_)⟩
      show "minhash: containment " ++ x.numerics.twoDecimals (containment (x.shingleSet stimulus) d.2) = _
      rw [hcontainment]

/-- **The evidence is what it says.**  The containments that are computed are the fractions in common
exactly when no shingle that the stimulus has came out of a hash set after a greater one.  Then every
row of the evidence is checked against the texts of the memory it cites.  What is not novel has
evidence, if any is shown. -/
theorem evidence_checked (σ : Type) [RecognitionStore σ] [HoldingStore σ] (x : Extractor)
    (order : ℕ → Shuffle UInt64) (calls : List PartsCall) (o : RecognitionOrders) (stimulus : String)
    (hhash : x.CollisionFree (stimulus :: (x.sourcesAfter calls).flatMap fun p => p.2.texts)) :
    ((0 < x.config.minhashWeight → ∀ p ∈ x.sourcesAfter calls,
        containment (x.shingleSet stimulus) (x.sourceShingles order p.2) =
          x.commonFraction stimulus p.2) ↔
      (0 < x.config.minhashWeight → ∀ p ∈ x.sourcesAfter calls, ∀ texts call,
        p.2 = .parts texts call → InOrder (x.shingleSet stimulus) (x.sourceShingles order p.2))) ∧
    ((0 < x.config.minhashWeight → ∀ p ∈ x.sourcesAfter calls, ∀ texts call,
        p.2 = .parts texts call → InOrder (x.shingleSet stimulus) (x.sourceShingles order p.2)) →
      ∀ row ∈ (RecognitionEngine.recognize x.recognizer o (storeAfterParts σ x order calls)
        stimulus).evidence, ∃ p ∈ x.sourcesAfter calls, p.1 = row.memoryId ∧
          x.Checked stimulus p.2 row.feature) ∧
    (0 < x.config.score.maxEvidence →
      (RecognitionEngine.recognize x.recognizer o (storeAfterParts σ x order calls)
        stimulus).verdict ≠ .novel →
      (RecognitionEngine.recognize x.recognizer o (storeAfterParts σ x order calls)
        stimulus).evidence ≠ []) := by
  have hparts : (∀ p ∈ x.sourcesAfter calls,
      InOrder (x.shingleSet stimulus) (x.sourceShingles order p.2)) ↔
      ∀ p ∈ x.sourcesAfter calls, ∀ texts call, p.2 = .parts texts call →
        InOrder (x.shingleSet stimulus) (x.sourceShingles order p.2) := by
    refine ⟨fun h p hp _ _ _ => h p hp, fun h p hp => ?_⟩
    cases hsource : p.2 with
    | text content => exact inOrder_text content
    | parts texts call => exact hsource ▸ h p hp texts call hsource
  simp only [containment_eq_iff, hparts, true_and]
  refine ⟨fun horder row hrow => ?_,
    @RecognitionEngine.evidence_ne_nil σ _ x.recognizer o _ stimulus⟩
  obtain ⟨c, hc, rfl⟩ := RecognitionEngine.exists_of_mem_evidence hrow
  exact checked_of_mem_weighed hhash (fun hon => hparts.2 (horder hon)) hc

end

/-- Three words are a text, and the parts of another memory. -/
theorem evidence_checked_three_words :
    (RecognitionEngine.recognize saidTwiceExtractor.recognizer {}
      (storeAfterParts RecognitionIndex saidTwiceExtractor (fun _ => .inOrder)
        [.enroll "m1" saidTwice, .enrollParts "m2" ["who can be"]]) "who can be").evidence.map
          Evidence.feature = ["minhash: containment 1.00", "minhash: containment 1.00"] ∧
    ∀ row ∈ (RecognitionEngine.recognize saidTwiceExtractor.recognizer {}
      (storeAfterParts RecognitionIndex saidTwiceExtractor (fun _ => .inOrder)
        [.enroll "m1" saidTwice, .enrollParts "m2" ["who can be"]]) "who can be").evidence,
      ∃ p ∈ saidTwiceExtractor.sourcesAfter [.enroll "m1" saidTwice, .enrollParts "m2" ["who can be"]],
        p.1 = row.memoryId ∧ saidTwiceExtractor.Checked "who can be" p.2 row.feature := by
  have horder : ∀ p ∈ saidTwiceExtractor.sourcesAfter
      [.enroll "m1" saidTwice, .enrollParts "m2" ["who can be"]],
      InOrder (saidTwiceExtractor.shingleSet "who can be")
        (saidTwiceExtractor.sourceShingles (fun _ => .inOrder) p.2) := by decide +kernel
  exact ⟨by decide +kernel, (evidence_checked RecognitionIndex saidTwiceExtractor (fun _ => .inOrder)
    [.enroll "m1" saidTwice, .enrollParts "m2" ["who can be"]] {} "who can be"
    (by decide +kernel)).2.1 fun _ p hp _ _ _ => horder p hp⟩

/-- **A containment of a half where everything is in common.**  The hash set gave the greater of two
shingles first, and the merge-count passes over the other one. -/
theorem half_of_reversed_shingles :
    (RecognitionEngine.recognize saidTwiceExtractor.recognizer {}
      (storeAfterParts InMemoryRecognitionStore saidTwiceExtractor (fun _ => .backwards)
        [.enrollParts "m1" ["who can be"]]) "who can be").evidence.map Evidence.feature =
      ["minhash: containment 0.50"] ∧
    saidTwiceExtractor.commonFraction "who can be" (.parts ["who can be"] 0) = 1 ∧
    ¬ saidTwiceExtractor.Checked "who can be" (.parts ["who can be"] 0)
      "minhash: containment 0.50" := by
  refine ⟨by decide +kernel, by decide +kernel, ?_⟩
  rintro (⟨lo, hi, hlabel, -⟩ | ⟨run, hlabel, -⟩ | hlabel)
  · have hchars := congrArg (fun s : String => s.toList.head?) hlabel
    simp [Extractor.pairLabel, String.toList_append] at hchars
  · have hchars := congrArg (fun s : String => s.toList.head?) hlabel
    simp [Extractor.runLabel, String.toList_append] at hchars
  · revert hlabel
    decide +kernel

end Spectral
