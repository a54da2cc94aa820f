import Spectral.Brain.Signing
import Spectral.Recognition.Accumulate

/-!
# Recognition of memories that are gone

A memory can be gone and still be enrolled.  `recognize` withdraws the ids it finds without a row,
and it looks for them in the traces: the five strongest memories.  The evidence is cut short on its
own.

* `mem_traces_scoreCandidates_iff`, `mem_evidence_scoreCandidates_iff` — what is among the traces
  and in the evidence, by how much is stronger.
* `dropDanglingTracesReading` — the withdrawal, where reads of the store can fail.
* `withdraws_iff` — whatever the index answers: everything that is gone is withdrawn, and nothing
  else, if and only if what the evidence names is named by the traces and these can be read.
* `recognize_withdraws_iff` — the same by the matches of the stimulus.
-/

namespace Spectral

open Spectral.Lib

/-! ## What is listed -/

/-- The score of a memory. -/
def scoreOf (cs : List Contribution) (id : String) : ℚ :=
  ((contributionsTo cs id).map fun c => c.evidence.weight).sum

/-- A memory is ahead of another one: by its score, or by its id when the scores are equal. -/
def Outscores (cs : List Contribution) (id other : String) : Prop :=
  scoreOf cs other < scoreOf cs id ∨ scoreOf cs id = scoreOf cs other ∧ id < other

instance (cs : List Contribution) (id other : String) : Decidable (Outscores cs id other) :=
  inferInstanceAs (Decidable (_ ∨ _ ∧ _))

/-- Fewer than `max_traces` of the matched memories are ahead of the memory. -/
def Listed (cs : List Contribution) (maxTraces : ℕ) (id : String) : Prop :=
  ((cs.map fun c => c.evidence.memoryId).dedup.countP fun other => decide (Outscores cs other id)) <
    maxTraces

instance (cs : List Contribution) (maxTraces : ℕ) (id : String) :
    Decidable (Listed cs maxTraces id) := inferInstanceAs (Decidable (_ < _))

/-- Fewer than `max_evidence` rows are ahead of the row. -/
def Cited (cs : List Contribution) (maxEvidence : ℕ) (e : Evidence) : Prop :=
  (cs.map Contribution.evidence).countP (fun x => decide (x.StrongerFirst e ∧ x ≠ e)) < maxEvidence

instance (cs : List Contribution) (maxEvidence : ℕ) (e : Evidence) :
    Decidable (Cited cs maxEvidence e) := inferInstanceAs (Decidable (_ < _))

theorem strongerFirst_traceOf_iff {cs : List Contribution} {n : ℕ} {id other : String} :
    (traceOf cs n other).StrongerFirst (traceOf cs n id) ∧ traceOf cs n other ≠ traceOf cs n id ↔
      Outscores cs other id := by
  have hne : traceOf cs n other ≠ traceOf cs n id ↔ other ≠ id :=
    not_congr ⟨fun h => congrArg TraceMatch.memoryId h, fun h => congrArg (traceOf cs n) h⟩
  rw [hne]
  show (scoreOf cs id < scoreOf cs other ∨ scoreOf cs other = scoreOf cs id ∧ other ≤ id) ∧
    other ≠ id ↔ Outscores cs other id
  constructor
  · rintro ⟨hlt | ⟨htie, hle⟩, hother⟩
    · exact Or.inl hlt
    · exact Or.inr ⟨htie, lt_of_le_of_ne hle hother⟩
  · rintro (hlt | ⟨htie, hlt⟩)
    · refine ⟨Or.inl hlt, ?_⟩
      rintro rfl
      exact lt_irrefl _ hlt
    · exact ⟨Or.inr ⟨htie, hlt.le⟩, hlt.ne⟩

/-- **The traces that are listed.** -/
theorem mem_take_rankedTraces_iff {cs : List Contribution} {n maxTraces : ℕ} {t : TraceMatch} :
    t ∈ (rankedTraces cs n).take maxTraces ↔
      ∃ id ∈ cs.map fun c => c.evidence.memoryId, Listed cs maxTraces id ∧ t = traceOf cs n id := by
  have hlisted : ∀ id ∈ (cs.map fun c => c.evidence.memoryId).dedup,
      traceOf cs n id ∈ (rankedTraces cs n).take maxTraces ↔ Listed cs maxTraces id := by
    intro id hid
    unfold rankedTraces
    rw [mem_take_insertionSort_iff ?_ (List.mem_map_of_mem hid), List.countP_map]
    · refine iff_of_eq (congrArg (· < maxTraces) (List.countP_congr fun other _ => ?_))
      simp only [Function.comp_apply, decide_eq_true_eq]
      exact strongerFirst_traceOf_iff
    · intro a ha b hb hab hba
      obtain ⟨id, -, rfl⟩ := List.mem_map.1 ha
      obtain ⟨other, -, rfl⟩ := List.mem_map.1 hb
      exact congrArg (traceOf cs n) (TraceMatch.StrongerFirst.memoryId_eq hab hba)
  constructor
  · intro ht
    obtain ⟨id, hid, rfl⟩ := List.mem_map.1 ((List.mem_insertionSort _).1 (List.mem_of_mem_take ht))
    exact ⟨id, List.mem_dedup.1 hid, (hlisted id hid).1 ht, rfl⟩
  · rintro ⟨id, hid, hlist, rfl⟩
    exact (hlisted id (List.mem_dedup.2 hid)).2 hlist

/-- **The evidence that is cited.** -/
theorem mem_take_evidence_iff {cs : List Contribution} {maxEvidence : ℕ} {e : Evidence} :
    e ∈ ((cs.map Contribution.evidence).insertionSort Evidence.StrongerFirst).take maxEvidence ↔
      e ∈ cs.map Contribution.evidence ∧ Cited cs maxEvidence e := by
  have hanti : ∀ a ∈ cs.map Contribution.evidence, ∀ b ∈ cs.map Contribution.evidence,
      a.StrongerFirst b → b.StrongerFirst a → a = b := fun _ _ _ _ => Evidence.StrongerFirst.antisymm
  constructor
  · intro he
    have hmem := (List.mem_insertionSort _).1 (List.mem_of_mem_take he)
    exact ⟨hmem, (mem_take_insertionSort_iff hanti hmem).1 he⟩
  · rintro ⟨hmem, hcited⟩
    exact (mem_take_insertionSort_iff hanti hmem).2 hcited

namespace RecognitionIndex

/-- What the matches of a stimulus add to the scores. -/
def matched (rc : Recognizer) (ix : RecognitionIndex) (stimulus : String) : List Contribution :=
  let prints := rc.fingerprintStimulus stimulus
  contributions rc.numerics rc.score (lookupTable ix.pairs prints.pairHashes)
    (lookupTable ix.grams prints.gramHashes) (ix.minhashMatches rc stimulus) ix.enrolled.rows.length
    rc.minhashWeight rc.minSimilarity

variable {rc : Recognizer} {ix : RecognitionIndex} {stimulus : String}

/-- The traces of an answer name the matched memories that few others are ahead of. -/
theorem exists_mem_traces_recognize_iff {id : String} :
    (∃ t ∈ (ix.recognize rc stimulus).traces, t.memoryId = id) ↔
      id ∈ (ix.matched rc stimulus).map (fun c => c.evidence.memoryId) ∧
        Listed (ix.matched rc stimulus) rc.score.maxTraces id := by
  constructor
  · rintro ⟨t, ht, rfl⟩
    obtain ⟨id, hid, hlisted, rfl⟩ := mem_take_rankedTraces_iff.1 ht
    exact ⟨hid, hlisted⟩
  · rintro ⟨hid, hlisted⟩
    exact ⟨_, mem_take_rankedTraces_iff.2 ⟨id, hid, hlisted, rfl⟩, rfl⟩

theorem mem_evidence_recognize_iff {e : Evidence} :
    e ∈ (ix.recognize rc stimulus).evidence ↔
      e ∈ (ix.matched rc stimulus).map Contribution.evidence ∧
        Cited (ix.matched rc stimulus) rc.score.maxEvidence e := mem_take_evidence_iff

/-- What is recognized is the first of the traces. -/
theorem exists_trace_of_recognized (hmax : 0 < rc.score.maxTraces) {id : String}
    (h : (ix.recognize rc stimulus).verdict = .recognized id) :
    ∃ t ∈ (ix.recognize rc stimulus).traces, t.memoryId = id := by
  obtain ⟨t, ht, hid⟩ := Option.map_eq_some_iff.1 (head?_of_verdictOf h)
  have hhead : (ix.recognize rc stimulus).traces.head? = some t := by
    show (List.take rc.score.maxTraces _).head? = some t
    rw [List.head?_take, if_neg hmax.ne']
    exact ht
  exact ⟨t, List.mem_of_mem_head? hhead, hid⟩

end RecognitionIndex

/-! ## What is withdrawn -/

namespace BrainState

variable {L : WingCache}

section

variable (S : BrainSetup) (b : BrainState L) (unread : String → Bool)

/-- The store answers with the memory. -/
def live (id : String) : Bool := !unread id && (b.getMemory id).isSome

/-- `dangling`: the ids of traces that the store does not answer with a memory for. -/
def dangling (raw : RecognitionResult) : List String :=
  (raw.traces.filter fun t => !b.live unread t.memoryId).map TraceMatch.memoryId

/-- `drop_dangling_traces`, where the reads of some ids fail. -/
def dropDanglingTracesReading (result : RecognitionResult) : RecognitionResult :=
  if b.dangling unread result = [] then result
  else
    { result with
      traces := result.traces.filter fun t => b.live unread t.memoryId
      evidence := result.evidence.filter fun e => decide (e.memoryId ∉ b.dangling unread result)
      verdict := match result.verdict with
        | .recognized id =>
          if id ∈ b.dangling unread result then .familiar else .recognized id
        | verdict => verdict }

/-- `recognize`, where the reads of some ids fail. -/
def recognizeReading (stimulus : String) : RecognitionResult :=
  b.dropDanglingTracesReading unread (b.index.recognize S.rc stimulus)

/-- **What is gone is withdrawn**, of an answer of the index, and nothing else is. -/
structure Withdraws (raw result : RecognitionResult) : Prop where
  names : ∀ id, result.Names id → b.cached.store.HasMemory id
  traces : result.traces = raw.traces.filter fun t => b.cached.store.HasMemory t.memoryId
  evidence : result.evidence = raw.evidence.filter fun e => b.cached.store.HasMemory e.memoryId
  verdict : result.verdict = raw.verdict ∨
    ∃ id, raw.verdict = .recognized id ∧ ¬ b.cached.store.HasMemory id ∧ result.verdict = .familiar

end

variable {S : BrainSetup} {b : BrainState L} {unread : String → Bool} {raw : RecognitionResult}
  {id : String}

theorem live_iff : b.live unread id = true ↔ unread id = false ∧ b.cached.store.HasMemory id := by
  unfold live
  rw [Bool.and_eq_true, Bool.not_eq_true', Option.isSome_iff_exists]
  exact and_congr_right fun _ => exists_congr fun r => Store.getMemory_eq_some

theorem mem_dangling : id ∈ b.dangling unread raw ↔
    (∃ t ∈ raw.traces, t.memoryId = id) ∧ ¬ b.live unread id = true := by
  unfold dangling
  rw [List.mem_map]
  constructor
  · rintro ⟨t, ht, rfl⟩
    obtain ⟨htrace, hgone⟩ := List.mem_filter.1 ht
    exact ⟨⟨t, htrace, rfl⟩, by simpa using hgone⟩
  · rintro ⟨⟨t, htrace, rfl⟩, hgone⟩
    exact ⟨t, List.mem_filter.2 ⟨htrace, by simpa using hgone⟩, rfl⟩

theorem live_of_read (id : String) : b.live (fun _ => false) id = (b.getMemory id).isSome := rfl

theorem dangling_of_read : b.dangling (fun _ => false) raw =
    (raw.traces.filter fun t => (b.getMemory t.memoryId).isNone).map TraceMatch.memoryId := by
  unfold dangling
  refine congrArg (List.map TraceMatch.memoryId) (List.filter_congr fun t _ => ?_)
  rw [live_of_read, Option.not_isSome]

/-- When every read succeeds, it is the withdrawal of a recognition. -/
theorem recognizeReading_of_read {stimulus : String} :
    b.recognizeReading S (fun _ => false) stimulus = b.recognize S stimulus := by
  unfold recognizeReading recognize dropDanglingTracesReading dropDanglingTraces
  rw [dangling_of_read]
  rfl

/-! The three parts of what is left, whether or not something dangles. -/

theorem traces_dropDanglingTracesReading : (b.dropDanglingTracesReading unread raw).traces =
    raw.traces.filter fun t => b.live unread t.memoryId := by
  unfold dropDanglingTracesReading
  split
  · rename_i hnone
    refine (List.filter_eq_self.2 fun t ht => ?_).symm
    by_contra hgone
    have hmem : t.memoryId ∈ b.dangling unread raw := mem_dangling.2 ⟨⟨t, ht, rfl⟩, hgone⟩
    rw [hnone] at hmem
    exact absurd hmem List.not_mem_nil
  · rfl

theorem evidence_dropDanglingTracesReading : (b.dropDanglingTracesReading unread raw).evidence =
    raw.evidence.filter fun e => decide (e.memoryId ∉ b.dangling unread raw) := by
  unfold dropDanglingTracesReading
  split
  · rename_i hnone
    refine (List.filter_eq_self.2 fun e _ => decide_eq_true ?_).symm
    rw [hnone]
    exact List.not_mem_nil
  · rfl

theorem verdict_dropDanglingTracesReading : (b.dropDanglingTracesReading unread raw).verdict =
    match raw.verdict with
    | .recognized id => if id ∈ b.dangling unread raw then .familiar else .recognized id
    | verdict => verdict := by
  unfold dropDanglingTracesReading
  split
  · rename_i hnone
    cases raw.verdict with
    | recognized id => simp [hnone]
    | familiar => rfl
    | novel => rfl
  · rfl

/-- What is recognized afterwards was so before, and does not dangle. -/
theorem recognized_dropDanglingTracesReading
    (h : (b.dropDanglingTracesReading unread raw).verdict = .recognized id) :
    raw.verdict = .recognized id ∧ id ∉ b.dangling unread raw := by
  rw [verdict_dropDanglingTracesReading] at h
  cases hraw : raw.verdict with
  | recognized other =>
    rw [hraw] at h
    dsimp only at h
    split_ifs at h with hmem
    cases h
    exact ⟨rfl, hmem⟩
  | familiar =>
    rw [hraw] at h
    cases h
  | novel =>
    rw [hraw] at h
    cases h

/-- What is gone dangles once a trace names it. -/
theorem mem_dangling_of_gone (htrace : ∃ t ∈ raw.traces, t.memoryId = id)
    (hgone : ¬ b.cached.store.HasMemory id) : id ∈ b.dangling unread raw :=
  mem_dangling.2 ⟨htrace, fun hlive => hgone (live_iff.1 hlive).2⟩

/-! Where the traces of stored memories can be read. -/

section

variable
  (hread : ∀ t ∈ raw.traces, b.cached.store.HasMemory t.memoryId → unread t.memoryId = false)

include hread

/-- What is stored does not dangle. -/
theorem not_mem_dangling_of_stored (hmemory : b.cached.store.HasMemory id) :
    id ∉ b.dangling unread raw := by
  intro hmem
  obtain ⟨⟨t, ht, rfl⟩, hgone⟩ := mem_dangling.1 hmem
  exact hgone (live_iff.2 ⟨hread t ht hmemory, hmemory⟩)

theorem traces_eq_stored : (b.dropDanglingTracesReading unread raw).traces =
    raw.traces.filter fun t => b.cached.store.HasMemory t.memoryId := by
  rw [traces_dropDanglingTracesReading]
  refine List.filter_congr fun t ht => ?_
  rw [Bool.eq_iff_iff, live_iff, decide_eq_true_iff]
  exact and_iff_right_of_imp (hread t ht)

theorem evidence_eq_stored
    (hlisted : ∀ e ∈ raw.evidence, ¬ b.cached.store.HasMemory e.memoryId →
      ∃ t ∈ raw.traces, t.memoryId = e.memoryId) :
    (b.dropDanglingTracesReading unread raw).evidence =
      raw.evidence.filter fun e => b.cached.store.HasMemory e.memoryId := by
  rw [evidence_dropDanglingTracesReading]
  refine List.filter_congr fun e he => ?_
  rw [Bool.eq_iff_iff, decide_eq_true_iff, decide_eq_true_iff]
  refine ⟨fun hnot => ?_, not_mem_dangling_of_stored hread⟩
  by_contra hmemory
  exact hnot (mem_dangling_of_gone (hlisted e he hmemory) hmemory)

end

/-- **Whatever the index answers**: the withdrawal is right exactly when the traces of stored
memories can be read, and name everything gone that the evidence names. -/
theorem withdraws_iff
    (hverdict : ∀ id, raw.verdict = .recognized id → ∃ t ∈ raw.traces, t.memoryId = id) :
    b.Withdraws raw (b.dropDanglingTracesReading unread raw) ↔
      (∀ t ∈ raw.traces, b.cached.store.HasMemory t.memoryId → unread t.memoryId = false) ∧
        ∀ e ∈ raw.evidence, ¬ b.cached.store.HasMemory e.memoryId →
          ∃ t ∈ raw.traces, t.memoryId = e.memoryId := by
  constructor
  · intro h
    refine ⟨fun t ht hmemory => ?_, fun e he hgone => ?_⟩
    · have hkept : t ∈ raw.traces.filter fun t => b.live unread t.memoryId := by
        rw [← traces_dropDanglingTracesReading, h.traces]
        exact List.mem_filter.2 ⟨ht, decide_eq_true hmemory⟩
      exact (live_iff.1 (List.mem_filter.1 hkept).2).1
    · by_contra hnone
      have hkept : e ∈ raw.evidence.filter fun e =>
          decide (e.memoryId ∉ b.dangling unread raw) :=
        List.mem_filter.2 ⟨he, decide_eq_true fun hmem => hnone (mem_dangling.1 hmem).1⟩
      rw [← evidence_dropDanglingTracesReading] at hkept
      exact hgone (h.names e.memoryId (Or.inr (Or.inl ⟨e, hkept, rfl⟩)))
  · rintro ⟨hread, hlisted⟩
    refine ⟨?_, traces_eq_stored hread, evidence_eq_stored hread hlisted, ?_⟩
    · rintro id (⟨t, ht, rfl⟩ | ⟨e, he, rfl⟩ | h)
      · rw [traces_eq_stored hread] at ht
        exact of_decide_eq_true (List.mem_filter.1 ht).2
      · rw [evidence_eq_stored hread hlisted] at he
        exact of_decide_eq_true (List.mem_filter.1 he).2
      · obtain ⟨hraw, hnot⟩ := recognized_dropDanglingTracesReading h
        by_contra hmemory
        exact hnot (mem_dangling_of_gone (hverdict id hraw) hmemory)
    · rw [verdict_dropDanglingTracesReading]
      cases hraw : raw.verdict with
      | recognized id =>
        by_cases hmem : id ∈ b.dangling unread raw
        · exact Or.inr ⟨id, rfl, fun hmemory => not_mem_dangling_of_stored hread hmemory hmem,
            if_pos hmem⟩
        · exact Or.inl (if_neg hmem)
      | familiar => exact Or.inl rfl
      | novel => exact Or.inl rfl

/-! ## By the matches of a stimulus -/

/-- The matched memories that are stored and listed can be read, and those that are gone are listed
if they are cited. -/
structure Withdrawable (S : BrainSetup) (b : BrainState L) (unread : String → Bool)
    (stimulus : String) : Prop where
  read : ∀ c ∈ b.index.matched S.rc stimulus, b.cached.store.HasMemory c.evidence.memoryId →
    Listed (b.index.matched S.rc stimulus) S.rc.score.maxTraces c.evidence.memoryId →
      unread c.evidence.memoryId = false
  listed : ∀ c ∈ b.index.matched S.rc stimulus, ¬ b.cached.store.HasMemory c.evidence.memoryId →
    Cited (b.index.matched S.rc stimulus) S.rc.score.maxEvidence c.evidence →
      Listed (b.index.matched S.rc stimulus) S.rc.score.maxTraces c.evidence.memoryId

/-- **The public recognition**, of any stimulus in any brain, names only what is stored and keeps
all of it exactly when the memories that are gone and cited are listed. -/
theorem recognize_withdraws_iff (S : BrainSetup) (b : BrainState L) (unread : String → Bool)
    (stimulus : String) (hmax : 0 < S.rc.score.maxTraces) :
    b.Withdraws (b.index.recognize S.rc stimulus) (b.recognizeReading S unread stimulus) ↔
      b.Withdrawable S unread stimulus := by
  unfold recognizeReading
  rw [withdraws_iff fun id h => RecognitionIndex.exists_trace_of_recognized hmax h]
  constructor
  · rintro ⟨hread, hlisted⟩
    refine ⟨fun c hc hmemory hlist => ?_, fun c hc hgone hcited => ?_⟩
    · obtain ⟨t, ht, hid⟩ := RecognitionIndex.exists_mem_traces_recognize_iff.2
        ⟨List.mem_map_of_mem hc, hlist⟩
      rw [← hid] at hmemory ⊢
      exact hread t ht hmemory
    · exact (RecognitionIndex.exists_mem_traces_recognize_iff.1 (hlisted c.evidence
        (RecognitionIndex.mem_evidence_recognize_iff.2 ⟨List.mem_map_of_mem hc, hcited⟩) hgone)).2
  · rintro ⟨hread, hlisted⟩
    refine ⟨fun t ht hmemory => ?_, fun e he hgone => ?_⟩
    · obtain ⟨hmatched, hlist⟩ := RecognitionIndex.exists_mem_traces_recognize_iff.1 ⟨t, ht, rfl⟩
      obtain ⟨c, hc, hid⟩ := List.mem_map.1 hmatched
      rw [← hid] at hmemory hlist ⊢
      exact hread c hc hmemory hlist
    · obtain ⟨hmatched, hcited⟩ := RecognitionIndex.mem_evidence_recognize_iff.1 he
      obtain ⟨c, hc, rfl⟩ := List.mem_map.1 hmatched
      exact RecognitionIndex.exists_mem_traces_recognize_iff.2
        ⟨List.mem_map_of_mem hc, hlisted c hc hgone hcited⟩

/-! ## A note that is gone -/

/-- The note under several keys. -/
def notedUnder (keys : List String) : List BrainCall :=
  keys.map fun key =>
    ⟨.remember key note.content "2026-01-03 08:30:00" {} [], "2026-01-03 09:00:00", {}⟩

/-- Five notes, one of which is deleted and stays enrolled. -/
def oneOfFiveGone : List BrainCall :=
  notedUnder ["note", "note 2", "note 3", "note 5", "note 6"] ++
    [⟨.store (.deleteMemoryByKey "note 2"), "2026-01-03 10:00:00", {}⟩]

/-- Five are all listed, and the one that is gone is withdrawn. -/
theorem withdrawn_of_five :
    let b := run (apply diaryBrain) (opened wingCache) oneOfFiveGone
    b.Withdraws (b.index.recognize diaryBrain.rc note.content)
      (b.recognizeReading diaryBrain (fun _ => false) note.content) := by
  have hlisted : ∀ c ∈ (run (apply diaryBrain) (opened wingCache) oneOfFiveGone).index.matched
      diaryBrain.rc note.content,
      Listed ((run (apply diaryBrain) (opened wingCache) oneOfFiveGone).index.matched diaryBrain.rc
        note.content) diaryBrain.rc.score.maxTraces c.evidence.memoryId := by decide +kernel
  exact (recognize_withdraws_iff diaryBrain _ (fun _ => false) note.content (by decide)).2
    ⟨fun _ _ _ _ => rfl, fun c hc _ _ => hlisted c hc⟩

/-- Six notes, of which the last by id is deleted and stays enrolled. -/
def oneOfSixGone : List BrainCall :=
  notedUnder ["note", "note 2", "note 3", "note 4", "note 5", "note 6"] ++
    [⟨.store (.deleteMemoryByKey "note 4"), "2026-01-03 10:00:00", {}⟩]

/-- **The sixth is cited**: it is not among the five traces, and the evidence names it, once for
its words and once for its pair. -/
theorem deleted_note_cited :
    let b := run (apply diaryBrain) (opened wingCache) oneOfSixGone
    ¬ b.cached.store.HasMemory "94dd1bc2810a263f" ∧
      (b.recognize diaryBrain note.content).evidence.countP
          (fun e => decide (e.memoryId = "94dd1bc2810a263f")) = 2 ∧
      ¬ b.Withdraws (b.index.recognize diaryBrain.rc note.content)
        (b.recognize diaryBrain note.content) := by
  intro b
  have hgone : ¬ b.cached.store.HasMemory "94dd1bc2810a263f" := by decide +kernel
  have hcited : (b.recognize diaryBrain note.content).evidence.countP
      (fun e => decide (e.memoryId = "94dd1bc2810a263f")) = 2 := by decide +kernel
  clear_value b
  refine ⟨hgone, hcited, fun h => ?_⟩
  have hpos : 0 < (b.recognize diaryBrain note.content).evidence.countP
      (fun e => decide (e.memoryId = "94dd1bc2810a263f")) := by omega
  obtain ⟨e, he, hid⟩ := List.countP_pos_iff.1 hpos
  exact hgone (h.names _ (Or.inr (Or.inl ⟨e, he, of_decide_eq_true hid⟩)))

end BrainState

end Spectral
