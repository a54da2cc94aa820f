import Mathlib.Data.List.Sort
import Mathlib.Algebra.Order.Ring.Rat
import Spectral.Lib.HashMap
import Spectral.Lib.Run

/-!
# The stream tracker

`StreamTracker` watches a stream of cues and notices when it runs along a segment it knows.  It
holds hypotheses, pairs of a segment and the offset it expects next, each with a score, and a lock
on the segment that leads.  Its maps are run through in orders of their own (`StreamOrders`).

* `observe` — what one cue does to the hypotheses and to the lock.
* `replayEvent` — the events, as instructions to someone who keeps the lock.
* `stream_discipline` — what holds after every stream of cues.
-/

namespace Spectral

open Spectral.Lib

/-! ## Cues -/

/-- `Cue`: eight small buckets. -/
abbrev Cue := Fin 8 → UInt16

/-- `PEAK_SLOTS`. -/
def isPeakSlot (i : Fin 8) : Bool := decide (3 ≤ i.val) && decide (i.val < 7)

/-- The nonzero buckets of the peak slots, as a set. -/
def peakSet (c : Cue) : List UInt16 :=
  ((((List.finRange 8).filter isPeakSlot).map c).filter fun v => v ≠ 0).dedup

/-- `cue_similarity`. -/
def cueSimilarity (a b : Cue) : ℚ :=
  let structural := (List.finRange 8).filter fun i => !isPeakSlot i
  let eq : ℚ := structural.countP fun i => a i = b i
  let total : ℚ := structural.length
  let setA := peakSet a
  let setB := peakSet b
  if setA ≠ [] ∨ setB ≠ [] then
    let inter : ℚ := setA.countP fun v => v ∈ setB
    let union : ℚ := setA.length + setB.length - inter
    (eq + 4 * if 0 < union then inter / union else 0) / (total + 4)
  else if total = 0 then 0 else eq / total

/-! ## The tracker -/

/-- `Segment`. -/
structure Segment where
  id : String
  cues : List Cue

/-- `StreamConfig`. -/
structure StreamConfig where
  matchThreshold : ℚ := 1 / 2
  matchBonus : ℚ := 1
  missPenalty : ℚ := 6 / 10
  decay : ℚ := 9 / 10
  seed : ℚ := 3 / 10
  lockThreshold : ℚ := 2
  lockMargin : ℚ := 14 / 10
  lostAfterMisses : ℕ := 3
  floor : ℚ := 5 / 100
  minSharedFields : ℕ := 3
  maxSuspects : ℕ := 512
  deriving DecidableEq

/-- `StreamEvent`. -/
inductive StreamEvent where
  | lockAcquired (segmentId : String) (offset : ℕ) (score : ℚ)
  | lockLost (segmentId : String) (atOffset : ℕ)
  | lockTransferred (fromId toId : String) (score : ℚ)
  deriving DecidableEq

/-- A hypothesis with its score: a segment, the offset expected next, and the belief in it. -/
abbrev Belief := (ℕ × ℕ) × ℚ

/-- `StreamTracker`.  The lock is a segment, an offset, and how many cues in a row missed it. -/
structure StreamTracker where
  config : StreamConfig
  segments : List Segment := []
  index : HashMap (Fin 8 × UInt16) (List (ℕ × ℕ)) := .empty
  suspects : HashMap (ℕ × ℕ) ℚ := .empty
  locked : Option (ℕ × ℕ × ℕ) := none

/-- The orders in which a cue's processing runs through the hash maps. -/
structure StreamOrders where
  suspects : Shuffle Belief := .inOrder
  fieldHits : Shuffle ((ℕ × ℕ) × ℕ) := .inOrder
  strongest : Shuffle Belief := .inOrder
  ranked : Shuffle Belief := .inOrder

/-- The fields of a cue that are indexed. -/
def indexedFields (cue : Cue) : List (Fin 8 × UInt16) :=
  ((List.finRange 8).filter fun i => !(isPeakSlot i && decide (cue i = 0))).map fun i => (i, cue i)

/-- `f64::MIN`. -/
def f64Min : ℚ := -(2 ^ 1024 - 2 ^ 971)

/-- One candidate offset, with what is taken off for it; it is taken when it is more similar. -/
def tryOffset (cue : Cue) (cues : List Cue) (best : ℚ × ℕ) (candidate : ℕ × ℚ) : ℚ × ℕ :=
  match cues[candidate.1]? with
  | none => best
  | some reference =>
    let sim := cueSimilarity cue reference - candidate.2
    if best.1 < sim then (sim, candidate.1 + 1) else best

/-- `best`: the offset expected, or the one after it. -/
def bestOffset (cue : Cue) (cues : List Cue) (expected : ℕ) : ℚ × ℕ :=
  [(expected, 0), (expected + 1, 15 / 100)].foldl (tryOffset cue cues) (f64Min, expected + 1)

/-- The best hypothesis first. -/
def byScore (l : List Belief) : List Belief := l.insertionSort fun a b => b.2 ≤ a.2

namespace StreamTracker

section

variable (t : StreamTracker) (cue : Cue)

/-- The id of a segment. -/
def segmentId (seg : ℕ) : String := (t.segments[seg]?.map Segment.id).getD ""

/-- `enroll_segment`. -/
def enrollSegment (segment : Segment) : StreamTracker :=
  { t with
    segments := t.segments ++ [segment]
    index := (segment.cues.zipIdx.flatMap fun c => (indexedFields c.1).map fun f =>
        (f, (t.segments.length, c.2))).foldl
      (fun index e => index.entry e.1 [] fun positions => positions ++ [e.2]) t.index }

/-- What becomes of a hypothesis: it advances, holds its offset, or is dropped. -/
def advance (h : Belief) : Option Belief :=
  match t.segments[h.1.1]? with
  | none => none
  | some seg =>
    if seg.cues.length ≤ h.1.2 then none
    else
      let (sim, nextOff) := bestOffset cue seg.cues h.1.2
      let isMatch := decide (t.config.matchThreshold ≤ sim)
      let updated := if isMatch then h.2 * t.config.decay + t.config.matchBonus * sim
        else h.2 * t.config.decay - t.config.missPenalty
      if t.config.floor < updated then
        some ((h.1.1, if isMatch then nextOff else h.1.2), updated)
      else none

/-- `field_hits`: how many fields of the cue each indexed position has. -/
def fieldHits : HashMap (ℕ × ℕ) ℕ :=
  HashMap.groupFold (fun position => position) 0 (fun _ n => n + 1)
    ((indexedFields cue).flatMap fun f => (t.index.get? f).getD [])

/-- A fresh hypothesis, after a position that shares enough fields. -/
def seedAt (hit : (ℕ × ℕ) × ℕ) : Option Belief :=
  if t.config.minSharedFields ≤ hit.2 then
    some ((hit.1.1, hit.1.2 + 1), t.config.seed * hit.2 / 8)
  else none

/-- `next`: the hypotheses that advanced, and the fresh ones; of two scores for one the greater is
kept. -/
def next (o : StreamOrders) : HashMap (ℕ × ℕ) ℚ :=
  HashMap.groupFold Prod.fst 0 (fun h score => max score h.2)
    ((o.suspects.run t.suspects.entries).filterMap (t.advance cue) ++
      (o.fieldHits.run (t.fieldHits cue).entries).filterMap t.seedAt)

/-- The strongest hypotheses, if there are too many. -/
def capped (o : StreamOrders) : HashMap (ℕ × ℕ) ℚ :=
  if t.config.maxSuspects < (t.next cue o).entries.length then
    .collect ((byScore (o.strongest.run (t.next cue o).entries)).take t.config.maxSuspects)
  else t.next cue o

/-- A cue on which the locked segment does not lead. -/
def missed (seg off misses : ℕ) : Option (ℕ × ℕ × ℕ) × List StreamEvent :=
  if t.config.lostAfterMisses ≤ misses + 1 then (none, [.lockLost (t.segmentId seg) off])
  else (some (seg, off, misses + 1), [])

/-- The lock state machine, from the leading hypothesis and the score of the one after it. -/
def lockStep (top : Option Belief) (runnerUp : ℚ) : Option (ℕ × ℕ × ℕ) × List StreamEvent :=
  match t.locked, top with
  | none, none => (none, [])
  | none, some ((seg, off), score) =>
    if t.config.lockThreshold ≤ score ∧ runnerUp * t.config.lockMargin ≤ score then
      (some (seg, off, 0), [.lockAcquired (t.segmentId seg) off score])
    else (none, [])
  | some (seg, off, misses), none => t.missed seg off misses
  | some (seg, off, misses), some ((s, newOff), score) =>
    if s = seg ∧ t.config.lockThreshold ≤ score then (some (seg, newOff, 0), [])
    else if s ≠ seg ∧ t.config.lockThreshold ≤ score ∧ runnerUp * t.config.lockMargin ≤ score then
      (some (s, newOff, 0), [.lockTransferred (t.segmentId seg) (t.segmentId s) score])
    else t.missed seg off misses

/-- The hypotheses after a cue, the best one first. -/
def ranking (o : StreamOrders) : List Belief := byScore (o.ranked.run (t.capped cue o).entries)

/-- `observe`. -/
def observe (o : StreamOrders) : StreamTracker × List StreamEvent :=
  let ranked := t.ranking cue o
  let (locked, events) := t.lockStep ranked.head? ((ranked[1]?.map Prod.snd).getD 0)
  ({ t with suspects := t.capped cue o, locked }, events)

/-- `current_lock`. -/
def currentLock : Option (String × ℕ) := t.locked.map fun l => (t.segmentId l.1, l.2.1)

end

/-! ## Streams -/

/-- A tracker for a catalogue of segments. -/
def ofCatalogue (config : StreamConfig) (segments : List Segment) : StreamTracker :=
  segments.foldl enrollSegment { config }

/-- A cue with the orders of its processing, and the events added to those before. -/
def step (s : StreamTracker × List StreamEvent) (c : Cue × StreamOrders) :
    StreamTracker × List StreamEvent :=
  ((s.1.observe c.1 c.2).1, s.2 ++ (s.1.observe c.1 c.2).2)

/-- The tracker and all events after a stream of cues. -/
def stream (config : StreamConfig) (segments : List Segment) (cues : List (Cue × StreamOrders)) :
    StreamTracker × List StreamEvent := run step (ofCatalogue config segments, []) cues

end StreamTracker

/-- What an event tells someone who keeps the segment that is locked; nothing, if it is out of
place. -/
def replayEvent (lock : Option String) : StreamEvent → Option (Option String)
  | .lockAcquired id _ _ => if lock = none then some (some id) else none
  | .lockLost id _ => if lock = some id then some none else none
  | .lockTransferred fromId toId _ => if lock = some fromId then some (some toId) else none

/-! ## What the lock does -/

namespace StreamTracker

variable {t : StreamTracker} {cue : Cue} {o : StreamOrders} {config : StreamConfig}
  {segments : List Segment}

/-- The hypotheses are led by the segment, at the threshold or above. -/
def Leads (t : StreamTracker) (cue : Cue) (o : StreamOrders) (seg : ℕ) : Prop :=
  ∃ off score, (t.ranking cue o).head? = some ((seg, off), score) ∧ t.config.lockThreshold ≤ score

/-- What a step of the lock can be: nothing, a lock acquired, continued or transferred, or a miss. -/
theorem lockStep_cases (t : StreamTracker) (top : Option Belief) (runnerUp : ℚ) :
    (t.locked = none ∧ t.lockStep top runnerUp = (none, [])) ∨
    (∃ seg off score, t.locked = none ∧
      t.lockStep top runnerUp = (some (seg, off, 0), [.lockAcquired (t.segmentId seg) off score])) ∨
    (∃ seg off misses newOff score, t.locked = some (seg, off, misses) ∧
      top = some ((seg, newOff), score) ∧ t.config.lockThreshold ≤ score ∧
      t.lockStep top runnerUp = (some (seg, newOff, 0), [])) ∨
    (∃ seg off misses s newOff score, t.locked = some (seg, off, misses) ∧
      t.lockStep top runnerUp =
        (some (s, newOff, 0), [.lockTransferred (t.segmentId seg) (t.segmentId s) score])) ∨
    ∃ seg off misses, t.locked = some (seg, off, misses) ∧
      (∀ newOff score, top = some ((seg, newOff), score) → ¬ t.config.lockThreshold ≤ score) ∧
      t.lockStep top runnerUp = t.missed seg off misses := by
  unfold lockStep
  cases hlocked : t.locked with
  | none =>
    cases top with
    | none => exact Or.inl ⟨rfl, rfl⟩
    | some h =>
      obtain ⟨⟨seg, off⟩, score⟩ := h
      dsimp only
      split
      · exact Or.inr (Or.inl ⟨seg, off, score, rfl, rfl⟩)
      · exact Or.inl ⟨rfl, rfl⟩
  | some l =>
    obtain ⟨seg, off, misses⟩ := l
    right; right
    cases top with
    | none => exact Or.inr (Or.inr ⟨seg, off, misses, rfl, nofun, rfl⟩)
    | some h =>
      obtain ⟨⟨s, newOff⟩, score⟩ := h
      dsimp only
      split
      · rename_i hcontinues
        obtain ⟨rfl, hscore⟩ := hcontinues
        exact Or.inl ⟨s, off, misses, newOff, score, rfl, rfl, hscore, rfl⟩
      · rename_i hleft
        split
        · exact Or.inr (Or.inl ⟨seg, off, misses, s, newOff, score, rfl, rfl⟩)
        · refine Or.inr (Or.inr ⟨seg, off, misses, rfl, fun newOff' score' htop hscore => ?_, rfl⟩)
          simp only [Option.some.injEq, Prod.mk.injEq] at htop
          obtain ⟨⟨rfl, -⟩, rfl⟩ := htop
          exact hleft ⟨rfl, hscore⟩

/-- **The events of a step** lead from the lock before to the lock after. -/
theorem replay_lockStep (t : StreamTracker) (top : Option Belief) (runnerUp : ℚ) :
    (t.lockStep top runnerUp).2.foldlM replayEvent (t.locked.map fun l => t.segmentId l.1) =
      some ((t.lockStep top runnerUp).1.map fun l => t.segmentId l.1) := by
  rcases t.lockStep_cases top runnerUp with ⟨hlocked, hstep⟩ | ⟨seg, off, score, hlocked, hstep⟩ |
    ⟨seg, off, misses, newOff, score, hlocked, -, -, hstep⟩ |
    ⟨seg, off, misses, s, newOff, score, hlocked, hstep⟩ | ⟨seg, off, misses, hlocked, -, hstep⟩
  · rw [hstep, hlocked]
    rfl
  · rw [hstep, hlocked]
    rfl
  · rw [hstep, hlocked]
    rfl
  · rw [hstep, hlocked]
    simp [replayEvent]
  · rw [hstep, hlocked]
    unfold missed
    split <;> simp [replayEvent]

/-- A lock is lost in a miss, when there were enough. -/
theorem missed_of_lockLost {top : Option Belief} {runnerUp : ℚ} {id : String} {atOffset : ℕ}
    (h : .lockLost id atOffset ∈ (t.lockStep top runnerUp).2) :
    ∃ seg off misses, t.locked = some (seg, off, misses) ∧ t.segmentId seg = id ∧
      t.config.lostAfterMisses ≤ misses + 1 ∧
      ∀ newOff score, top = some ((seg, newOff), score) → ¬ t.config.lockThreshold ≤ score := by
  rcases t.lockStep_cases top runnerUp with ⟨-, hstep⟩ | ⟨seg, off, score, -, hstep⟩ |
    ⟨seg, off, misses, newOff, score, -, -, -, hstep⟩ |
    ⟨seg, off, misses, s, newOff, score, -, hstep⟩ | ⟨seg, off, misses, hlocked, hleft, hstep⟩
  · simp [hstep] at h
  · simp [hstep] at h
  · simp [hstep] at h
  · simp [hstep] at h
  · rw [hstep, missed] at h
    split at h
    · rename_i henough
      simp only [List.mem_singleton, StreamEvent.lockLost.injEq] at h
      exact ⟨seg, off, misses, hlocked, h.1.symm, henough, hleft⟩
    · exact absurd h List.not_mem_nil

/-- A lock with misses was there before, and missed. -/
theorem missed_of_locked {top : Option Belief} {runnerUp : ℚ} {seg off misses : ℕ}
    (h : (t.lockStep top runnerUp).1 = some (seg, off, misses + 1)) :
    t.locked = some (seg, off, misses) ∧
      ∀ newOff score, top = some ((seg, newOff), score) → ¬ t.config.lockThreshold ≤ score := by
  rcases t.lockStep_cases top runnerUp with ⟨-, hstep⟩ | ⟨seg', off', score, -, hstep⟩ |
    ⟨seg', off', misses', newOff, score, -, -, -, hstep⟩ |
    ⟨seg', off', misses', s, newOff, score, -, hstep⟩ | ⟨seg', off', misses', hlocked, hleft, hstep⟩
  · simp [hstep] at h
  · simp [hstep] at h
  · simp [hstep] at h
  · simp [hstep] at h
  · rw [hstep, missed] at h
    split at h
    · cases h
    · simp only [Option.some.injEq, Prod.mk.injEq, Nat.add_right_cancel_iff] at h
      obtain ⟨rfl, rfl, rfl⟩ := h
      exact ⟨hlocked, hleft⟩

/-! ## What the table holds -/

/-- The offset is at most the length of its segment. -/
def Placed (t : StreamTracker) (k : ℕ × ℕ) : Prop :=
  ∃ seg, t.segments[k.1]? = some seg ∧ k.2 ≤ seg.cues.length

/-- The positions in the index are positions in segments. -/
def Indexed (t : StreamTracker) : Prop :=
  ∀ f, ∀ p ∈ (t.index.get? f).getD [], ∃ seg, t.segments[p.1]? = some seg ∧ p.2 < seg.cues.length

theorem bestOffset_le {cues : List Cue} {expected : ℕ} (h : expected < cues.length) :
    (bestOffset cue cues expected).2 ≤ cues.length := by
  have htry : ∀ best candidate, best.2 ≤ cues.length →
      (tryOffset cue cues best candidate).2 ≤ cues.length := by
    intro best candidate hbest
    unfold tryOffset
    cases hcue : cues[candidate.1]? with
    | none => exact hbest
    | some reference =>
      have hlt : candidate.1 < cues.length := (List.getElem?_eq_some_iff.1 hcue).1
      dsimp only
      split
      · exact hlt
      · exact hbest
  exact htry _ _ (htry _ _ h)

/-- A hypothesis that advances, or holds, stays within its segment. -/
theorem placed_of_advance {h h' : Belief} (hadvance : t.advance cue h = some h') :
    t.Placed h'.1 := by
  unfold advance at hadvance
  split at hadvance
  · cases hadvance
  · rename_i seg hseg
    split at hadvance
    · cases hadvance
    · rename_i hlt
      dsimp only at hadvance
      obtain ⟨-, hkept⟩ := Option.ite_none_right_eq_some.1 hadvance
      obtain rfl := Option.some.inj hkept
      refine ⟨seg, hseg, ?_⟩
      dsimp only
      split
      · exact bestOffset_le (not_le.1 hlt)
      · exact (not_le.1 hlt).le

theorem placed_of_seedAt (ht : t.Indexed) {hit : (ℕ × ℕ) × ℕ} {h : Belief}
    (hhit : hit ∈ (t.fieldHits cue).entries) (hseed : t.seedAt hit = some h) : t.Placed h.1 := by
  have hkey : hit.1 ∈ (t.fieldHits cue).keys := List.mem_map_of_mem hhit
  obtain ⟨n, hget⟩ := HashMap.mem_keys.1 hkey
  rw [fieldHits, HashMap.get?_groupFold] at hget
  split at hget
  · rename_i hmem
    rw [List.map_id'] at hmem
    obtain ⟨f, -, hp⟩ := List.mem_flatMap.1 hmem
    obtain ⟨seg, hseg, hlt⟩ := ht f hit.1 hp
    unfold seedAt at hseed
    split at hseed
    · cases hseed
      exact ⟨seg, hseg, hlt⟩
    · cases hseed
  · cases hget

theorem placed_of_mem_next (ht : t.Indexed) {h : Belief} (hmem : h ∈ (t.next cue o).entries) :
    t.Placed h.1 := by
  have hkey : h.1 ∈ (t.next cue o).keys := List.mem_map_of_mem hmem
  obtain ⟨score, hget⟩ := HashMap.mem_keys.1 hkey
  rw [next, HashMap.get?_groupFold] at hget
  split at hget
  · rename_i hfrom
    obtain ⟨h', hh', hkey⟩ := List.mem_map.1 hfrom
    rw [← hkey]
    rcases List.mem_append.1 hh' with hh' | hh'
    · obtain ⟨b, -, hb⟩ := List.mem_filterMap.1 hh'
      exact placed_of_advance hb
    · obtain ⟨hit, hhit, hseed⟩ := List.mem_filterMap.1 hh'
      exact placed_of_seedAt ht ((o.fieldHits.perm _).mem_iff.1 hhit) hseed
  · cases hget

/-- The entries that are kept of a table that is too large. -/
theorem entries_capped_of_lt (h : t.config.maxSuspects < (t.next cue o).entries.length) :
    (t.capped cue o).entries =
      (byScore (o.strongest.run (t.next cue o).entries)).take t.config.maxSuspects := by
  rw [capped, if_pos h]
  refine HashMap.entries_collect ?_
  have hperm : (byScore (o.strongest.run (t.next cue o).entries)).Perm (t.next cue o).entries :=
    (List.perm_insertionSort _ _).trans (o.strongest.perm _)
  exact ((hperm.map Prod.fst).nodup_iff.2 (t.next cue o).nodup).sublist
    ((List.take_sublist _ _).map Prod.fst)

theorem mem_next_of_mem_capped {h : Belief} (hmem : h ∈ (t.capped cue o).entries) :
    h ∈ (t.next cue o).entries := by
  by_cases hlarge : t.config.maxSuspects < (t.next cue o).entries.length
  · rw [entries_capped_of_lt hlarge] at hmem
    exact (o.strongest.perm _).mem_iff.1
      ((List.mem_insertionSort _).1 (List.mem_of_mem_take hmem))
  · rwa [capped, if_neg hlarge] at hmem

theorem length_capped (t : StreamTracker) (cue : Cue) (o : StreamOrders) :
    (t.capped cue o).entries.length ≤ t.config.maxSuspects := by
  by_cases hlarge : t.config.maxSuspects < (t.next cue o).entries.length
  · rw [entries_capped_of_lt hlarge, List.length_take]
    omega
  · rw [capped, if_neg hlarge]
    omega

/-! ## Catalogues -/

theorem mem_foldl_push {f : Fin 8 × UInt16} {p : ℕ × ℕ} (pushed : List ((Fin 8 × UInt16) × (ℕ × ℕ)))
    (index : HashMap (Fin 8 × UInt16) (List (ℕ × ℕ))) :
    p ∈ ((pushed.foldl (fun index e => index.entry e.1 [] fun positions => positions ++ [e.2])
      index).get? f).getD [] ↔ p ∈ (index.get? f).getD [] ∨ (f, p) ∈ pushed := by
  induction pushed using List.reverseRecOn with
  | nil => simp
  | append_singleton pushed e ih =>
    rw [List.foldl_append, List.foldl_cons, List.foldl_nil, HashMap.get?_entry]
    by_cases hf : f = e.1
    · subst hf
      rw [if_pos rfl, Option.getD_some, List.mem_append, ih]
      simp [Prod.ext_iff, or_assoc]
    · rw [if_neg hf, ih]
      simp [Prod.ext_iff, hf]

theorem indexed_enrollSegment (ht : t.Indexed) (segment : Segment) :
    (t.enrollSegment segment).Indexed := by
  intro f p hp
  rcases (mem_foldl_push _ _).1 hp with hp | hp
  · obtain ⟨seg, hseg, hlt⟩ := ht f p hp
    refine ⟨seg, ?_, hlt⟩
    exact (List.getElem?_append_left (List.getElem?_eq_some_iff.1 hseg).1).trans hseg
  · obtain ⟨c, hc, hf⟩ := List.mem_flatMap.1 hp
    obtain ⟨g, -, heq⟩ := List.mem_map.1 hf
    obtain ⟨rfl, rfl⟩ := Prod.mk.inj heq
    refine ⟨segment, List.getElem?_concat_length, ?_⟩
    have := List.snd_lt_of_mem_zipIdx hc
    omega

theorem indexed_ofCatalogue (config : StreamConfig) (segments : List Segment) :
    (ofCatalogue config segments).Indexed := by
  have hempty : ({ config } : StreamTracker).Indexed := fun f p hp => absurd hp List.not_mem_nil
  exact run_invariant (fun _ segment ht => indexed_enrollSegment ht segment) hempty

/-- A tracker for a catalogue has the configuration, no hypotheses and no lock. -/
theorem fresh_ofCatalogue (config : StreamConfig) (segments : List Segment) :
    (ofCatalogue config segments).config = config ∧
      (ofCatalogue config segments).suspects = .empty ∧
      (ofCatalogue config segments).locked = none :=
  run_invariant
    (I := fun t : StreamTracker => t.config = config ∧ t.suspects = .empty ∧ t.locked = none)
    (fun _ _ h => h) ⟨rfl, rfl, rfl⟩

/-! ## Every stream -/

/-- The last `n` cues, in each of which the segment was locked and did not lead. -/
inductive MissedFor (config : StreamConfig) (segments : List Segment) (seg : ℕ) :
    ℕ → List (Cue × StreamOrders) → Prop
  | none {cues} : MissedFor config segments seg 0 cues
  | cue {n cues c} (before : MissedFor config segments seg n cues)
      (locked : (stream config segments cues).1.locked.map Prod.fst = some seg)
      (behind : ¬ Leads (stream config segments cues).1 c.1 c.2 seg) :
      MissedFor config segments seg (n + 1) (cues ++ [c])

theorem MissedFor.mono {seg n m : ℕ} {cues : List (Cue × StreamOrders)}
    (h : MissedFor config segments seg n cues) (hle : m ≤ n) :
    MissedFor config segments seg m cues := by
  induction h generalizing m with
  | none =>
    obtain rfl : m = 0 := by omega
    exact .none
  | cue before locked behind ih =>
    cases m with
    | zero => exact .none
    | succ m => exact .cue (ih (by omega)) locked behind

theorem stream_concat (config : StreamConfig) (segments : List Segment)
    (cues : List (Cue × StreamOrders)) (c : Cue × StreamOrders) :
    stream config segments (cues ++ [c]) = step (stream config segments cues) c :=
  run_concat _ _ _ _

/-- The segments, the index and the configuration stay as they are. -/
theorem catalogue_stream (config : StreamConfig) (segments : List Segment)
    (cues : List (Cue × StreamOrders)) :
    (stream config segments cues).1.Indexed ∧ (stream config segments cues).1.config = config :=
  run_invariant (I := fun s : StreamTracker × List StreamEvent =>
      s.1.Indexed ∧ s.1.config = config) (fun _ _ h => h)
    ⟨indexed_ofCatalogue config segments, (fresh_ofCatalogue config segments).1⟩

theorem behind_of_head {seg : ℕ}
    (h : ∀ off score, (t.ranking cue o).head? = some ((seg, off), score) →
      ¬ t.config.lockThreshold ≤ score) : ¬ t.Leads cue o seg := by
  rintro ⟨off, score, hhead, hscore⟩
  exact h off score hhead hscore

/-- The misses that the lock counts are cues on which the locked segment did not lead. -/
theorem missedFor_of_locked (cues : List (Cue × StreamOrders)) {seg off misses : ℕ}
    (h : (stream config segments cues).1.locked = some (seg, off, misses)) :
    MissedFor config segments seg misses cues := by
  induction cues using List.reverseRecOn generalizing off misses with
  | nil =>
    rw [stream, run_nil, (fresh_ofCatalogue config segments).2.2] at h
    cases h
  | append_singleton cues c ih =>
    rw [stream_concat] at h
    cases misses with
    | zero => exact .none
    | succ misses =>
      obtain ⟨hlocked, hbehind⟩ := missed_of_locked h
      exact .cue (ih hlocked) (by rw [hlocked]; rfl) (behind_of_head hbehind)

/-- The events so far, replayed, give the segment that is locked. -/
theorem replay_stream (config : StreamConfig) (segments : List Segment)
    (cues : List (Cue × StreamOrders)) :
    (stream config segments cues).2.foldlM replayEvent none =
      some ((stream config segments cues).1.currentLock.map Prod.fst) := by
  induction cues using List.reverseRecOn with
  | nil =>
    have hfree := (fresh_ofCatalogue config segments).2.2
    simp [stream, currentLock, hfree]
  | append_singleton cues c ih =>
    rw [stream_concat, step, List.foldlM_append, ih, currentLock, Option.map_map]
    have hstep := replay_lockStep (stream config segments cues).1
      ((stream config segments cues).1.ranking c.1 c.2).head?
      ((((stream config segments cues).1.ranking c.1 c.2)[1]?.map Prod.snd).getD 0)
    rw [currentLock, Option.map_map]
    exact hstep

/-- **The tracker keeps discipline**, on every stream of cues: the events, replayed, give the
segment that is locked; the table is never over its size and its offsets never past the end of
their segments; and a lock is lost only after enough cues in a row on which its segment, locked
all the while, did not lead. -/
theorem stream_discipline (config : StreamConfig) (segments : List Segment)
    (cues : List (Cue × StreamOrders)) :
    let t := (stream config segments cues).1;
    (stream config segments cues).2.foldlM replayEvent none = some (t.currentLock.map Prod.fst) ∧
      t.suspects.entries.length ≤ config.maxSuspects ∧
      (∀ h ∈ t.suspects.entries, t.Placed h.1) ∧
      ∀ c id atOffset, .lockLost id atOffset ∈ (t.observe c.1 c.2).2 →
        ∃ seg, t.segmentId seg = id ∧
          MissedFor config segments seg config.lostAfterMisses (cues ++ [c]) := by
  obtain ⟨hindexed, hconfig⟩ := catalogue_stream config segments cues
  refine ⟨replay_stream config segments cues, ?_, ?_, ?_⟩
  · cases cues using List.reverseRecOn with
    | nil =>
      have hnone := (fresh_ofCatalogue config segments).2.1
      simp [stream, hnone, HashMap.empty]
    | append_singleton cues c =>
      have hbefore := (catalogue_stream config segments cues).2
      rw [stream_concat]
      calc ((stream config segments cues).1.capped c.1 c.2).entries.length
          ≤ (stream config segments cues).1.config.maxSuspects := length_capped _ _ _
        _ = config.maxSuspects := by rw [hbefore]
  · cases cues using List.reverseRecOn with
    | nil =>
      have hnone := (fresh_ofCatalogue config segments).2.1
      simp [stream, hnone, HashMap.empty]
    | append_singleton cues c =>
      have hbefore := (catalogue_stream config segments cues).1
      rw [stream_concat]
      intro h hmem
      exact placed_of_mem_next hbefore (mem_next_of_mem_capped hmem)
  · intro c id atOffset hlost
    obtain ⟨seg, off, misses, hlocked, hid, henough, hbehind⟩ := missed_of_lockLost hlost
    rw [hconfig] at henough
    refine ⟨seg, hid, MissedFor.mono ?_ henough⟩
    exact .cue (missedFor_of_locked cues hlocked) (by rw [hlocked]; rfl) (behind_of_head hbehind)

/-! ## The offset -/

end StreamTracker

/-- A cue with eight buckets of its own. -/
def cueOf (n : ℕ) : Cue := fun i => .ofNat (8 * n + i.val + 1)

/-- A segment of such cues. -/
def segmentOf (id : String) (ns : List ℕ) : Segment := ⟨id, ns.map cueOf⟩

/-- A stream of such cues. -/
def streamOf (ns : List ℕ) : List (Cue × StreamOrders) := ns.map fun n => (cueOf n, {})

/-- A cue along the segment that is locked moves the offset of the lock, and is no event. -/
theorem offset_moves_without_event :
    let heard := StreamTracker.stream {} [segmentOf "a" [1, 2, 3, 4, 5, 6, 7, 8]] (streamOf [1, 2, 3]);
    let more := StreamTracker.stream {} [segmentOf "a" [1, 2, 3, 4, 5, 6, 7, 8]]
      (streamOf [1, 2, 3, 4]);
    heard.2 = more.2 ∧ heard.1.currentLock = some ("a", 3) ∧
      more.1.currentLock = some ("a", 4) := by
  decide +kernel

end Spectral
