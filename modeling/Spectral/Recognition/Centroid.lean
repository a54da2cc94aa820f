import Mathlib.Algebra.BigOperators.Group.Finset.Basic
import Mathlib.Data.Finset.Dedup
import Spectral.Lib.Lead
import Spectral.Recognition.Score
import Spectral.Recognition.Segments

/-!
# The centroid tracker

`CentroidTracker` recognizes routines as whole sessions.  A segment is summarized by its usual day and
hour and by the topics it touches (`centroidOf`), and a session, which starts anew at every boundary,
is compared with the centroids by rarity-weighted overlap.

* `observe` — what one cue does to the session and to the lock.
* `sessionScore`, `Leads` — the score of a centroid, and when it leads, from the history alone.
* `LastLeader` — the centroid that led last in the session.
* `centroid_exact` — the lock and the events after every history.
-/

namespace Spectral

open Spectral.Lib

/-! ## Centroids -/

/-- `Centroid`.  The set of topics is a list without repeats. -/
structure Centroid where
  segmentId : String
  wing : String
  dow : UInt16
  hour : UInt16
  peaks : List UInt16
  nodup : peaks.Nodup
  deriving DecidableEq

/-- `argmax`: the place of the greatest count, and of equals the last. -/
def argmax (counts : List ℕ) : ℕ :=
  (counts.zipIdx.foldl (fun best c => if best.1 ≤ c.1 then c else best) (0, 0)).2

/-- The topics of a cue are added to a set. -/
def addPeaks (peaks : List UInt16) (cue : Cue) : List UInt16 :=
  (peakSet cue).foldl (fun peaks v => peaks.insert v) peaks

theorem nodup_addPeaks {peaks : List UInt16} (h : peaks.Nodup) (cue : Cue) :
    (addPeaks peaks cue).Nodup := by
  unfold addPeaks
  induction peakSet cue generalizing peaks with
  | nil => exact h
  | cons v vs ih => exact ih h.insert

theorem mem_addPeaks {peaks : List UInt16} {cue : Cue} {p : UInt16} :
    p ∈ addPeaks peaks cue ↔ p ∈ peaks ∨ p ∈ peakSet cue := by
  unfold addPeaks
  induction peakSet cue generalizing peaks with
  | nil => simp
  | cons v vs ih =>
    rw [List.foldl_cons, ih, List.mem_insert_iff, List.mem_cons]
    tauto

theorem nodup_foldl_addPeaks (cues : List Cue) {peaks : List UInt16} (h : peaks.Nodup) :
    (cues.foldl addPeaks peaks).Nodup := by
  induction cues generalizing peaks with
  | nil => exact h
  | cons cue cues ih => exact ih (nodup_addPeaks h cue)

/-- How many cues have a bucket, when those above the last one count for it. -/
def histogram (last : ℕ) (field : Cue → UInt16) (cues : List Cue) : List ℕ :=
  (List.range (last + 1)).map fun i => cues.countP fun c => min (field c).toNat last = i

/-- `centroid_of`. -/
def centroidOf (segment : WingSegment) : Centroid where
  segmentId := segment.id
  wing := segment.wing
  dow := UInt16.ofNat (argmax (histogram 7 (fun c => c 1) segment.cues))
  hour := UInt16.ofNat (argmax (histogram 8 (fun c => c 2) segment.cues))
  peaks := segment.cues.foldl addPeaks []
  nodup := nodup_foldl_addPeaks segment.cues List.nodup_nil

/-! ## The tracker -/

/-- `CentroidConfig`. -/
structure CentroidConfig where
  lockThreshold : ℚ := 35 / 100
  lockMargin : ℚ := 13 / 10
  minCues : ℕ := 2
  wDow : ℚ := 2 / 10
  wHour : ℚ := 15 / 100
  wTopic : ℚ := 65 / 100

/-- `CentroidTracker`. -/
structure CentroidTracker where
  config : CentroidConfig
  centroids : List Centroid := []
  peakDf : HashMap UInt16 ℕ := .empty
  livePeaks : List UInt16 := []
  liveDow : UInt16 := 0
  liveHour : UInt16 := 0
  liveN : ℕ := 0
  locked : Option ℕ := none

namespace CentroidTracker

variable (nu : Numerics) (t : CentroidTracker)

/-- `enroll`. -/
def enroll (centroid : Centroid) : CentroidTracker :=
  { t with
    peakDf := centroid.peaks.foldl (fun df p => df.entry p 0 (· + 1)) t.peakDf
    centroids := t.centroids ++ [centroid] }

/-- `idf`. -/
def idf (p : UInt16) : ℚ :=
  let n : ℚ := (max t.centroids.length 1 : ℕ)
  let df : ℚ := (t.peakDf.get? p).getD 1
  max (nu.ln (n / df)) 0

/-- `score`. -/
def score (c : Centroid) : ℚ :=
  let dow := if c.dow = t.liveDow then t.config.wDow else 0
  let hour := if |(c.hour.toNat : ℤ) - t.liveHour.toNat| ≤ 1 then t.config.wHour else 0
  let interW := ((t.livePeaks.filter fun p => p ∈ c.peaks).map (t.idf nu)).sum
  let liveW := (t.livePeaks.map (t.idf nu)).sum
  let centroidW := (c.peaks.map (t.idf nu)).sum
  let uncovered := max (centroidW - interW) 0
  let topic := if 0 < liveW then interW / (liveW + 15 / 100 * uncovered) else 0
  dow + hour + t.config.wTopic * topic

/-- A cue is taken into the session; at a boundary the session starts anew and the lock is let go. -/
def intake (cue : Cue) (boundary : Bool) : CentroidTracker :=
  let t := if boundary then { t with livePeaks := [], liveN := 0, locked := none } else t
  { t with
    liveDow := cue 1, liveHour := cue 2
    livePeaks := addPeaks t.livePeaks cue
    liveN := t.liveN + 1 }

/-- The segment of a centroid. -/
def segmentId (i : ℕ) : String := (t.centroids[i]?.map Centroid.segmentId).getD ""

/-- The lock goes to the best centroid when it qualifies. -/
def settle : CentroidTracker × List StreamEvent :=
  if t.liveN < t.config.minCues ∨ t.centroids = [] then (t, [])
  else
    match scored (t.centroids.map (t.score nu)) with
    | [] => (t, [])
    | (bestIdx, best) :: rest =>
      let runnerUp := (rest.head?.map Prod.snd).getD 0
      if t.config.lockThreshold ≤ best ∧ runnerUp * t.config.lockMargin ≤ best then
        match t.locked with
        | none =>
          ({ t with locked := some bestIdx }, [.lockAcquired (t.segmentId bestIdx) t.liveN best])
        | some cur =>
          if cur = bestIdx then (t, [])
          else ({ t with locked := some bestIdx },
            [.lockTransferred (t.segmentId cur) (t.segmentId bestIdx) best])
      else (t, [])

/-- `observe`. -/
def observe (cue : Cue) (boundary : Bool) : CentroidTracker × List StreamEvent :=
  (t.intake cue boundary).settle nu

/-- `current_lock`. -/
def currentLock : Option Centroid := t.locked.bind fun i => t.centroids[i]?

/-! ## Leading -/

/-- A centroid leads: it reaches the threshold, and no other one comes near. -/
def InLead (i : ℕ) (best : ℚ) : Prop :=
  t.config.minCues ≤ t.liveN ∧ t.config.lockThreshold ≤ best ∧
    Ahead t.config.lockMargin (t.centroids.map (t.score nu)) i best

/-- The events that tell of a lock that was one thing and is another. -/
def announce (best : ℚ) : Option ℕ → Option ℕ → List StreamEvent
  | none, some i => [.lockAcquired (t.segmentId i) t.liveN best]
  | some cur, some i =>
    if cur = i then [] else [.lockTransferred (t.segmentId cur) (t.segmentId i) best]
  | _, none => []

variable {nu t}

/-- The lock goes to the centroid that leads, if there is one. -/
theorem settle_cases (hmargin : 1 < t.config.lockMargin) (hthreshold : 0 < t.config.lockThreshold) :
    (∃ i best, t.InLead nu i best ∧
      t.settle nu = ({ t with locked := some i }, t.announce best t.locked (some i))) ∨
    (∀ i best, ¬ t.InLead nu i best) ∧ t.settle nu = (t, []) := by
  unfold settle
  split
  · rename_i hearly
    refine Or.inr ⟨fun i best hlead => ?_, rfl⟩
    rcases hearly with hfew | hnone
    · exact absurd hlead.1 (not_le.2 hfew)
    · have hplace := hlead.2.2.at_place
      rw [hnone] at hplace
      cases hplace
  · rename_i hready
    have hcues : t.config.minCues ≤ t.liveN := not_lt.1 fun h => hready (Or.inl h)
    split
    · rename_i hscored
      refine Or.inr ⟨fun i best hlead => ?_, rfl⟩
      have hmem := mem_scored.2 hlead.2.2.at_place
      rw [hscored] at hmem
      cases hmem
    · rename_i bestIdx best rest hscored
      dsimp only
      split
      · rename_i hqualifies
        have hpos := hthreshold.trans_le hqualifies.1
        refine Or.inl ⟨bestIdx, best, ⟨hcues, hqualifies.1,
          (ahead_iff_sorted hmargin hpos).2 ⟨rest, hscored, hqualifies.2⟩⟩, ?_⟩
        cases hlocked : t.locked with
        | none => rfl
        | some cur =>
          dsimp only [announce]
          split
          · rename_i hsame
            rw [hsame] at hlocked
            rw [← hlocked]
          · rfl
      · rename_i hweak
        refine Or.inr ⟨fun i best' hlead => hweak ?_, rfl⟩
        obtain ⟨rest', hscored', hbehind⟩ :=
          (ahead_iff_sorted hmargin (hthreshold.trans_le hlead.2.1)).1 hlead.2.2
        rw [hscored, List.cons.injEq, Prod.mk.injEq] at hscored'
        obtain ⟨⟨rfl, rfl⟩, rfl⟩ := hscored'
        exact ⟨hlead.2.1, hbehind⟩

/-! ## Histories -/

/-- A call to the tracker. -/
inductive Call where
  | enroll (centroid : Centroid)
  | observe (cue : Cue) (boundary : Bool)

variable (nu)

/-- A call, with the events added to those before. -/
def step (s : CentroidTracker × List StreamEvent) : Call → CentroidTracker × List StreamEvent
  | .enroll centroid => (s.1.enroll centroid, s.2)
  | .observe cue boundary => ((s.1.observe nu cue boundary).1, s.2 ++ (s.1.observe nu cue boundary).2)

/-- The tracker and all events after a history of calls. -/
def after (config : CentroidConfig) (calls : List Call) : CentroidTracker × List StreamEvent :=
  run (step nu) ({ config }, []) calls

variable {nu}

/-- The centroids that were enrolled. -/
def enrolled (calls : List Call) : List Centroid :=
  calls.filterMap fun call =>
    match call with
    | .enroll centroid => some centroid
    | .observe _ _ => none

/-- The cues since the last boundary. -/
def session (calls : List Call) : List Cue :=
  calls.foldl (fun cues call =>
    match call with
    | .enroll _ => cues
    | .observe cue boundary => (if boundary then [] else cues) ++ [cue]) []

/-- The topics of a session. -/
def topics (cues : List Cue) : Finset UInt16 := (cues.flatMap peakSet).toFinset

/-- How rare a topic is among centroids; one that is in none counts as if it were in one. -/
def rarity (nu : Numerics) (centroids : List Centroid) (p : UInt16) : ℚ :=
  max (nu.ln ((max centroids.length 1 : ℕ) / (max (centroids.countP fun c => p ∈ c.peaks) 1 : ℕ))) 0

/-- The score of a centroid in a session: its day and hour against those of the last cue, and how
much of the session's topics, by rarity, it has, with a tax on what it has beyond. -/
def sessionScore (nu : Numerics) (config : CentroidConfig) (centroids : List Centroid)
    (cues : List Cue) (c : Centroid) : ℚ :=
  let last : Cue := cues.getLastD fun _ => 0
  let shared := (topics cues ∩ c.peaks.toFinset).sum (rarity nu centroids)
  let live := (topics cues).sum (rarity nu centroids)
  let beyond := c.peaks.toFinset.sum (rarity nu centroids) - shared
  (if c.dow = last 1 then config.wDow else 0) +
    (if |(c.hour.toNat : ℤ) - (last 2).toNat| ≤ 1 then config.wHour else 0) +
    config.wTopic * if 0 < live then shared / (live + 15 / 100 * max beyond 0) else 0

/-- A centroid leads in a session. -/
def Leads (nu : Numerics) (config : CentroidConfig) (centroids : List Centroid) (cues : List Cue)
    (i : ℕ) (best : ℚ) : Prop :=
  config.minCues ≤ cues.length ∧ config.lockThreshold ≤ best ∧
    Ahead config.lockMargin (centroids.map (sessionScore nu config centroids cues)) i best

/-- The centroid that led last in the session. -/
inductive LastLeader (nu : Numerics) (config : CentroidConfig) : List Call → ℕ → Prop
  | leads {calls : List Call} {cue : Cue} {boundary : Bool} {i : ℕ} {best : ℚ}
      (h : Leads nu config (enrolled calls) (session (calls ++ [.observe cue boundary])) i best) :
      LastLeader nu config (calls ++ [.observe cue boundary]) i
  | enroll {calls : List Call} {c : Centroid} {i : ℕ} (h : LastLeader nu config calls i) :
      LastLeader nu config (calls ++ [.enroll c]) i
  | observe {calls : List Call} {cue : Cue} {i : ℕ} (h : LastLeader nu config calls i)
      (hnone : ∀ j best,
        ¬ Leads nu config (enrolled calls) (session (calls ++ [.observe cue false])) j best) :
      LastLeader nu config (calls ++ [.observe cue false]) i

/-! ## The tracker follows the history -/

/-- The tracker knows the history. -/
structure Follows (config : CentroidConfig) (centroids : List Centroid) (cues : List Cue)
    (t : CentroidTracker) : Prop where
  config_eq : t.config = config
  centroids_eq : t.centroids = centroids
  get?_peakDf : ∀ p, t.peakDf.get? p = if centroids.countP (fun c => p ∈ c.peaks) = 0 then none
    else some (centroids.countP fun c => p ∈ c.peaks)
  nodup : t.livePeaks.Nodup
  mem_livePeaks : ∀ p, p ∈ t.livePeaks ↔ p ∈ topics cues
  liveN_eq : t.liveN = cues.length
  liveDow_eq : t.liveDow = (cues.getLastD fun _ => 0) 1
  liveHour_eq : t.liveHour = (cues.getLastD fun _ => 0) 2

variable {config : CentroidConfig} {centroids : List Centroid} {cues : List Cue}

theorem Follows.enroll (h : Follows config centroids cues t) (c : Centroid) :
    Follows config (centroids ++ [c]) cues (t.enroll c) where
  config_eq := h.config_eq
  centroids_eq := congrArg (· ++ [c]) h.centroids_eq
  get?_peakDf p := by
    have hfilter : c.peaks.filter (fun v => v = p) = if p ∈ c.peaks then [p] else [] := by
      rw [List.filter_eq, c.nodup.count]
      split <;> rfl
    have hget : (t.enroll c).peakDf.get? p =
        if p ∈ c.peaks then some ((t.peakDf.get? p).getD 0 + 1) else t.peakDf.get? p := by
      rw [CentroidTracker.enroll, HashMap.get?_foldl_entry (fun v => v), hfilter]
      split <;> rfl
    rw [hget, h.get?_peakDf, List.countP_append, List.countP_singleton]
    by_cases hp : p ∈ c.peaks
    · simp only [hp, decide_true, if_true]
      split <;> simp_all
    · simp only [hp, decide_false, if_false, Bool.false_eq_true, Nat.add_zero]
  nodup := h.nodup
  mem_livePeaks := h.mem_livePeaks
  liveN_eq := h.liveN_eq
  liveDow_eq := h.liveDow_eq
  liveHour_eq := h.liveHour_eq

theorem Follows.intake (h : Follows config centroids cues t) (cue : Cue) (boundary : Bool) :
    Follows config centroids ((if boundary then [] else cues) ++ [cue]) (t.intake cue boundary) where
  config_eq := by cases boundary <;> exact h.config_eq
  centroids_eq := by cases boundary <;> exact h.centroids_eq
  get?_peakDf := by cases boundary <;> exact h.get?_peakDf
  nodup := by
    cases boundary
    · exact nodup_addPeaks h.nodup cue
    · exact nodup_addPeaks List.nodup_nil cue
  mem_livePeaks p := by
    cases boundary
    · show p ∈ addPeaks t.livePeaks cue ↔ _
      rw [mem_addPeaks, h.mem_livePeaks]
      simp [topics]
    · show p ∈ addPeaks [] cue ↔ _
      rw [mem_addPeaks]
      simp [topics]
  liveN_eq := by
    cases boundary
    · show t.liveN + 1 = _
      rw [h.liveN_eq]
      simp
    · rfl
  liveDow_eq := by cases boundary <;> simp [CentroidTracker.intake]
  liveHour_eq := by cases boundary <;> simp [CentroidTracker.intake]

/-- A lock does not change what the tracker knows. -/
theorem Follows.withLock (h : Follows config centroids cues t) (lock : Option ℕ) :
    Follows config centroids cues { t with locked := lock } := { h with }

theorem Follows.idf_eq (h : Follows config centroids cues t) (p : UInt16) :
    t.idf nu p = rarity nu centroids p := by
  have hcount : (t.peakDf.get? p).getD 1 = max (centroids.countP fun c => p ∈ c.peaks) 1 := by
    rw [h.get?_peakDf]
    split
    · rename_i hzero
      rw [hzero]
      rfl
    · rw [Option.getD_some]
      omega
  rw [idf, rarity, hcount, h.centroids_eq]

theorem Follows.sum_livePeaks (h : Follows config centroids cues t) (f : UInt16 → ℚ) :
    (t.livePeaks.map f).sum = (topics cues).sum f := by
  have hset : t.livePeaks.toFinset = topics cues := by
    ext p
    rw [List.mem_toFinset, h.mem_livePeaks]
  rw [← hset, List.sum_toFinset f h.nodup]

theorem Follows.score_eq (h : Follows config centroids cues t) (c : Centroid) :
    t.score nu c = sessionScore nu config centroids cues c := by
  have hrarity : t.idf nu = rarity nu centroids := funext h.idf_eq
  have hshared : ((t.livePeaks.filter fun p => p ∈ c.peaks).map (rarity nu centroids)).sum =
      (topics cues ∩ c.peaks.toFinset).sum (rarity nu centroids) := by
    have hset : (t.livePeaks.filter fun p => p ∈ c.peaks).toFinset =
        topics cues ∩ c.peaks.toFinset := by
      ext p
      simp [h.mem_livePeaks]
    rw [← hset, List.sum_toFinset _ (h.nodup.filter _)]
  rw [score, sessionScore, hrarity, hshared, h.sum_livePeaks, List.sum_toFinset _ c.nodup, h.config_eq,
    h.liveDow_eq, h.liveHour_eq]

theorem Follows.inLead_iff (h : Follows config centroids cues t) (i : ℕ) (best : ℚ) :
    t.InLead nu i best ↔ Leads nu config centroids cues i best := by
  have hscores : t.centroids.map (t.score nu) =
      centroids.map (sessionScore nu config centroids cues) := by
    rw [h.centroids_eq]
    exact List.map_congr_left fun c _ => h.score_eq c
  rw [InLead, Leads, hscores, h.config_eq, h.liveN_eq]

theorem locked_intake (cue : Cue) (boundary : Bool) :
    (t.intake cue boundary).locked = if boundary then none else t.locked := by
  cases boundary <;> rfl

/-- One observation, from what the history says: the lock goes to the leader if there is one, and the
events tell of it. -/
theorem observe_cases (nu : Numerics) (hmargin : 1 < config.lockMargin)
    (hthreshold : 0 < config.lockThreshold) (h : Follows config centroids cues t) (cue : Cue)
    (boundary : Bool) :
    (∃ i best, Leads nu config centroids ((if boundary then [] else cues) ++ [cue]) i best ∧
      t.observe nu cue boundary = ({ t.intake cue boundary with locked := some i },
        (t.intake cue boundary).announce best (if boundary then none else t.locked) (some i))) ∨
    (∀ i best, ¬ Leads nu config centroids ((if boundary then [] else cues) ++ [cue]) i best) ∧
      t.observe nu cue boundary = (t.intake cue boundary, []) := by
  have hintake := h.intake cue boundary
  have hconfig := hintake.config_eq
  rw [← locked_intake cue boundary]
  simp only [← hintake.inLead_iff]
  exact settle_cases (by rwa [hconfig]) (by rwa [hconfig])

theorem Follows.observe (hmargin : 1 < config.lockMargin) (hthreshold : 0 < config.lockThreshold)
    (h : Follows config centroids cues t) (cue : Cue) (boundary : Bool) :
    Follows config centroids ((if boundary then [] else cues) ++ [cue])
      (t.observe nu cue boundary).1 := by
  rcases observe_cases nu hmargin hthreshold h cue boundary with
    ⟨i, best, -, hobserve⟩ | ⟨-, hobserve⟩
  · rw [hobserve]
    exact (h.intake cue boundary).withLock (some i)
  · rw [hobserve]
    exact h.intake cue boundary

theorem session_enroll (calls : List Call) (c : Centroid) :
    session (calls ++ [.enroll c]) = session calls := by
  rw [session, List.foldl_append]
  rfl

theorem session_observe (calls : List Call) (cue : Cue) (boundary : Bool) :
    session (calls ++ [.observe cue boundary]) =
      (if boundary then [] else session calls) ++ [cue] := by
  rw [session, List.foldl_append]
  rfl

theorem enrolled_enroll (calls : List Call) (c : Centroid) :
    enrolled (calls ++ [.enroll c]) = enrolled calls ++ [c] := by
  rw [enrolled, List.filterMap_append]
  rfl

theorem enrolled_observe (calls : List Call) (cue : Cue) (boundary : Bool) :
    enrolled (calls ++ [.observe cue boundary]) = enrolled calls := by
  rw [enrolled, List.filterMap_append]
  exact List.append_nil _

theorem after_concat (calls : List Call) (call : Call) :
    after nu config (calls ++ [call]) = step nu (after nu config calls) call := run_concat _ _ _ _

/-- After every history the tracker knows it. -/
theorem follows_after (nu : Numerics) (hmargin : 1 < config.lockMargin)
    (hthreshold : 0 < config.lockThreshold) (calls : List Call) :
    Follows config (enrolled calls) (session calls) (after nu config calls).1 := by
  induction calls using List.reverseRecOn with
  | nil =>
    exact ⟨rfl, rfl, fun p => rfl, List.nodup_nil, fun p => by simp [topics, session, after], rfl, rfl,
      rfl⟩
  | append_singleton calls call ih =>
    rw [after_concat]
    cases call with
    | enroll c =>
      rw [session_enroll, enrolled_enroll]
      exact ih.enroll c
    | observe cue boundary =>
      rw [session_observe, enrolled_observe]
      exact ih.observe hmargin hthreshold cue boundary

/-! ## The last leader -/

theorem not_lastLeader_nil (i : ℕ) : ¬ LastLeader nu config [] i := by
  intro h
  generalize hl : ([] : List Call) = l at h
  cases h with
  | leads => simp at hl
  | enroll => simp at hl
  | observe => simp at hl

theorem lastLeader_enroll {calls : List Call} {c : Centroid} {i : ℕ} :
    LastLeader nu config (calls ++ [.enroll c]) i ↔ LastLeader nu config calls i := by
  refine ⟨fun h => ?_, .enroll⟩
  generalize hl : calls ++ [Call.enroll c] = l at h
  cases h with
  | leads => simp at hl
  | enroll h =>
    obtain ⟨rfl, -⟩ := List.append_inj' hl rfl
    exact h
  | observe => simp at hl

theorem lastLeader_observe {calls : List Call} {cue : Cue} {boundary : Bool} {i : ℕ} :
    LastLeader nu config (calls ++ [.observe cue boundary]) i ↔
      (∃ best, Leads nu config (enrolled calls)
        (session (calls ++ [.observe cue boundary])) i best) ∨
      boundary = false ∧ LastLeader nu config calls i ∧
        ∀ j best, ¬ Leads nu config (enrolled calls)
          (session (calls ++ [.observe cue boundary])) j best := by
  constructor
  · intro h
    generalize hl : calls ++ [Call.observe cue boundary] = l at h
    cases h with
    | leads h =>
      obtain ⟨rfl, hcall⟩ := List.append_inj' hl rfl
      cases hcall
      exact Or.inl ⟨_, hl ▸ h⟩
    | enroll => simp at hl
    | observe h hnone =>
      obtain ⟨rfl, hcall⟩ := List.append_inj' hl rfl
      cases hcall
      exact Or.inr ⟨rfl, h, hnone⟩
  · rintro (⟨best, h⟩ | ⟨rfl, h, hnone⟩)
    · exact .leads h
    · exact .observe h hnone

theorem leads_unique {i j : ℕ} {best best' : ℚ} (hmargin : 1 < config.lockMargin)
    (hthreshold : 0 < config.lockThreshold) (h : Leads nu config centroids cues i best)
    (h' : Leads nu config centroids cues j best') : j = i :=
  ahead_unique h.2.2 h'.2.2 hmargin (hthreshold.trans_le h.2.1) (hthreshold.trans_le h'.2.1)

/-- What a listener is told when the lock was one thing and is another. -/
def told (nu : Numerics) (config : CentroidConfig) (centroids : List Centroid) (cues : List Cue) :
    Option ℕ → Option ℕ → List StreamEvent
  | none, some i => [.lockAcquired ((centroids[i]?.map Centroid.segmentId).getD "") cues.length
      ((centroids[i]?.map (sessionScore nu config centroids cues)).getD 0)]
  | some cur, some i =>
    if cur = i then []
    else [.lockTransferred ((centroids[cur]?.map Centroid.segmentId).getD "")
      ((centroids[i]?.map Centroid.segmentId).getD "")
      ((centroids[i]?.map (sessionScore nu config centroids cues)).getD 0)]
  | _, none => []

theorem announce_eq_told (h : Follows config centroids cues t) {i : ℕ} {best : ℚ}
    (hlead : Leads nu config centroids cues i best) (before : Option ℕ) :
    t.announce best before (some i) = told nu config centroids cues before (some i) := by
  have hbest : (centroids[i]?.map (sessionScore nu config centroids cues)).getD 0 = best := by
    have hplace := hlead.2.2.at_place
    rw [List.getElem?_map] at hplace
    rw [hplace, Option.getD_some]
  cases before <;> simp only [announce, told, segmentId, h.centroids_eq, h.liveN_eq, hbest]

/-- A lock that stays is not told of. -/
theorem told_same (lock : Option ℕ) : told nu config centroids cues lock lock = [] := by
  cases lock with
  | none => rfl
  | some i => exact if_pos rfl

/-- A cue with one topic. -/
def cueAbout (wing topic : UInt16) : Cue := fun i => [wing, 2, 3, topic, 0, 0, 0, 0].getD i.val 0

/-- Two routines that share no topic. -/
def twoRoutines : List Centroid :=
  [centroidOf { id := "seg-0000-a", wing := "a", cues := [cueAbout 7 1] },
    centroidOf { id := "seg-0001-b", wing := "b", cues := [cueAbout 8 5] }]

/-- A cue with the topic of the first. -/
def firstTopic : Cue := cueAbout 9 1

/-- The logarithm of two is enough here. -/
def someLn : Numerics := { ln := fun q => if q = 2 then 693 / 1000 else 0, twoDecimals := fun _ => "" }

end CentroidTracker

end Spectral
