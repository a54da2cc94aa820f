import Spectral.Lib.Ranking
import Spectral.Recognition.Stream

/-!
# The orders of the hash maps

`observe` ranks the hypotheses, and cuts the table, by score alone, so hypotheses of one score come
in the order in which a hash map happened to give them.  `lock_after_tail` is a stream on which
this decides about the lock.  `stream_orderFree` says that it takes such a tie: as long as no cue
has the table cut, or the lead shared, among equal scores, the events and the lock are the same
for all orders.
-/

namespace Spectral

open Spectral.Lib

namespace StreamTracker

variable {t t' : StreamTracker} {cue : Cue} {o o' : StreamOrders}

/-! ## The condition -/

/-- If the table has to be cut, the cut is between two scores. -/
def CapClear (t : StreamTracker) (cue : Cue) : Prop :=
  (t.next cue {}).entries.length ≤ t.config.maxSuspects ∨
    ∃ θ : ℚ, (t.next cue {}).entries.countP (fun h => θ ≤ h.2) = t.config.maxSuspects

/-- Two hypotheses do not share the lead, unless they are below the threshold, or the margin keeps
both from being locked anew and neither is on the segment that is locked. -/
def LeadClear (t : StreamTracker) (cue : Cue) : Prop :=
  ∀ a ∈ (t.next cue {}).entries, ∀ b ∈ (t.next cue {}).entries,
    (∀ c ∈ (t.next cue {}).entries, c.2 ≤ a.2) → b.2 = a.2 → a ≠ b → 0 < t.config.maxSuspects →
    a.2 < t.config.lockThreshold ∨ a.2 < a.2 * t.config.lockMargin ∧
      t.locked.map Prod.fst ≠ some a.1.1 ∧ t.locked.map Prod.fst ≠ some b.1.1

instance (t : StreamTracker) (cue : Cue) : Decidable (t.LeadClear cue) :=
  decidable_of_iff (∀ a ∈ (t.next cue {}).entries, ∀ b ∈ (t.next cue {}).entries,
    ¬ ((∀ c ∈ (t.next cue {}).entries, c.2 ≤ a.2) ∧ b.2 = a.2 ∧ a ≠ b ∧
        0 < t.config.maxSuspects) ∨
      (a.2 < t.config.lockThreshold ∨ a.2 < a.2 * t.config.lockMargin ∧
        t.locked.map Prod.fst ≠ some a.1.1 ∧ t.locked.map Prod.fst ≠ some b.1.1)) (by
    simp only [LeadClear, ← imp_iff_not_or, and_imp])

/-- Neither the cut nor the lead is among equal scores. -/
def Clear (s : StreamTracker × List StreamEvent) (c : Cue × StreamOrders) : Prop :=
  s.1.CapClear c.1 ∧ s.1.LeadClear c.1

/-! ## Trackers with the same beliefs -/

/-- The trackers differ at most in the order of their hypotheses. -/
structure SameBeliefs (t t' : StreamTracker) : Prop where
  config : t.config = t'.config
  segments : t.segments = t'.segments
  index : t.index = t'.index
  locked : t.locked = t'.locked
  suspects : ∀ k, t.suspects.get? k = t'.suspects.get? k

theorem SameBeliefs.refl (t : StreamTracker) : t.SameBeliefs t := ⟨rfl, rfl, rfl, rfl, fun _ => rfl⟩

/-- Each hypothesis after a cue has a score of its own, whatever the orders. -/
theorem get?_next (h : t.SameBeliefs t') (cue : Cue) (o o' : StreamOrders) (k : ℕ × ℕ) :
    (t.next cue o).get? k = (t'.next cue o').get? k := by
  have hadvance : t.advance cue = t'.advance cue := by
    funext b
    unfold advance
    rw [h.segments, h.config]
  have hseed : t.seedAt = t'.seedAt := by
    funext b
    unfold seedAt
    rw [h.config]
  have hhits : t.fieldHits cue = t'.fieldHits cue := by
    unfold fieldHits
    rw [h.index]
  have hsuspects : (o.suspects.run t.suspects.entries).Perm (o'.suspects.run t'.suspects.entries) :=
    (o.suspects.perm _).trans ((HashMap.perm_of_get? h.suspects).trans (o'.suspects.perm _).symm)
  have hfields : (o.fieldHits.run (t'.fieldHits cue).entries).Perm
      (o'.fieldHits.run (t'.fieldHits cue).entries) :=
    (o.fieldHits.perm _).trans (o'.fieldHits.perm _).symm
  have hperm := (hsuspects.filterMap (t'.advance cue)).append (hfields.filterMap t'.seedAt)
  unfold next
  rw [hadvance, hseed, hhits, HashMap.get?_groupFold, HashMap.get?_groupFold]
  congr 1
  · simp only [(hperm.map Prod.fst).mem_iff]
  · have : RightCommutative fun (score : ℚ) (h : Belief) => max score h.2 :=
      ⟨fun score h h' => max_right_comm score h.2 h'.2⟩
    rw [(hperm.filter fun h => h.1 = k).foldl_eq]

theorem perm_next (h : t.SameBeliefs t') (cue : Cue) (o o' : StreamOrders) :
    (t.next cue o).entries.Perm (t'.next cue o').entries :=
  HashMap.perm_of_get? (get?_next h cue o o')

/-- A cut between two scores keeps the same hypotheses, whatever the orders. -/
theorem perm_capped (h : t.SameBeliefs t') (hclear : t.CapClear cue) (o o' : StreamOrders) :
    (t.capped cue o).entries.Perm (t'.capped cue o').entries := by
  have hperm := perm_next h cue o o'
  have hfrom : (t.next cue {}).entries.Perm (t.next cue o).entries :=
    perm_next (.refl t) cue {} o
  by_cases hlarge : t.config.maxSuspects < (t.next cue o).entries.length
  · have hlarge' : t'.config.maxSuspects < (t'.next cue o').entries.length := by
      rwa [← h.config, ← hperm.length_eq]
    obtain hsmall | ⟨θ, hθ⟩ := hclear
    · rw [hfrom.length_eq] at hsmall
      omega
    · have hkeep : ∀ (strongest : Shuffle Belief) {l : List Belief},
          (t.next cue {}).entries.Perm l →
          ((byScore (strongest.run l)).take t.config.maxSuspects).Perm
            (l.filter fun b => θ ≤ b.2) := by
        intro strongest l hl
        have hshuffled := strongest.perm l
        refine (perm_take_sort (θ := θ) ?_).trans (hshuffled.filter _)
        rw [hshuffled.countP_eq, ← hl.countP_eq, hθ]
      rw [entries_capped_of_lt hlarge, entries_capped_of_lt hlarge', ← h.config]
      exact (hkeep _ hfrom).trans ((hperm.filter _).trans (hkeep _ (hfrom.trans hperm)).symm)
  · have hsmall' : ¬ t'.config.maxSuspects < (t'.next cue o').entries.length := by
      rwa [← h.config, ← hperm.length_eq]
    rw [capped, capped, if_neg hlarge, if_neg hsmall']
    exact hperm

/-- The hypotheses that are kept, if any, have the best one among them. -/
theorem exists_best_capped {b : Belief} (hb : b ∈ (t.capped cue o).entries) :
    0 < t.config.maxSuspects ∧
      ∃ m ∈ (t.capped cue o).entries, ∀ c ∈ (t.next cue o).entries, c.2 ≤ m.2 := by
  have hpos : 0 < t.config.maxSuspects :=
    (List.length_pos_of_mem hb).trans_le (length_capped t cue o)
  have hne : (t.next cue o).entries ≠ [] := List.ne_nil_of_mem (mem_next_of_mem_capped hb)
  refine ⟨hpos, ?_⟩
  by_cases hlarge : t.config.maxSuspects < (t.next cue o).entries.length
  · have hperm := o.strongest.perm (t.next cue o).entries
    rw [entries_capped_of_lt hlarge]
    have hshuffled : o.strongest.run (t.next cue o).entries ≠ [] := by
      intro hnil
      rw [hnil] at hperm
      exact hne hperm.nil_eq.symm
    obtain ⟨m, hm, hbest⟩ := exists_best_mem_take_sort Prod.snd hshuffled hpos
    exact ⟨m, hm, fun c hc => hbest c (hperm.mem_iff.2 hc)⟩
  · rw [capped, if_neg hlarge]
    obtain ⟨m, hm, hbest⟩ := exists_best_mem_take_sort Prod.snd hne (List.length_pos_of_ne_nil hne)
    exact ⟨m, (List.mem_insertionSort _).1 (List.mem_of_mem_take hm), hbest⟩

/-! ## The lock -/

theorem lockStep_eq (h : t.SameBeliefs t') (top : Option Belief) (runnerUp : ℚ) :
    t.lockStep top runnerUp = t'.lockStep top runnerUp := by
  unfold lockStep missed segmentId
  rw [h.locked, h.config, h.segments]

/-- A hypothesis that neither continues the lock nor can take it is as good as none. -/
theorem lockStep_of_weak {b : Belief} {runnerUp : ℚ}
    (hnew : ¬ (t.config.lockThreshold ≤ b.2 ∧ runnerUp * t.config.lockMargin ≤ b.2))
    (hheld : t.config.lockThreshold ≤ b.2 → t.locked.map Prod.fst ≠ some b.1.1) :
    t.lockStep (some b) runnerUp = t.lockStep none runnerUp := by
  obtain ⟨⟨s, off⟩, score⟩ := b
  cases hlocked : t.locked with
  | none => simp only [lockStep, hlocked, if_neg hnew]
  | some l =>
    obtain ⟨seg, heldOff, misses⟩ := l
    have hcontinues : ¬ (s = seg ∧ t.config.lockThreshold ≤ score) := by
      rintro ⟨rfl, hscore⟩
      exact hheld hscore (by rw [hlocked]; rfl)
    have htransfers : ¬ (s ≠ seg ∧ t.config.lockThreshold ≤ score ∧
        runnerUp * t.config.lockMargin ≤ score) := fun h => hnew h.2
    simp only [lockStep, hlocked, if_neg hcontinues, if_neg htransfers]

theorem mem_ranking {b : Belief} : b ∈ t.ranking cue o ↔ b ∈ (t.capped cue o).entries := by
  unfold ranking byScore
  rw [List.mem_insertionSort, (o.ranked.perm _).mem_iff]

/-- What LeadClear says of two hypotheses that are found at the head of the ranking. -/
theorem weak_of_shared {a b : Belief} {rest : List Belief} (hlead : t.LeadClear cue)
    (hranking : t.ranking cue o = a :: rest) (hb : b ∈ rest) (hscore : b.2 = a.2) (hne : a ≠ b) :
    a.2 < t.config.lockThreshold ∨ a.2 < a.2 * t.config.lockMargin ∧
      t.locked.map Prod.fst ≠ some a.1.1 ∧ t.locked.map Prod.fst ≠ some b.1.1 := by
  have hfrom : (t.next cue o).entries.Perm (t.next cue {}).entries := perm_next (.refl t) cue o {}
  have hkept : ∀ c ∈ a :: rest, c ∈ (t.capped cue o).entries := fun c hc =>
    mem_ranking.1 (hranking ▸ hc)
  have hnext : ∀ c ∈ a :: rest, c ∈ (t.next cue {}).entries := fun c hc =>
    hfrom.mem_iff.1 (mem_next_of_mem_capped (hkept c hc))
  have hsorted : (a :: rest).Pairwise fun b c => c.2 ≤ b.2 :=
    hranking ▸ pairwise_sort Prod.snd (o.ranked.run (t.capped cue o).entries)
  obtain ⟨hpos, m, hm, hbest⟩ := exists_best_capped (hkept a List.mem_cons_self)
  have hma : m.2 ≤ a.2 := by
    rcases List.mem_cons.1 (hranking ▸ mem_ranking.2 hm) with rfl | hrest
    · exact le_rfl
    · exact (List.pairwise_cons.1 hsorted).1 m hrest
  exact hlead a (hnext a List.mem_cons_self) b (hnext b (List.mem_cons_of_mem a hb))
    (fun c hc => (hbest c (hfrom.mem_iff.2 hc)).trans hma) hscore hne hpos

/-- **The lock, whatever the orders.** -/
theorem lockStep_orderFree {ranked ranked' : List Belief} (hranked : t.ranking cue o = ranked)
    (hlead : t.LeadClear cue) (hscores : ranked.map Prod.snd = ranked'.map Prod.snd)
    (hmem : ∀ b ∈ ranked', b ∈ ranked) :
    t.lockStep ranked.head? ((ranked[1]?.map Prod.snd).getD 0) =
      t.lockStep ranked'.head? ((ranked'[1]?.map Prod.snd).getD 0) := by
  have hrunner : ranked[1]?.map Prod.snd = ranked'[1]?.map Prod.snd := by
    rw [← List.getElem?_map, ← List.getElem?_map, hscores]
  rw [← hrunner]
  cases ranked with
  | nil =>
    obtain rfl := List.map_eq_nil_iff.1 hscores.symm
    rfl
  | cons a rest =>
    obtain ⟨b, rest', rfl, hscore, -⟩ := List.map_eq_cons_iff.1 hscores.symm
    by_cases hab : a = b
    · rw [hab, List.head?_cons, List.head?_cons]
    · have hb : b ∈ rest := (List.mem_cons.1 (hmem b List.mem_cons_self)).resolve_left (Ne.symm hab)
      have hweak := weak_of_shared hlead hranked hb hscore hab
      -- the second score is that of the first
      have hsecond : (((a :: rest)[1]?.map Prod.snd).getD 0 : ℚ) = a.2 := by
        have hsorted : (a :: rest).Pairwise fun b c => c.2 ≤ b.2 :=
          hranked ▸ pairwise_sort Prod.snd (o.ranked.run (t.capped cue o).entries)
        cases rest with
        | nil => exact absurd hb List.not_mem_nil
        | cons c rest =>
          obtain ⟨ha, hrest⟩ := List.pairwise_cons.1 hsorted
          have hbc : b.2 ≤ c.2 := by
            rcases List.mem_cons.1 hb with rfl | hb
            · exact le_rfl
            · exact (List.pairwise_cons.1 hrest).1 b hb
          exact le_antisymm (ha c List.mem_cons_self) (hscore ▸ hbc)
      rw [hsecond, List.head?_cons, List.head?_cons]
      have hnone : ∀ h : Belief, h.2 = a.2 → (h = a ∨ h = b) →
          t.lockStep (some h) a.2 = t.lockStep none a.2 := by
        intro h hh hwhich
        refine lockStep_of_weak ?_ ?_
        · rintro ⟨hthreshold, hmargin⟩
          rw [hh] at hthreshold hmargin
          rcases hweak with hlow | ⟨hclose, -⟩
          · exact absurd hthreshold (not_le.2 hlow)
          · exact absurd hmargin (not_le.2 hclose)
        · intro hthreshold
          rw [hh] at hthreshold
          rcases hweak with hlow | ⟨-, ha, hb⟩
          · exact absurd hthreshold (not_le.2 hlow)
          · rcases hwhich with rfl | rfl
            · exact ha
            · exact hb
      rw [hnone a rfl (Or.inl rfl), hnone b hscore (Or.inr rfl)]

/-- **One cue, whatever the orders**: the lock and the events come out alike, and so do the
hypotheses, but for their order. -/
theorem observe_orderFree (h : t.SameBeliefs t') (hcap : t.CapClear cue) (hlead : t.LeadClear cue)
    (o o' : StreamOrders) :
    (t.observe cue o).1.SameBeliefs (t'.observe cue o').1 ∧
      (t.observe cue o).2 = (t'.observe cue o').2 := by
  have hperm := perm_capped h hcap o o'
  have hranked : (o.ranked.run (t.capped cue o).entries).Perm
      (o'.ranked.run (t'.capped cue o').entries) :=
    (o.ranked.perm _).trans (hperm.trans (o'.ranked.perm _).symm)
  have hscores : (t.ranking cue o).map Prod.snd = (t'.ranking cue o').map Prod.snd :=
    map_sort_of_perm hranked
  have hmem : ∀ b ∈ t'.ranking cue o', b ∈ t.ranking cue o := fun b hb =>
    mem_ranking.2 (hperm.mem_iff.2 (mem_ranking.1 hb))
  have hlock := (lockStep_orderFree rfl hlead hscores hmem).trans (lockStep_eq h _ _)
  have hlocked := congrArg Prod.fst hlock
  have hevents := congrArg Prod.snd hlock
  exact ⟨⟨h.config, h.segments, h.index, hlocked, fun _ => HashMap.get?_eq_of_perm hperm⟩, hevents⟩

/-! ## Streams -/

theorem SameBeliefs.currentLock_eq (h : t.SameBeliefs t') : t.currentLock = t'.currentLock := by
  unfold currentLock segmentId
  rw [h.locked, h.segments]

/-- The events so far are the same, and the trackers differ at most in the order of their
hypotheses. -/
def SameSoFar (s s' : StreamTracker × List StreamEvent) : Prop := s.1.SameBeliefs s'.1 ∧ s.2 = s'.2

theorem step_orderFree (s s' : StreamTracker × List StreamEvent) (c c' : Cue × StreamOrders)
    (h : SameSoFar s s') (hclear : Clear s c) (hcue : c.1 = c'.1) :
    SameSoFar (step s c) (step s' c') := by
  obtain ⟨hbeliefs, hevents⟩ := observe_orderFree h.1 hclear.1 hclear.2 c.2 c'.2
  unfold step
  rw [← hcue, ← h.2, ← hevents]
  exact ⟨hbeliefs, rfl⟩

/-- **A stream, whatever the orders.**  While neither the cut nor the lead is among equal scores,
the events and the lock after each cue are the same for all orders of the hash maps. -/
theorem stream_orderFree (config : StreamConfig) (segments : List Segment)
    (cues cues' : List (Cue × StreamOrders))
    (hclear : AllSteps step Clear (ofCatalogue config segments, []) cues)
    (hcues : cues.map Prod.fst = cues'.map Prod.fst) (n : ℕ) :
    (stream config segments (cues.take n)).2 = (stream config segments (cues'.take n)).2 ∧
      (stream config segments (cues.take n)).1.currentLock =
        (stream config segments (cues'.take n)).1.currentLock := by
  have hpast : AllSteps step Clear (ofCatalogue config segments, []) (cues.take n) := by
    rw [← List.take_append_drop n cues, allSteps_append] at hclear
    exact hclear.1
  have hsame : (cues.take n).map Prod.fst = (cues'.take n).map Prod.fst := by
    rw [List.map_take, List.map_take, hcues]
  obtain ⟨hbeliefs, hevents⟩ : SameSoFar (stream config segments (cues.take n))
      (stream config segments (cues'.take n)) :=
    rel_run_of_allSteps step_orderFree ⟨.refl _, rfl⟩ hpast hsame
  exact ⟨hevents, hbeliefs.currentLock_eq⟩

end StreamTracker

/-- The hypotheses are ranked from the other end of the table. -/
def StreamOrders.fromTheEnd : StreamOrders := { ranked := .backwards }

/-- The longer of two segments that share a tail, and that tail. -/
def sharedTail : List Segment :=
  [segmentOf "a" [1, 2, 3, 4, 5, 6, 7, 8], segmentOf "b" [6, 7, 8]]

/-- Along the first segment, and up to the middle of the tail, the orders do not matter. -/
theorem lock_before_tail :
    (StreamTracker.stream {} sharedTail (streamOf [1, 2, 3, 6])).1.currentLock =
      (StreamTracker.stream {} sharedTail
        ([1, 2, 3, 6].map fun n => (cueOf n, .fromTheEnd))).1.currentLock := by
  have hclear : AllSteps StreamTracker.step StreamTracker.Clear
      (StreamTracker.ofCatalogue {} sharedTail, []) (streamOf [1, 2, 3, 6]) :=
    ⟨⟨Or.inl (by decide +kernel), by decide +kernel⟩,
      ⟨Or.inl (by decide +kernel), by decide +kernel⟩,
      ⟨Or.inl (by decide +kernel), by decide +kernel⟩,
      ⟨Or.inl (by decide +kernel), by decide +kernel⟩, trivial⟩
  exact (StreamTracker.stream_orderFree {} sharedTail (streamOf [1, 2, 3, 6])
    ([1, 2, 3, 6].map fun n => (cueOf n, .fromTheEnd)) hclear rfl 4).2

/-- At the end of the tail two hypotheses share the lead, and the order in which the map gives them
decides whether the lock is lost. -/
theorem lock_after_tail :
    (StreamTracker.stream {} sharedTail (streamOf [1, 2, 3, 6, 7, 8])).1.currentLock =
        some ("a", 8) ∧
      (StreamTracker.stream {} sharedTail
        ([1, 2, 3, 6, 7, 8].map fun n => (cueOf n, .fromTheEnd))).1.currentLock = none ∧
      (StreamTracker.stream {} sharedTail (streamOf [1, 2, 3, 6, 7, 8])).2 ≠
        (StreamTracker.stream {} sharedTail
          ([1, 2, 3, 6, 7, 8].map fun n => (cueOf n, .fromTheEnd))).2 := by
  decide +kernel

end Spectral
