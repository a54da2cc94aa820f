import Mathlib.Data.Int.ConditionallyCompleteOrder
import Mathlib.Data.Prod.Lex
import Mathlib.Data.String.Basic
import Mathlib.Order.WithBot
import Spectral.Lib.Winners
import Spectral.Recall.Signals

/-!
# Superseded facts

What `partition` does with the hits of a recall: of the hits that state something about one topic it
keeps the one with the latest time stamp and suppresses the others, each with the key of the one
that superseded it.

* `partition` — the pass over the hits; the winner of a topic is that of `Spectral.Lib.Winners`.
* `mem_suppressed_iff` — what is suppressed, by whom.
* `partition_perm`, `suppressed_perm` — nothing is lost, and the order of the hits is of no matter.
* `superseder`, `suppressor_winner` — what suppresses a hit where keys are not distinct.
* `partition_sound_iff` — a time stamp is compared as a string, though it is stored in two formats:
  the winner is the newest hit of its topic only where the two orders agree on it.

The two patterns of a topic and the reading of a time stamp are parameters: the engines of regular
expressions and of dates are libraries.
-/

namespace Spectral.Supersession

open Spectral.Lib

/-- What `partition` reads of a `MemoryHit`. -/
structure Hit where
  key : String
  content : String
  createdAt : Option String
  episodeId : Option String
  deriving DecidableEq

/-- `SupersessionReport`. -/
structure SupersessionReport where
  kept : List Hit
  suppressed : List (Hit × String)
  deriving DecidableEq

/-- `SupersessionConfig`. -/
structure SupersessionConfig where
  enabled : Bool := false
  crossSessionOnly : Bool := true

/-- The attribute that each of the patterns captures, where it matches. -/
structure Patterns where
  myXIs : String → Option String
  switchedTo : String → Option String

section

variable (u : CharTables) (re : Patterns)

/-- `normalise`. -/
def normalise (attr : String) : String :=
  let lower := u.toLowercase (trimMatches u.isWhitespace attr.toList)
  let bare := lower.rdropWhile fun c => !u.isAlphanumeric c
  " ".intercalate ((u.splitWhitespace bare).map String.ofList)

/-- What a pattern captures, normalised, if that leaves anything. -/
def captured (captures : String → Option String) (content : String) : Option String :=
  ((captures content).map (normalise u)).filter fun attr => attr ≠ ""

/-- `topic_key`. -/
def topicKey (content : String) : Option String :=
  (captured u re.myXIs content).or (captured u re.switchedTo content)

/-- `session_of`. -/
def sessionOf (hit : Hit) : String :=
  hit.episodeId.getD (String.ofList (hit.key.toList.takeWhile fun c => c ≠ ':'))

/-- `ts`. -/
def ts (hit : Hit) : String := hit.createdAt.getD ""

/-- What two hits of a topic are compared by. -/
def stamp (hit : Hit) : String ×ₗ String := toLex (ts hit, hit.key)

/-- `winner`: the hit, with its index, that each topic goes to. -/
def winner (hits : List Hit) : HashMap String (Hit × ℕ) :=
  winners (fun p => topicKey u re p.1.content) (fun p => stamp p.1) hits.zipIdx

/-- The key that a hit is suppressed by, if it is. -/
def suppressor (config : SupersessionConfig) (m : HashMap String (Hit × ℕ)) (p : Hit × ℕ) :
    Option String :=
  match topicKey u re p.1.content with
  | none => none
  | some topic =>
    (m.get? topic).bind fun w =>
      if w.2 = p.2 then none
      else if config.crossSessionOnly && decide (sessionOf p.1 = sessionOf w.1) then none
      else some w.1.key

/-- `partition`. -/
def partition (config : SupersessionConfig) (hits : List Hit) : SupersessionReport :=
  if !config.enabled || decide (hits.length < 2) then ⟨hits, []⟩
  else
    let judge := suppressor u re config (winner u re hits)
    { kept := (hits.zipIdx.filter fun p => (judge p).isNone).map Prod.fst
      suppressed := hits.zipIdx.filterMap fun p => (judge p).map fun key => (p.1, key) }

/-- The hit has the greatest stamp of its topic, which is the topic of the other one. -/
structure Displaces (config : SupersessionConfig) (hits : List Hit) (a h : Hit) : Prop where
  leads : ∃ topic, topicKey u re h.content = some topic ∧
    Wins (fun x => topicKey u re x.content) stamp hits topic a
  other : h ≠ a
  sessions : config.crossSessionOnly = true → sessionOf h ≠ sessionOf a

end

variable {u : CharTables} {re : Patterns} {config : SupersessionConfig} {hits : List Hit}
  {p q : Hit × ℕ} {a b h : Hit} {key : String}

/-! ## What is suppressed -/

/-- Where keys are distinct, so are stamps, and a stamp tells the place. -/
theorem eq_of_stamp_eq (hkeys : (hits.map Hit.key).Nodup) (hp : p ∈ hits.zipIdx)
    (hq : q ∈ hits.zipIdx) (h : stamp p.1 = stamp q.1) : p = q := by
  have hkey : p.1.key = q.1.key := (Prod.mk.inj (toLex.injective h)).2
  have hp' : (hits.map Hit.key)[p.2]? = some p.1.key := by
    simp [List.mem_zipIdx_iff_getElem?.1 hp]
  have hq' : (hits.map Hit.key)[q.2]? = some p.1.key := by
    simp [List.mem_zipIdx_iff_getElem?.1 hq, hkey]
  have hlt : p.2 < (hits.map Hit.key).length := (List.getElem?_eq_some_iff.1 hp').1
  have hplace : p.2 = q.2 := (List.getElem?_inj hlt hkeys).1 (hp'.trans hq'.symm)
  have hhit : p.1 = q.1 := by
    have := List.mem_zipIdx_iff_getElem?.1 hp
    rw [hplace, List.mem_zipIdx_iff_getElem?.1 hq] at this
    exact (Option.some.inj this).symm
  exact Prod.ext hhit hplace

theorem get?_winner_iff (hkeys : (hits.map Hit.key).Nodup) {topic : String} :
    (winner u re hits).get? topic = some p ↔ p ∈ hits.zipIdx ∧
      Wins (fun x => topicKey u re x.content) stamp hits topic p.1 := by
  have hinj : ∀ x ∈ hits.zipIdx, ∀ y ∈ hits.zipIdx, stamp x.1 = stamp y.1 → x = y :=
    fun x hx y hy => eq_of_stamp_eq hkeys hx hy
  exact (get?_winners_iff hinj).trans (wins_zipIdx_iff (fun x => topicKey u re x.content) stamp)

/-- A hit is suppressed by the one that displaces it. -/
theorem suppressor_eq_some_iff (hkeys : (hits.map Hit.key).Nodup) (hp : p ∈ hits.zipIdx) :
    suppressor u re config (winner u re hits) p = some key ↔
      ∃ a, Displaces u re config hits a p.1 ∧ a.key = key := by
  unfold suppressor
  cases htopic : topicKey u re p.1.content with
  | none =>
    simp only [reduceCtorEq, false_iff]
    rintro ⟨a, h, -⟩
    obtain ⟨topic, ht, -⟩ := h.leads
    simp [htopic] at ht
  | some topic =>
    simp only [Option.bind_eq_some_iff, get?_winner_iff hkeys]
    constructor
    · rintro ⟨w, ⟨hw, hwins⟩, h⟩
      split at h
      · cases h
      · rename_i hplace
        split at h
        · cases h
        · rename_i hsession
          refine ⟨w.1, ⟨⟨topic, htopic, hwins⟩, fun heq => hplace ?_, fun hcross heq => hsession ?_⟩,
            Option.some.inj h⟩
          · rw [eq_of_stamp_eq hkeys hw hp (congrArg stamp heq.symm)]
          · simp [hcross, heq]
    · rintro ⟨a, ⟨⟨topic', ht, hwins⟩, hother, hsessions⟩, rfl⟩
      rw [htopic, Option.some.injEq] at ht
      subst ht
      obtain ⟨i, hi, ha⟩ := List.getElem_of_mem hwins.mem
      have hmem : (a, i) ∈ hits.zipIdx :=
        List.mk_mem_zipIdx_iff_getElem?.2 (List.getElem?_eq_some_iff.2 ⟨hi, ha⟩)
      refine ⟨(a, i), ⟨hmem, hwins⟩, ?_⟩
      rw [if_neg, if_neg]
      · simpa using hsessions
      · intro hplace
        have := List.mem_zipIdx_iff_getElem?.1 hp
        rw [← hplace, List.mk_mem_zipIdx_iff_getElem?.1 hmem] at this
        exact hother (Option.some.inj this).symm

/-- A hit that is displaced stands with another one in the list. -/
theorem Displaces.two_le (h : Displaces u re config hits a b) (hb : b ∈ hits) :
    2 ≤ hits.length := by
  obtain ⟨topic, -, hwins⟩ := h.leads
  match hits, hb, hwins.mem with
  | [x], hb, ha => exact absurd ((List.mem_singleton.1 hb).trans (List.mem_singleton.1 ha).symm) h.other
  | _ :: _ :: _, _, _ => simp

/-- **What is suppressed**, and by whom. -/
theorem mem_suppressed_iff (henabled : config.enabled = true) (hkeys : (hits.map Hit.key).Nodup) :
    (h, key) ∈ (partition u re config hits).suppressed ↔
      h ∈ hits ∧ ∃ a, Displaces u re config hits a h ∧ a.key = key := by
  unfold partition
  by_cases hlen : hits.length < 2
  · have hnone : ¬ ∃ a, h ∈ hits ∧ Displaces u re config hits a h := fun ⟨a, hmem, hd⟩ => by
      have := hd.two_le hmem
      omega
    simp only [henabled, hlen, Bool.not_true, decide_true, Bool.or_true, if_true, List.not_mem_nil,
      false_iff]
    exact fun ⟨hmem, a, hd, _⟩ => hnone ⟨a, hmem, hd⟩
  · simp only [henabled, hlen, Bool.not_true, decide_false, Bool.or_self, Bool.false_eq_true, if_false,
      List.mem_filterMap, Option.map_eq_some_iff, Prod.mk.injEq]
    constructor
    · rintro ⟨p, hp, _, hsup, rfl, rfl⟩
      exact ⟨List.fst_mem_of_mem_zipIdx hp, (suppressor_eq_some_iff hkeys hp).1 hsup⟩
    · rintro ⟨hmem, hd⟩
      obtain ⟨i, hi, rfl⟩ := List.getElem_of_mem hmem
      have hp : (hits[i], i) ∈ hits.zipIdx :=
        List.mk_mem_zipIdx_iff_getElem?.2 (List.getElem?_eq_getElem hi)
      exact ⟨_, hp, key, (suppressor_eq_some_iff hkeys hp).2 hd, rfl, rfl⟩

/-- **Nothing is lost**: a hit is kept or suppressed. -/
theorem partition_perm (u : CharTables) (re : Patterns) (config : SupersessionConfig)
    (hits : List Hit) :
    ((partition u re config hits).kept ++
      (partition u re config hits).suppressed.map Prod.fst).Perm hits := by
  unfold partition
  split
  · simp
  · dsimp only
    set judge := suppressor u re config (winner u re hits)
    have hsuppressed : (hits.zipIdx.filterMap fun p => (judge p).map fun key => (p.1, key)).map
        Prod.fst = (hits.zipIdx.filter fun p => !(judge p).isNone).map Prod.fst := by
      generalize hits.zipIdx = l
      induction l with
      | nil => rfl
      | cons p l ih => cases hp : judge p <;> simp [hp, ih]
    rw [hsuppressed, ← List.map_append]
    refine ((List.filter_append_perm _ _).map Prod.fst).trans ?_
    rw [List.zipIdx_map_fst]

theorem nodup_suppressed (hkeys : (hits.map Hit.key).Nodup) :
    ((partition u re config hits).suppressed.map Prod.fst).Nodup :=
  ((partition_perm u re config hits).nodup_iff.2 hkeys.of_map).of_append_right

/-- **Who displaces a hit is kept.** -/
theorem Displaces.mem_kept (henabled : config.enabled = true) (hkeys : (hits.map Hit.key).Nodup)
    (h : Displaces u re config hits a b) : a ∈ (partition u re config hits).kept := by
  obtain ⟨topic, -, hwins⟩ := h.leads
  have hmem := (partition_perm u re config hits).mem_iff.2 hwins.mem
  refine (List.mem_append.1 hmem).resolve_right fun hsup => ?_
  obtain ⟨s, hs, hsa⟩ := List.mem_map.1 hsup
  obtain ⟨-, c, hc, -⟩ := (mem_suppressed_iff henabled hkeys).1 hs
  rw [hsa] at hc
  obtain ⟨topic', ht, hwins'⟩ := hc.leads
  -- both lead one topic
  rw [hwins.key_eq, Option.some.injEq] at ht
  subst ht
  have hstamp : stamp a = stamp c := le_antisymm (hwins'.greatest a hwins.mem hwins.key_eq)
    (hwins.greatest c hwins'.mem hwins'.key_eq)
  exact hc.other (List.inj_on_of_nodup_map hkeys hwins.mem hwins'.mem
    (Prod.mk.inj (toLex.injective hstamp)).2)

/-- In another order the same hit displaces. -/
theorem Displaces.perm {hits' : List Hit} (h : Displaces u re config hits a b)
    (hperm : hits.Perm hits') : Displaces u re config hits' a b where
  leads := h.leads.imp fun _ ⟨htopic, hwins⟩ => ⟨htopic, hwins.perm hperm⟩
  other := h.other
  sessions := h.sessions

/-- **The order of the hits is of no matter**. -/
theorem suppressed_perm (henabled : config.enabled = true) (hkeys : (hits.map Hit.key).Nodup)
    {hits' : List Hit} (hperm : hits.Perm hits') :
    (partition u re config hits').suppressed.Perm (partition u re config hits).suppressed := by
  have hkeys' : (hits'.map Hit.key).Nodup := (hperm.map Hit.key).nodup_iff.1 hkeys
  refine (List.perm_ext_iff_of_nodup (nodup_suppressed hkeys').of_map
    (nodup_suppressed hkeys).of_map).2 fun ⟨h, key⟩ => ?_
  rw [mem_suppressed_iff henabled hkeys, mem_suppressed_iff henabled hkeys', hperm.mem_iff]
  refine and_congr_right fun _ => exists_congr fun a => and_congr_left fun _ => ?_
  exact ⟨fun h => h.perm hperm.symm, fun h => h.perm hperm⟩

/-! ## Hits with one key -/

/-- What supersedes a hit, whatever the keys: the first hit of its topic with the greatest stamp. -/
def superseder (u : CharTables) (re : Patterns) (config : SupersessionConfig) (hits : List Hit)
    (p : Hit × ℕ) : Option (Hit × ℕ) :=
  (topicKey u re p.1.content).bind fun topic =>
    ((hits.zipIdx.filter fun q => topicKey u re q.1.content = some topic).argmax
      fun q => stamp q.1).filter fun w =>
        decide (w.2 ≠ p.2) && !(config.crossSessionOnly && decide (sessionOf p.1 = sessionOf w.1))

/-- A hit is suppressed by what supersedes it. -/
theorem suppressor_winner (u : CharTables) (re : Patterns) (config : SupersessionConfig)
    (hits : List Hit) (p : Hit × ℕ) :
    suppressor u re config (winner u re hits) p =
      (superseder u re config hits p).map fun w => w.1.key := by
  unfold suppressor superseder winner
  cases topicKey u re p.1.content with
  | none => rfl
  | some topic =>
    rw [Option.bind_some]
    dsimp only
    rw [get?_winners]
    cases (hits.zipIdx.filter fun q => topicKey u re q.1.content = some topic).argmax
        fun q => stamp q.1 with
    | none => rfl
    | some w =>
      rw [Option.bind_some, Option.filter_some]
      by_cases hplace : w.2 = p.2
      · simp [hplace]
      · by_cases hsession : (config.crossSessionOnly && decide (sessionOf p.1 = sessionOf w.1)) = true
        · simp [hplace, hsession]
        · simp [hplace, hsession]

/-- A hit that is superseded stands with another one in the list. -/
theorem two_le_of_superseder {w : Hit × ℕ} (hp : p ∈ hits.zipIdx)
    (h : superseder u re config hits p = some w) : 2 ≤ hits.length := by
  obtain ⟨topic, -, hw⟩ := Option.bind_eq_some_iff.1 h
  obtain ⟨hw, hother⟩ := Option.filter_eq_some_iff.1 hw
  have hwmem := (List.mem_filter.1 (List.argmax_mem (Option.mem_def.2 hw))).1
  have hplace : w.2 ≠ p.2 := of_decide_eq_true (Bool.and_eq_true_iff.1 hother).1
  have hlt := (List.getElem?_eq_some_iff.1 (List.mem_zipIdx_iff_getElem?.1 hp)).1
  have hlt' := (List.getElem?_eq_some_iff.1 (List.mem_zipIdx_iff_getElem?.1 hwmem)).1
  omega

/-! ## What is newest -/

section

variable (u : CharTables) (re : Patterns) (instant : String → Option ℤ)

/-- The time of a hit, in seconds: an undated one is older than any other. -/
def time (hit : Hit) : WithBot ℤ := (hit.createdAt.bind instant).elim ⊥ fun t => (t : WithBot ℤ)

/-- No hit of the topic is newer. -/
def Newest (hits : List Hit) (topic : Option String) (a : Hit) : Prop :=
  ∀ x ∈ hits, topicKey u re x.content = topic → time instant x ≤ time instant a

/-- What a partition is meant to be. -/
structure Sound (config : SupersessionConfig) (hits : List Hit) : Prop where
  perm : ((partition u re config hits).kept ++
    (partition u re config hits).suppressed.map Prod.fst).Perm hits
  classified : ∀ s ∈ (partition u re config hits).suppressed, topicKey u re s.1.content ≠ none
  superseded : ∀ s ∈ (partition u re config hits).suppressed,
    ∃ a ∈ (partition u re config hits).kept, a.key = s.2 ∧
      topicKey u re a.content = topicKey u re s.1.content ∧
      Newest u re instant hits (topicKey u re s.1.content) a
  stable : ∀ hits', hits.Perm hits' →
    ((partition u re config hits').suppressed.map fun s => s.1.key).Perm
      ((partition u re config hits).suppressed.map fun s => s.1.key)

end

variable {instant : String → Option ℤ}

/-- **The partition is what it is meant to be** exactly if no hit that displaces another, as the
one of its topic with the greatest stamp, is older than a hit of that topic. -/
theorem partition_sound_iff (henabled : config.enabled = true)
    (hkeys : (hits.map Hit.key).Nodup) :
    Sound u re instant config hits ↔ ∀ a, ∀ h ∈ hits, Displaces u re config hits a h →
      Newest u re instant hits (topicKey u re h.content) a := by
  constructor
  · intro hsound a h hmem hd
    obtain ⟨a', ha', hkey, -, hnewest⟩ :=
      hsound.superseded (h, a.key) ((mem_suppressed_iff henabled hkeys).2 ⟨hmem, a, hd, rfl⟩)
    obtain ⟨_, -, hwins⟩ := hd.leads
    have hin : a' ∈ hits := hsound.perm.mem_iff.1 (List.mem_append_left _ ha')
    rwa [← List.inj_on_of_nodup_map hkeys hin hwins.mem hkey]
  · intro hnewest
    refine ⟨partition_perm u re config hits, fun s hs => ?_, fun s hs => ?_, fun hits' hperm =>
      (suppressed_perm henabled hkeys hperm).map _⟩
    · obtain ⟨-, a, hd, -⟩ := (mem_suppressed_iff henabled hkeys).1 hs
      obtain ⟨topic, htopic, -⟩ := hd.leads
      simp [htopic]
    · obtain ⟨hmem, a, hd, hkey⟩ := (mem_suppressed_iff henabled hkeys).1 hs
      obtain ⟨topic, htopic, hwins⟩ := hd.leads
      exact ⟨a, hd.mem_kept henabled hkeys, hkey, hwins.key_eq.trans htopic.symm,
        hnewest a s.1 hmem hd⟩

/-! Two employers of one day: the stamp of the morning was imported, that of the evening written by
the store. -/

/-- The hit of the morning. -/
def morningHit : Hit := ⟨"s1:0", "my employer is Stripe", some "2026-03-01T09:00:00+00:00", some "s1"⟩

/-- The hit of the evening. -/
def eveningHit : Hit := ⟨"s2:0", "my employer is Acme", some "2026-03-01 18:00:00", some "s2"⟩

/-- The attribute of the two. -/
def employerPatterns : Patterns where
  myXIs content := if content ∈ [morningHit.content, eveningHit.content] then some "employer" else none
  switchedTo _ := none

/-- The seconds of the two stamps. -/
def instantOfDay (s : String) : Option ℤ :=
  if s = "2026-03-01T09:00:00+00:00" then some 1772355600
  else if s = "2026-03-01 18:00:00" then some 1772388000
  else none

/-- **The older employer supersedes the newer one**: as strings, `T` comes after a blank. -/
theorem morning_supersedes_evening :
    (SupersessionConfig.mk true true).enabled = true ∧
      ([morningHit, eveningHit].map Hit.key).Nodup ∧
      ¬ Sound .ascii employerPatterns instantOfDay ⟨true, true⟩ [morningHit, eveningHit] := by
  have hpartition : partition .ascii employerPatterns ⟨true, true⟩ [morningHit, eveningHit] =
      ⟨[morningHit], [(eveningHit, "s1:0")]⟩ := by decide +kernel
  refine ⟨rfl, by decide, fun hsound => ?_⟩
  obtain ⟨a, ha, -, -, hnewest⟩ := hsound.superseded (eveningHit, "s1:0") (by simp [hpartition])
  have hmorning : a = morningHit := by simpa [hpartition] using ha
  have hle := hnewest eveningHit (by simp) rfl
  rw [hmorning] at hle
  exact absurd hle (by decide)

theorem partition_sound_iff_ofDay :
    Sound .ascii employerPatterns instantOfDay ⟨true, true⟩ [morningHit, eveningHit] ↔
      ∀ a, ∀ h ∈ [morningHit, eveningHit],
        Displaces .ascii employerPatterns ⟨true, true⟩ [morningHit, eveningHit] a h →
          Newest .ascii employerPatterns instantOfDay [morningHit, eveningHit]
            (topicKey .ascii employerPatterns h.content) a :=
  partition_sound_iff rfl (by decide)

/-- Where the stamps of a list are in one format, so that their order as strings is that of time,
the hit that displaces is the newest. -/
theorem newest_of_monotone
    (hmono : ∀ x ∈ hits, ∀ y ∈ hits, ts x ≤ ts y → time instant x ≤ time instant y)
    (hd : Displaces u re config hits a h) :
    Newest u re instant hits (topicKey u re h.content) a := by
  obtain ⟨topic, htopic, hwins⟩ := hd.leads
  intro x hx hsame
  refine hmono x hx a hwins.mem ?_
  have hle := hwins.greatest x hx (hsame.trans htopic)
  rcases (Prod.Lex.le_iff).1 hle with hlt | ⟨heq, -⟩
  · exact hlt.le
  · exact heq.le

end Spectral.Supersession
