import Mathlib.Order.WithBot
import Spectral.Ingest.AsOf
import Spectral.Ingest.Strongest

/-!
# Retention of activity

Two sweeps delete old activity: what was created before a cutoff, and what is not among the most
recent memories of its source.  Both compare `datetime(created_at)`, which has no fractions.

* `mem_pruneActivityKeepRecent_iff`, `mem_pruneActivityOlderThan_iff` — what the sweeps keep.
* `KeepsNewest`, `DeletesOlder` — what they are to keep.
* `retention_iff` — they do so if and only if no cut divides a second the wrong way: the order of the
  ids is that of the fractions where the most recent end, and in the second of the cutoff nothing is
  earlier than the cutoff.
-/

namespace Spectral

open Spectral.Lib

/-! ## The sweeps -/

/-- SQLite reads a stamp in UTC to the second. -/
def Platform.Reads (pf : Platform) (t : Stamp) : Prop :=
  t.format.offset = 0 ∧ pf.datetime t.text = some t.toSecond.text

instance (pf : Platform) (t : Stamp) : Decidable (pf.Reads t) := inferInstanceAs (Decidable (_ ∧ _))

/-- A `DateTime<Utc>`: a stamp, or an instant outside the years of SQLite. -/
inductive Cutoff where
  | stamp (t : Stamp)
  | outside (text : String) (instant : ℚ)

namespace Cutoff

/-- `to_rfc3339`. -/
def toRfc3339 : Cutoff → String
  | stamp t => t.text
  | outside text _ => text

def instant : Cutoff → ℚ
  | stamp t => t.instant
  | outside _ instant => instant

/-- What SQLite makes of a cutoff: outside its years it is no date, or one before the year 0. -/
def Read (pf : Platform) : Cutoff → Prop
  | stamp t => pf.Reads t
  | outside text _ => ∀ x ∈ pf.datetime text, ∃ rest, x = "-" ++ rest

/-- The cutoff has nothing just before it: of its own second, or of all time when SQLite does not
know it. -/
def Near : Cutoff → Stamp → Prop
  | stamp t, a => a.second = t.second
  | outside _ _, _ => True

end Cutoff

namespace Platform

variable (pf : Platform) (activityWing : String) (s : Store)

/-- `prune_activity_older_than`. -/
def pruneActivityOlderThan (cutoff : Cutoff) : Store × ℕ :=
  pf.deleteWingMemoriesBefore s activityWing cutoff.toRfc3339

/-- `prune_activity_keep_recent`. -/
def pruneActivityKeepRecent (perBundle : ℕ) : Store × ℕ := pf.prune s activityWing perBundle

end Platform

/-! ## What is to be kept -/

namespace Store

/-- The memories were created at these times, and SQLite reads them. -/
def Dated (pf : Platform) (created : MemoryRow → Stamp) (s : Store) : Prop :=
  ∀ r ∈ s.memories.rows, r.createdAt = (created r).text ∧ pf.Reads (created r)

instance (pf : Platform) (created : MemoryRow → Stamp) (s : Store) : Decidable (s.Dated pf created) :=
  inferInstanceAs (Decidable (∀ r ∈ s.memories.rows, _ ∧ _))

section

variable (created : MemoryRow → Stamp) (wing : String) (s : Store)

/-- **The most recent of each source are kept**, and nothing else is touched. -/
structure KeepsNewest (keep : ℕ) (s' : Store) : Prop where
  counted : ∀ source, s'.memories.countWhere (Platform.fromSource wing source) =
    min keep (s.memories.countWhere (Platform.fromSource wing source))
  kept : ∀ r ∈ s'.memories, r ∈ s.memories
  newest : ∀ source, ∀ a ∈ s.memories, ∀ b ∈ s'.memories, Platform.fromSource wing source a = true →
    Platform.fromSource wing source b = true → a ∉ s'.memories →
      (created a).instant ≤ (created b).instant
  untouched : ∀ r ∈ s.memories, r.wing ≠ some wing ∨ r.source = none → r ∈ s'.memories

/-- **Exactly what is older goes.** -/
def DeletesOlder (cutoff : ℚ) (s' : Store) : Prop :=
  ∀ r, r ∈ s'.memories ↔ r ∈ s.memories ∧ ¬ (r.wing = some wing ∧ (created r).instant < cutoff)

/-- The order of the sweep: the later second first, then the greater id. -/
def Newer (a b : MemoryRow) : Prop :=
  (created b).second < (created a).second ∨ (created a).second = (created b).second ∧ b.id < a.id

instance : DecidableRel (Newer created) := fun a b =>
  inferInstanceAs (Decidable ((created b).second < (created a).second ∨
    (created a).second = (created b).second ∧ b.id < a.id))

/-- How many memories of a source come before a memory. -/
def newer (source : String) (r : MemoryRow) : ℕ :=
  s.memories.countWhere fun r' => Platform.fromSource wing source r' && decide (Newer created r' r)

/-- Where the earlier of two memories of a source and a second has the greater id, the cut is not
between them. -/
def SecondsUndivided (keep : ℕ) : Prop :=
  ∀ source, ∀ a ∈ s.memories, ∀ b ∈ s.memories, Platform.fromSource wing source a = true →
    Platform.fromSource wing source b = true → (created a).second = (created b).second →
      (created a).instant < (created b).instant → b.id < a.id →
        ¬ (s.newer created wing source a < keep ∧ keep ≤ s.newer created wing source b)

/-- Nothing in the second of the cutoff is earlier than the cutoff. -/
def CutoffUndivided (cutoff : Cutoff) : Prop :=
  ∀ r ∈ s.memories, r.wing = some wing → cutoff.Near (created r) → cutoff.instant ≤ (created r).instant

end

/-! ## What SQLite compares -/

variable {pf : Platform} {created : MemoryRow → Stamp} {wing source : String} {s : Store} {keep : ℕ}
  {a b r : MemoryRow}

theorem Dated.datetime_eq (h : s.Dated pf created) (hr : r ∈ s.memories) :
    pf.datetime r.createdAt = some (created r).toSecond.text := by
  obtain ⟨htext, -, hread⟩ := h r hr
  rw [htext, hread]

theorem Dated.offset_eq (h : s.Dated pf created) (hr : r ∈ s.memories) :
    (created r).format.offset = 0 := (h r hr).2.1

/-- `NULL` is the least value. -/
theorem nullsFirst_iff {x y : Option String} :
    Platform.nullsFirst x y = true ↔ @LT.lt (WithBot String) _ x y := by
  cases x with
  | none =>
    cases y with
    | none => exact iff_of_false nofun (lt_irrefl (⊥ : WithBot String))
    | some y => exact iff_of_true rfl (WithBot.bot_lt_coe y)
  | some x =>
    cases y with
    | none => exact iff_of_false nofun (WithBot.not_lt_bot _)
    | some y => exact decide_eq_true_iff.trans WithBot.coe_lt_coe.symm

theorem newerFirst_eq : pf.NewerFirst = fun a b =>
    @LT.lt (WithBot String) _ (pf.datetime b.createdAt) (pf.datetime a.createdAt) ∨
      pf.datetime a.createdAt = pf.datetime b.createdAt ∧ b.id ≤ a.id := by
  funext a b
  exact congrArg (· ∨ _) (propext nullsFirst_iff)

theorem pairwise_newerFirst (rows : List MemoryRow) :
    (rows.insertionSort pf.NewerFirst).Pairwise pf.NewerFirst := by
  have hids : Std.Total fun a b : MemoryRow => b.id ≤ a.id := ⟨fun _ _ => le_total _ _⟩
  have hids' : IsTrans MemoryRow fun a b => b.id ≤ a.id := ⟨fun _ _ _ h h' => h'.trans h⟩
  let date : MemoryRow → WithBot String := fun r => pf.datetime r.createdAt
  have htotal : Std.Total pf.NewerFirst := newerFirst_eq ▸ total_then date hids
  have htrans : IsTrans MemoryRow pf.NewerFirst := newerFirst_eq ▸ isTrans_then date hids'
  exact List.pairwise_insertionSort _ rows

/-- Of memories that are dated, the order of the sweep is that of the seconds. -/
theorem Dated.newer (h : s.Dated pf created) (ha : a ∈ s.memories) (hb : b ∈ s.memories)
    (hne : a.id ≠ b.id) (hab : pf.NewerFirst a b) : Newer created a b := by
  rw [newerFirst_eq, h.datetime_eq ha, h.datetime_eq hb] at hab
  rcases hab with hlt | ⟨heq, hle⟩
  · exact Or.inl (Stamp.text_toSecond_lt_iff.1 (WithBot.coe_lt_coe.1 hlt))
  · exact Or.inr ⟨Stamp.text_toSecond_inj.1 (Option.some.inj heq), lt_of_le_of_ne hle hne.symm⟩

theorem not_newer_self (r : MemoryRow) : ¬ Newer created r r := by
  rintro (h | ⟨-, h⟩)
  · exact lt_irrefl _ h
  · exact lt_irrefl _ h

theorem Newer.not_newer (h : Newer created a b) : ¬ Newer created b a := by
  rintro (h' | ⟨heq', hlt'⟩)
  · rcases h with h | ⟨heq, -⟩
    · exact lt_asymm h h'
    · exact h'.ne heq
  · rcases h with h | ⟨-, hlt⟩
    · exact h.ne heq'
    · exact lt_asymm hlt hlt'

theorem Newer.trans {c : MemoryRow} (h : Newer created a b) (h' : Newer created b c) :
    Newer created a c := by
  rcases h with hlt | ⟨heq, hid⟩ <;> rcases h' with hlt' | ⟨heq', hid'⟩
  · exact Or.inl (hlt'.trans hlt)
  · exact Or.inl (heq' ▸ hlt)
  · exact Or.inl (heq ▸ hlt')
  · exact Or.inr ⟨heq.trans heq', hid'.trans hid⟩

theorem newer_le_of_newer (h : Newer created a b) :
    s.newer created wing source a ≤ s.newer created wing source b := by
  refine List.countP_mono_left fun r _ hr => ?_
  obtain ⟨hsource, hnewer⟩ := Bool.and_eq_true_iff.1 hr
  exact Bool.and_eq_true_iff.2
    ⟨hsource, decide_eq_true (Newer.trans (of_decide_eq_true hnewer) h)⟩

/-! ## The most recent of a source -/

/-- The memories of a source, in the order of the sweep. -/
def bySecond (pf : Platform) (s : Store) (wing source : String) : List MemoryRow :=
  (s.memories.rows.filter (Platform.fromSource wing source)).insertionSort pf.NewerFirst

theorem mem_bySecond : r ∈ bySecond pf s wing source ↔
    r ∈ s.memories ∧ Platform.fromSource wing source r = true :=
  (List.mem_insertionSort _).trans List.mem_filter

theorem perm_bySecond : (bySecond pf s wing source).Perm
    (s.memories.rows.filter (Platform.fromSource wing source)) := List.perm_insertionSort _ _

theorem nodup_bySecond : (bySecond pf s wing source).Nodup :=
  perm_bySecond.nodup_iff.2 (s.memories.nodup_rows.filter _)

theorem Dated.pairwise_bySecond (h : s.Dated pf created) :
    (bySecond pf s wing source).Pairwise (Newer created) := by
  have hids : (bySecond pf s wing source).Pairwise fun a b => a.id ≠ b.id :=
    (perm_bySecond.pairwise_iff fun h => Ne.symm h).2 (s.pairwise_ids.sublist List.filter_sublist)
  refine List.Pairwise.imp_of_mem (fun {a b} ha hb hab => ?_) ((pairwise_newerFirst _).and hids)
  exact h.newer (mem_bySecond.1 ha).1 (mem_bySecond.1 hb).1 hab.2 hab.1

/-- **A memory is among the most recent** exactly when fewer than so many come before it. -/
theorem Dated.mem_take_iff (h : s.Dated pf created) (hr : r ∈ s.memories)
    (hsource : Platform.fromSource wing source r = true) :
    r ∈ (bySecond pf s wing source).take keep ↔ s.newer created wing source r < keep := by
  have hcount : (bySecond pf s wing source).countP (fun r' => decide (Newer created r' r)) =
      s.newer created wing source r := by
    rw [perm_bySecond.countP_eq, List.countP_filter]
    exact List.countP_congr fun r' _ => by rw [Bool.and_comm]
  rw [← hcount]
  exact mem_take_iff_of_pairwise not_newer_self (fun _ _ h => h.not_newer) h.pairwise_bySecond
    (mem_bySecond.2 ⟨hr, hsource⟩)

theorem id_mem_recentIds_iff (hr : r ∈ s.memories) :
    r.id ∈ pf.recentIds s wing keep source ↔ r ∈ (bySecond pf s wing source).take keep := by
  rw [Platform.recentIds, List.mem_map]
  constructor
  · rintro ⟨r', hr', hid⟩
    exact eq_of_id (mem_bySecond.1 (List.mem_of_mem_take hr')).1 hr hid ▸ hr'
  · exact fun hmem => ⟨r, hmem, rfl⟩

/-- What a sweep keeps of a source. -/
theorem mem_pruneActivityKeepRecent_iff (hsource : Platform.fromSource wing source r = true) :
    r ∈ (pf.pruneActivityKeepRecent wing s keep).1.memories ↔
      r ∈ (bySecond pf s wing source).take keep := by
  have hof : r.source = some source := of_decide_eq_true (Bool.and_elim_right hsource)
  have hpruned : pf.pruned s wing keep r = decide (r.id ∉ pf.recentIds s wing keep source) := by
    simp [Platform.pruned, hof, Platform.stale, hsource]
  rw [Platform.pruneActivityKeepRecent, Platform.prune_eq_deleteMemories, memories_deleteMemories,
    Table.mem_deleteWhere, hpruned, decide_eq_false_iff_not, not_not]
  constructor
  · rintro ⟨hr, hid⟩
    exact (id_mem_recentIds_iff hr).1 hid
  · intro hmem
    have hr := (mem_bySecond.1 (List.mem_of_mem_take hmem)).1
    exact ⟨hr, (id_mem_recentIds_iff hr).2 hmem⟩

theorem mem_of_mem_pruneActivityKeepRecent
    (h : r ∈ (pf.pruneActivityKeepRecent wing s keep).1.memories) : r ∈ s.memories := by
  rw [Platform.pruneActivityKeepRecent, Platform.prune_eq_deleteMemories, memories_deleteMemories,
    Table.mem_deleteWhere] at h
  exact h.1

/-- The rows of other wings and those of no source stay. -/
theorem mem_pruneActivityKeepRecent_of_other (hr : r ∈ s.memories)
    (h : r.wing ≠ some wing ∨ r.source = none) :
    r ∈ (pf.pruneActivityKeepRecent wing s keep).1.memories := by
  rw [Platform.pruneActivityKeepRecent, Platform.prune_eq_deleteMemories, memories_deleteMemories,
    Table.mem_deleteWhere]
  refine ⟨hr, eq_false_of_ne_true fun hpruned => ?_⟩
  obtain ⟨source, hsource, hstale⟩ := (Option.any_eq_true _ _).1 hpruned
  rcases h with hwing | hnone
  · exact hwing (Platform.source_of_stale hstale).1
  · rw [hnone] at hsource
    cases hsource

/-- So many of each source stay. -/
theorem countWhere_pruneActivityKeepRecent (source : String) :
    (pf.pruneActivityKeepRecent wing s keep).1.memories.countWhere (Platform.fromSource wing source) =
      min keep (s.memories.countWhere (Platform.fromSource wing source)) := by
  have hperm : ((pf.pruneActivityKeepRecent wing s keep).1.memories.rows.filter
      (Platform.fromSource wing source)).Perm ((bySecond pf s wing source).take keep) := by
    refine (List.perm_ext_iff_of_nodup (Table.nodup_rows _ |>.filter _)
      (nodup_bySecond.sublist (List.take_sublist _ _))).2 fun r => ?_
    rw [List.mem_filter]
    constructor
    · rintro ⟨hr, hsource⟩
      exact (mem_pruneActivityKeepRecent_iff hsource).1 hr
    · intro hmem
      have hsource := (mem_bySecond.1 (List.mem_of_mem_take hmem)).2
      exact ⟨(mem_pruneActivityKeepRecent_iff hsource).2 hmem, hsource⟩
  rw [Table.countWhere, Table.countWhere, List.countP_eq_length_filter, List.countP_eq_length_filter,
    hperm.length_eq, List.length_take, perm_bySecond.length_eq]

/-- **Every prune** keeps the newest if and only if it divides no second the wrong way. -/
theorem Dated.keepsNewest_iff (h : s.Dated pf created) :
    KeepsNewest created wing s keep (pf.pruneActivityKeepRecent wing s keep).1 ↔
      SecondsUndivided created wing s keep := by
  constructor
  · rintro hkeeps source a ha b hb hsource hsource' - hearlier - ⟨hkept, hgone⟩
    have ha' := (mem_pruneActivityKeepRecent_iff hsource).2 ((h.mem_take_iff ha hsource).2 hkept)
    have hb' : b ∉ (pf.pruneActivityKeepRecent wing s keep).1.memories := by
      rw [mem_pruneActivityKeepRecent_iff hsource', h.mem_take_iff hb hsource']
      exact hgone.not_gt
    exact hearlier.not_ge (hkeeps.newest source b hb a ha' hsource' hsource hb')
  · intro hundivided
    refine ⟨countWhere_pruneActivityKeepRecent, fun r => mem_of_mem_pruneActivityKeepRecent,
      fun source a ha b hb' hsource hsource' hgone => ?_,
      fun r hr => mem_pruneActivityKeepRecent_of_other hr⟩
    have hb := mem_of_mem_pruneActivityKeepRecent hb'
    rw [mem_pruneActivityKeepRecent_iff hsource, h.mem_take_iff ha hsource, not_lt] at hgone
    rw [mem_pruneActivityKeepRecent_iff hsource', h.mem_take_iff hb hsource'] at hb'
    by_contra hlater
    have hnot : ¬ Newer created a b := fun hnewer =>
      (hgone.trans (newer_le_of_newer hnewer)).not_gt hb'
    rcases (Stamp.instant_lt_iff (h.offset_eq hb) (h.offset_eq ha)).1 (not_le.1 hlater) with
      hsecond | ⟨hsecond, -⟩
    · exact hnot (Or.inl hsecond)
    rcases lt_trichotomy a.id b.id with hid | hid | hid
    · exact hundivided source b hb a ha hsource' hsource hsecond (not_le.1 hlater) hid ⟨hb', hgone⟩
    · exact hlater (eq_of_id ha hb hid ▸ le_rfl)
    · exact hnot (Or.inr ⟨hsecond.symm, hid⟩)

/-! ## What is older than a cutoff -/

variable {cutoff : Cutoff}

/-- A cutoff and a row are compared when SQLite reads both. -/
theorem createdBefore_eq_true_iff {text : String} : pf.createdBefore text r = true ↔
    ∃ a ∈ pf.datetime r.createdAt, ∃ b ∈ pf.datetime text, a < b := by
  unfold Platform.createdBefore
  cases pf.datetime r.createdAt <;> cases pf.datetime text <;> simp

/-- SQLite compares the seconds. -/
theorem Dated.createdBefore_iff (h : s.Dated pf created) (hcutoff : cutoff.Read pf)
    (hr : r ∈ s.memories) : pf.createdBefore cutoff.toRfc3339 r = true ↔
      (created r).instant < cutoff.instant ∧ ¬ cutoff.Near (created r) := by
  rw [createdBefore_eq_true_iff, h.datetime_eq hr]
  simp only [Option.mem_some_iff, exists_eq_left']
  cases cutoff with
  | stamp t =>
    obtain ⟨hoffset, hread⟩ := hcutoff
    show (∃ b ∈ pf.datetime t.text, _) ↔
      (created r).instant < t.instant ∧ ¬ (created r).second = t.second
    rw [hread, Stamp.instant_lt_iff (h.offset_eq hr) hoffset]
    simp only [Option.mem_some_iff, exists_eq_left', Stamp.text_toSecond_lt_iff]
    omega
  | outside text instant =>
    refine iff_of_false ?_ fun hnear => hnear.2 trivial
    rintro ⟨x, hx, hlt⟩
    obtain ⟨rest, rfl⟩ := hcutoff x hx
    exact lt_asymm hlt (Stamp.minus_lt_text _ rest)

/-- What the other sweep keeps. -/
theorem mem_pruneActivityOlderThan_iff :
    r ∈ (pf.pruneActivityOlderThan wing s cutoff).1.memories ↔
      r ∈ s.memories ∧ ¬ (r.wing = some wing ∧ pf.createdBefore cutoff.toRfc3339 r = true) := by
  rw [Platform.pruneActivityOlderThan, Platform.deleteWingMemoriesBefore, memories_deleteMemories,
    Table.mem_deleteWhere]
  simp

theorem Dated.deletesOlder_iff (h : s.Dated pf created) (hcutoff : cutoff.Read pf) :
    DeletesOlder created wing s cutoff.instant (pf.pruneActivityOlderThan wing s cutoff).1 ↔
      CutoffUndivided created wing s cutoff := by
  unfold DeletesOlder CutoffUndivided
  simp only [mem_pruneActivityOlderThan_iff]
  constructor
  · intro hdeletes r hr hwing hnear
    by_contra hearlier
    have hkept : r ∈ s.memories ∧ ¬ (r.wing = some wing ∧
        pf.createdBefore cutoff.toRfc3339 r = true) :=
      ⟨hr, fun hold => ((h.createdBefore_iff hcutoff hr).1 hold.2).2 hnear⟩
    exact ((hdeletes r).1 hkept).2 ⟨hwing, not_le.1 hearlier⟩
  · intro hundivided r
    refine and_congr_right fun hr => not_congr (and_congr_right fun hwing => ?_)
    rw [h.createdBefore_iff hcutoff hr]
    exact and_iff_left_of_imp fun hlt hnear => (hundivided r hr hwing hnear).not_gt hlt

/-- **Both sweeps**, on every store that is dated. -/
theorem retention_iff (pf : Platform) (created : MemoryRow → Stamp) (wing : String) (s : Store)
    (h : s.Dated pf created) (keep : ℕ) (cutoff : Cutoff) (hcutoff : cutoff.Read pf) :
    (KeepsNewest created wing s keep (pf.pruneActivityKeepRecent wing s keep).1 ↔
      SecondsUndivided created wing s keep) ∧
    (DeletesOlder created wing s cutoff.instant (pf.pruneActivityOlderThan wing s cutoff).1 ↔
      CutoffUndivided created wing s cutoff) :=
  ⟨h.keepsNewest_iff, h.deletesOlder_iff hcutoff⟩

/-! ## Two windows in one second -/

/-- A platform that cuts off what follows the seconds. -/
def secondsPlatform : Platform :=
  { Platform.plain with
    datetime := fun t => some (String.ofList (t.toList.take 10 ++ ' ' :: (t.toList.drop 11).take 8)) }

/-- Nine o'clock, and some milliseconds. -/
def nineAnd (fraction : List (Fin 10)) : Stamp :=
  marchAt 9 (by decide) (.rfc3339 fraction (.offset false 0 0))

/-- A window of the editor. -/
def editorWindow (id createdAt : String) : MemoryRow :=
  { id, key := "activity:" ++ id, content := "editing notes", wing := some "activity",
    source := some "editor", createdAt, updatedAt := createdAt }

/-- Two windows, created at these times. -/
def twoWindows (first second : Stamp) : Store :=
  { memories := .ofList [editorWindow "0bb2" first.text, editorWindow "0aa1" second.text] }

/-- The times of the two. -/
def windowTimes (first second : Stamp) (r : MemoryRow) : Stamp :=
  if r.id = "0bb2" then first else second

/-- At eight and at nine. -/
theorem retention_eight_nine :
    let eight := marchAt 8 (by decide) (.rfc3339 [] .zulu)
    let s := twoWindows eight (nineAnd [7, 0, 0])
    let created := windowTimes eight (nineAnd [7, 0, 0])
    KeepsNewest created "activity" s 1 (secondsPlatform.pruneActivityKeepRecent "activity" s 1).1 ∧
      DeletesOlder created "activity" s (nineAnd []).instant
        (secondsPlatform.pruneActivityOlderThan "activity" s (.stamp (nineAnd []))).1 := by
  intro eight s created
  have hdated : s.Dated secondsPlatform created := by decide +kernel
  have hread : secondsPlatform.Reads (nineAnd []) := by decide +kernel
  have hseconds : ∀ a ∈ s.memories.rows, ∀ b ∈ s.memories.rows,
      (created a).second = (created b).second → ¬ (created a).instant < (created b).instant := by
    decide +kernel
  have hcutoff : ∀ r ∈ s.memories.rows, (created r).second = (nineAnd []).second →
      (nineAnd []).instant ≤ (created r).instant := by decide +kernel
  obtain ⟨hkeeps, hdeletes⟩ := retention_iff secondsPlatform created "activity" s hdated 1
    (.stamp (nineAnd [])) hread
  exact ⟨hkeeps.2 fun _ a ha b hb _ _ hsecond hlt => absurd hlt (hseconds a ha b hb hsecond),
    hdeletes.2 fun r hr _ hnear => hcutoff r hr hnear⟩

/-- **The earlier of one second is kept**, and it is not older than a cutoff in that second. -/
theorem retention_one_second :
    let s := twoWindows (nineAnd [2, 0, 0]) (nineAnd [7, 0, 0])
    let created := windowTimes (nineAnd [2, 0, 0]) (nineAnd [7, 0, 0])
    s.Dated secondsPlatform created ∧ secondsPlatform.Reads (nineAnd [5, 0, 0]) ∧
      ¬ KeepsNewest created "activity" s 1
        (secondsPlatform.pruneActivityKeepRecent "activity" s 1).1 ∧
      ¬ DeletesOlder created "activity" s (nineAnd [5, 0, 0]).instant
        (secondsPlatform.pruneActivityOlderThan "activity" s (.stamp (nineAnd [5, 0, 0]))).1 := by
  intro s created
  have hlater : editorWindow "0aa1" (nineAnd [7, 0, 0]).text ∈ s.memories.rows := by decide +kernel
  refine ⟨by decide +kernel, by decide +kernel, fun h => ?_, fun h => ?_⟩
  · have hkept : editorWindow "0bb2" (nineAnd [2, 0, 0]).text ∈
        (secondsPlatform.pruneActivityKeepRecent "activity" s 1).1.memories.rows := by decide +kernel
    have hgone : editorWindow "0aa1" (nineAnd [7, 0, 0]).text ∉
        (secondsPlatform.pruneActivityKeepRecent "activity" s 1).1.memories.rows := by decide +kernel
    have hle := h.newest "editor" _ hlater _ hkept (by decide +kernel) (by decide +kernel) hgone
    exact absurd hle (by decide +kernel)
  · have hkept : editorWindow "0bb2" (nineAnd [2, 0, 0]).text ∈ (secondsPlatform.pruneActivityOlderThan
        "activity" s (.stamp (nineAnd [5, 0, 0]))).1.memories.rows := by decide +kernel
    exact ((h _).1 hkept).2 ⟨rfl, by decide +kernel⟩

end Store

end Spectral
