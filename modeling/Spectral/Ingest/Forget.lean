import Spectral.Ingest.Pipeline
import Spectral.Wing.Search

/-!
# What a forget erases and leaves

`delete_memory_by_key` scrubs the tables that name a memory by its id or its key, the access
log and the previews of episodes.

* `Store.Erased` — table by table, the rows that are left.
* `deleteMemoryByKey_erases` — a forget leaves exactly these.
* `forget_scrubs_innocent_note` — two things it does by design that a reader may not expect: it
  scrubs the preview of another memory whose text is the beginning of the forgotten one, and an
  episode keeps the id it has from the memory that opened it.

A preview of an earlier version of the text, and an id that JSON escapes, are not found.
-/

namespace Spectral

open Spectral.Lib

/-- An id as it stands in a JSON array. -/
def quotedId (id : String) : String := "\"" ++ id ++ "\""

/-- The preview of the episode is a beginning of the text. -/
def EpisodeRow.Quotes (e : EpisodeRow) (content : String) : Prop :=
  ∃ p ∈ e.summaryPreview, p ≠ "" ∧ p.toList <+: content.toList

instance (e : EpisodeRow) (content : String) : Decidable (e.Quotes content) :=
  inferInstanceAs (Decidable (∃ p ∈ e.summaryPreview, p ≠ "" ∧ p.toList <+: content.toList))

namespace Store

/-- What is left of a store when a memory is forgotten. -/
structure Erased (s s' : Store) (r : MemoryRow) : Prop where
  memories : ∀ r', r' ∈ s'.memories ↔ r' ∈ s.memories ∧ r'.key ≠ r.key
  ids : ∀ r' ∈ s'.memories, r'.id ≠ r.id
  annotations : ∀ a, a ∈ s'.annotations ↔ a ∈ s.annotations ∧ a.memoryId ≠ r.id
  fingerprints : ∀ f, f ∈ s'.fingerprints ↔
    f ∈ s.fingerprints ∧ f.anchorMemoryId ≠ r.id ∧ f.targetMemoryId ≠ r.id
  spectrograms : ∀ g, g ∈ s'.spectrograms ↔ g ∈ s.spectrograms ∧ g.memoryId ≠ r.id
  memorySessions : ∀ m, m ∈ s'.memorySessions ↔ m ∈ s.memorySessions ∧ m.memoryId ≠ r.id
  coRetrievalPairs : ∀ p, p ∈ s'.coRetrievalPairs ↔
    p ∈ s.coRetrievalPairs ∧ p.memoryIdA ≠ r.id ∧ p.memoryIdB ≠ r.id
  consolidationEdges : ∀ e, e ∈ s'.consolidationEdges ↔
    e ∈ s.consolidationEdges ∧ e.sourceKey ≠ r.key ∧ e.targetKey ≠ r.key
  turnMembers : ∀ m, m ∈ s'.turnMembers ↔ m ∈ s.turnMembers ∧ m.memoryId ≠ r.id
  turnKeys : (∀ m ∈ s.turnMembers, m.memoryKey = r.key → m.memoryId = r.id) →
    ∀ m ∈ s'.turnMembers, m.memoryKey ≠ r.key
  turnEvents : s'.turnEvents = s.turnEvents
  unlisted : ∀ e ∈ s'.retrievalEvents, strContains e.memoryIdsJson (quotedId r.id) = false
  retrievalEvents : ∀ e, e ∈ s'.retrievalEvents ↔
    e ∈ s.retrievalEvents ∧ likeContains (quotedId r.id) e.memoryIdsJson = false
  unquoted : ∀ e ∈ s'.episodes, ¬ e.Quotes r.content
  previews : ∀ e ∈ s.episodes, ¬ e.Quotes r.content →
    (∃ e' ∈ s'.episodes, e'.id = e.id ∧ e'.summaryPreview = e.summaryPreview) ∨
      r.episodeId = some e.id ∧ ∀ r' ∈ s'.memories, r'.episodeId ≠ some e.id
  episodes : ∀ e' ∈ s'.episodes, ∃ e ∈ s.episodes, e'.id = e.id ∧
    e'.summaryPreview = if e.Quotes r.content then none else e.summaryPreview
  sharedWingMembers : s'.sharedWingMembers = s.sharedWingMembers
  syncTombstones : s'.syncTombstones = s.syncTombstones

/-! ## The statements -/

/-- The emptied previews leave the ids of the episodes. -/
theorem sameKey_of_emptied (now : String) (r : MemoryRow) : ∀ a b : EpisodeRow,
    SameKey EpisodeRow.id
      (if a.summaryPreview.any fun p => p ≠ "" && decide (p.toList <+: r.content.toList) then
        { a with summaryPreview := none, updatedAt := now } else a)
      (if b.summaryPreview.any fun p => p ≠ "" && decide (p.toList <+: r.content.toList) then
        { b with summaryPreview := none, updatedAt := now } else b) → SameKey EpisodeRow.id a b := by
  intro a b h
  unfold SameKey at h ⊢
  split at h <;> split at h <;> exact h

/-- The store with everything scrubbed and the row deleted. -/
def scrubbed (s : Store) (now : String) (r : MemoryRow) : Store :=
  { s with
    fingerprints := s.fingerprints.deleteWhere fun f =>
      f.anchorMemoryId = r.id || f.targetMemoryId = r.id
    spectrograms := s.spectrograms.deleteWhere fun g => g.memoryId = r.id
    annotations := s.annotations.deleteWhere fun a => a.memoryId = r.id
    consolidationEdges := s.consolidationEdges.deleteWhere fun e =>
      e.sourceKey = r.key || e.targetKey = r.key
    coRetrievalPairs := s.coRetrievalPairs.deleteWhere fun p =>
      p.memoryIdA = r.id || p.memoryIdB = r.id
    retrievalEvents := s.retrievalEvents.deleteWhere fun e =>
      likeContains (quotedId r.id) e.memoryIdsJson
    episodes := s.episodes.update
      (fun e => if e.summaryPreview.any fun p =>
          p ≠ "" && decide (p.toList <+: r.content.toList) then
        { e with summaryPreview := none, updatedAt := now } else e)
      (sameKey_of_emptied now r)
    : Store }.deleteMemories fun r' => r'.key = r.key

variable {s : Store} {now : String} {r : MemoryRow}

/-- A forget scrubs, and then settles the episode of the memory. -/
theorem deleteMemoryByKey_eq (h : r ∈ s.memories) :
    (s.deleteMemoryByKey now r.key).1 = match r.episodeId with
      | none => s.scrubbed now r
      | some ep => ((s.scrubbed now r).settleEpisode now ep).1 := by
  unfold deleteMemoryByKey
  rw [memoryByKey_eq_some.2 ⟨h, rfl⟩]
  dsimp only
  cases r.episodeId <;> rfl

/-- Settling an episode touches the episodes only. -/
theorem settleEpisode_eq (now ep : String) (s : Store) :
    (s.settleEpisode now ep).1 = { s with episodes := (s.settleEpisode now ep).1.episodes } := by
  unfold settleEpisode
  dsimp only
  split <;> rfl

/-- Whatever the delete of a key selects by is a property of its one row. -/
theorem any_key_and (h : r ∈ s.memories) (φ : MemoryRow → Bool) :
    (s.memories.rows.any fun r' => decide (r'.key = r.key) && φ r') = φ r := by
  rw [Bool.eq_iff_iff, List.any_eq_true]
  constructor
  · rintro ⟨r', hr', hφ⟩
    obtain ⟨hk, hφ⟩ := Bool.and_eq_true_iff.1 hφ
    rwa [eq_of_key hr' h (of_decide_eq_true hk)] at hφ
  · intro hφ
    exact ⟨r, h, by simpa using hφ⟩

/-- The cascade of the delete of one row, table by table. -/
structure Cascaded (s s' : Store) (r : MemoryRow) : Prop where
  memories : ∀ r', r' ∈ s'.memories ↔ r' ∈ s.memories ∧ r'.key ≠ r.key
  annotations : ∀ a, a ∈ s'.annotations ↔ a ∈ s.annotations ∧ a.memoryId ≠ r.id
  fingerprints : ∀ f, f ∈ s'.fingerprints ↔
    f ∈ s.fingerprints ∧ f.anchorMemoryId ≠ r.id ∧ f.targetMemoryId ≠ r.id
  spectrograms : ∀ g, g ∈ s'.spectrograms ↔ g ∈ s.spectrograms ∧ g.memoryId ≠ r.id
  memorySessions : ∀ m, m ∈ s'.memorySessions ↔ m ∈ s.memorySessions ∧ m.memoryId ≠ r.id
  consolidationEdges : ∀ e, e ∈ s'.consolidationEdges ↔
    e ∈ s.consolidationEdges ∧ e.sourceKey ≠ r.key
  turnMembers : ∀ m, m ∈ s'.turnMembers ↔ m ∈ s.turnMembers ∧ m.memoryId ≠ r.id

theorem cascaded_deleteMemories (h : r ∈ s.memories) :
    s.Cascaded (s.deleteMemories fun r' => r'.key = r.key) r := by
  have hid : ∀ id : String, (s.memories.rows.any fun r' => decide (r'.key = r.key) && r'.id == id) =
      decide (id = r.id) := by
    intro id
    rw [any_key_and h fun r' => r'.id == id, Bool.eq_iff_iff, beq_iff_eq, decide_eq_true_iff]
    exact eq_comm
  have hkey : ∀ key : String,
      (s.memories.rows.any fun r' => decide (r'.key = r.key) && r'.key == key) =
        decide (key = r.key) := by
    intro key
    rw [any_key_and h fun r' => r'.key == key, Bool.eq_iff_iff, beq_iff_eq, decide_eq_true_iff]
    exact eq_comm
  unfold deleteMemories
  simp only [hid, hkey]
  constructor <;> intro x <;> simp

/-- The edges that are left name the memory on neither side. -/
theorem mem_consolidationEdges_scrubbed (h : r ∈ s.memories) {e : ConsolidationEdge} :
    e ∈ (s.scrubbed now r).consolidationEdges ↔
      e ∈ s.consolidationEdges ∧ e.sourceKey ≠ r.key ∧ e.targetKey ≠ r.key := by
  have hcascade : Cascaded _ (s.scrubbed now r) r := cascaded_deleteMemories h
  refine (hcascade.consolidationEdges e).trans ?_
  rw [Table.mem_deleteWhere]
  simp only [Bool.or_eq_false_iff, decide_eq_false_iff_not]
  tauto

/-- `LIKE` finds what is there in the same case. -/
theorem likeContains_of_strContains {needle text : String} (h : strContains text needle = true) :
    likeContains needle text = true :=
  decide_eq_true ((of_decide_eq_true h).map Char.toLower)

/-- The scrubbed store, table by table; its episodes may have been settled. -/
theorem erased_scrubbed (h : r ∈ s.memories) {s' : Store}
    (hs' : s' = { s.scrubbed now r with episodes := s'.episodes })
    (hpreviews : ∀ e ∈ s.episodes, ¬ e.Quotes r.content →
      (∃ e' ∈ s'.episodes, e'.id = e.id ∧ e'.summaryPreview = e.summaryPreview) ∨
        r.episodeId = some e.id ∧ ∀ r' ∈ s'.memories, r'.episodeId ≠ some e.id)
    (hepisodes : ∀ e' ∈ s'.episodes, ∃ e ∈ s.episodes, e'.id = e.id ∧
      e'.summaryPreview = if e.Quotes r.content then none else e.summaryPreview) :
    s.Erased s' r := by
  have hcascade : Cascaded _ (s.scrubbed now r) r := cascaded_deleteMemories h
  rw [hs'] at hpreviews ⊢
  have hmemories : ∀ r', r' ∈ (s.scrubbed now r).memories ↔ r' ∈ s.memories ∧ r'.key ≠ r.key :=
    hcascade.memories
  have hevents : ∀ e, e ∈ (s.scrubbed now r).retrievalEvents ↔
      e ∈ s.retrievalEvents ∧ likeContains (quotedId r.id) e.memoryIdsJson = false :=
    fun e => Table.mem_deleteWhere
  have hmembers : ∀ m, m ∈ (s.scrubbed now r).turnMembers ↔
      m ∈ s.turnMembers ∧ m.memoryId ≠ r.id := hcascade.turnMembers
  constructor
  · exact hmemories
  · intro r' hr' hid
    obtain ⟨hr', hk⟩ := (hmemories r').1 hr'
    exact hk (congrArg MemoryRow.key (eq_of_id hr' h hid))
  · intro a
    refine (hcascade.annotations a).trans ?_
    rw [Table.mem_deleteWhere]
    simp
  · intro f
    refine (hcascade.fingerprints f).trans ?_
    rw [Table.mem_deleteWhere]
    simp
  · intro g
    refine (hcascade.spectrograms g).trans ?_
    rw [Table.mem_deleteWhere]
    simp
  · exact hcascade.memorySessions
  · intro p
    refine Table.mem_deleteWhere.trans ?_
    simp
  · exact fun e => mem_consolidationEdges_scrubbed h
  · exact hmembers
  · intro hown m hm hk
    obtain ⟨hm, hid⟩ := (hmembers m).1 hm
    exact hid (hown m hm hk)
  · rfl
  · intro e he
    have hnot := ((hevents e).1 he).2
    by_contra hin
    rw [likeContains_of_strContains (eq_true_of_ne_false hin)] at hnot
    cases hnot
  · exact hevents
  · intro e' he' hquotes
    obtain ⟨e, -, -, hp⟩ := hepisodes e' he'
    obtain ⟨p, hp', hprefix⟩ := hquotes
    by_cases hq : e.Quotes r.content
    · rw [if_pos hq] at hp
      rw [hp] at hp'
      cases hp'
    · rw [if_neg hq] at hp
      exact hq ⟨p, hp ▸ hp', hprefix⟩
  · exact hpreviews
  · exact hepisodes
  · rfl
  · rfl

/-! ## Episodes -/

/-- The episodes of the scrubbed store. -/
theorem mem_episodes_scrubbed {e' : EpisodeRow} :
    e' ∈ (s.scrubbed now r).episodes ↔ ∃ e ∈ s.episodes,
      e' = if e.Quotes r.content then { e with summaryPreview := none, updatedAt := now } else e := by
  have hquotes : ∀ e : EpisodeRow, (e.summaryPreview.any fun p =>
      p ≠ "" && decide (p.toList <+: r.content.toList)) = true ↔ e.Quotes r.content := by
    intro e
    simp [EpisodeRow.Quotes, Option.any_eq_true]
  unfold scrubbed deleteMemories
  dsimp only
  rw [Table.mem_update]
  refine exists_congr fun e => and_congr_right fun _ => ?_
  simp only [hquotes]
  exact eq_comm

/-- Settling an episode leaves the previews, and drops the episode only without members. -/
theorem previews_settleEpisode (now ep : String) (s : Store) :
    (∀ e' ∈ (s.settleEpisode now ep).1.episodes, ∃ e ∈ s.episodes,
        e'.id = e.id ∧ e'.summaryPreview = e.summaryPreview) ∧
      ∀ e ∈ s.episodes,
        (∃ e' ∈ (s.settleEpisode now ep).1.episodes,
          e'.id = e.id ∧ e'.summaryPreview = e.summaryPreview) ∨
        ep = e.id ∧ ∀ r' ∈ s.memories, r'.episodeId ≠ some e.id := by
  unfold settleEpisode
  dsimp only
  split
  · have hsame : ∀ e : EpisodeRow, (if e.id = ep then
        { e with memoryCount := s.episodeMembers ep, updatedAt := now } else e).id = e.id ∧
          (if e.id = ep then { e with memoryCount := s.episodeMembers ep, updatedAt := now }
            else e).summaryPreview = e.summaryPreview := by
      intro e
      split <;> exact ⟨rfl, rfl⟩
    constructor
    · intro e' he'
      dsimp only at he'
      rw [Table.mem_update] at he'
      obtain ⟨e, he, rfl⟩ := he'
      exact ⟨e, he, hsame e⟩
    · intro e he
      refine Or.inl ⟨_, ?_, hsame e⟩
      rw [Table.mem_update]
      exact ⟨e, he, rfl⟩
  · constructor
    · intro e' he'
      exact ⟨e', (Table.mem_deleteWhere.1 he').1, rfl, rfl⟩
    · intro e he
      by_cases hgone : (decide (e.id = ep) && decide (s.episodeMembers ep = 0)) = true
      · obtain ⟨hid, hnone⟩ := Bool.and_eq_true_iff.1 hgone
        refine Or.inr ⟨(of_decide_eq_true hid).symm, fun r' hr' hin => ?_⟩
        have hpos : 0 < s.episodeMembers ep :=
          Table.countWhere_pos.2 ⟨r', hr', by rw [hin, of_decide_eq_true hid]; simp⟩
        exact absurd (of_decide_eq_true hnone) (Nat.ne_of_gt hpos)
      · exact Or.inl ⟨e, Table.mem_deleteWhere.2 ⟨he, eq_false_of_ne_true hgone⟩, rfl, rfl⟩

/-- **A forget is complete and exact**, table by table. -/
theorem deleteMemoryByKey_erases (s : Store) (now : String) (r : MemoryRow) (h : r ∈ s.memories) :
    s.Erased (s.deleteMemoryByKey now r.key).1 r := by
  have hscrubbed : ∀ e ∈ s.episodes, ¬ e.Quotes r.content → e ∈ (s.scrubbed now r).episodes :=
    fun e he hnot => mem_episodes_scrubbed.2 ⟨e, he, (if_neg hnot).symm⟩
  have hpreview : ∀ e' ∈ (s.scrubbed now r).episodes, ∃ e ∈ s.episodes, e'.id = e.id ∧
      e'.summaryPreview = if e.Quotes r.content then none else e.summaryPreview := by
    intro e' he'
    obtain ⟨e, he, rfl⟩ := mem_episodes_scrubbed.1 he'
    refine ⟨e, he, ?_⟩
    split <;> exact ⟨rfl, rfl⟩
  rw [deleteMemoryByKey_eq h]
  cases hep : r.episodeId with
  | none =>
    exact erased_scrubbed h rfl (fun e he hnot => Or.inl ⟨e, hscrubbed e he hnot, rfl, rfl⟩) hpreview
  | some ep =>
    obtain ⟨hback, hkept⟩ := previews_settleEpisode now ep (s.scrubbed now r)
    refine erased_scrubbed h (settleEpisode_eq now ep _) (fun e he hnot => ?_) fun e' he' => ?_
    · refine (hkept e (hscrubbed e he hnot)).imp_right ?_
      rintro ⟨hid, hnone⟩
      refine ⟨hep.trans (congrArg some hid), fun r' hr' => hnone r' ?_⟩
      dsimp only at hr'
      rwa [settleEpisode_eq] at hr'
    · obtain ⟨e, he, hid, hp⟩ := hback e' he'
      obtain ⟨e₀, he₀, hid₀, hp₀⟩ := hpreview e he
      exact ⟨e₀, he₀, hid.trans hid₀, hp.trans hp₀⟩

/-! ## Three notes -/

/-- A note of one wing opens an episode, a second one joins it, and a note of another wing says
what the first one begins with. -/
def threeNotes : Store :=
  [("0aa1", "monday", "ship it on monday", "work"), ("0bb2", "tuesday", "review on tuesday", "work"),
    ("0cc3", "ship", "ship it", "home")].foldl
    (fun s (id, key, content, wing) =>
      ((Env.ofRecords [] []).ingestWith Char.isWhitespace "2026-01-03 09:00:00"
        "2026-01-03 08:30:00" s id key content "note" "private" { wing := some wing } []).1) {}

theorem deleteMemoryByKey_erases_note :
    ∃ r ∈ threeNotes.memories.rows, r.key = "monday" ∧
      threeNotes.Erased (threeNotes.deleteMemoryByKey "2026-01-03 10:00:00" r.key).1 r := by
  have hmonday : ∃ r ∈ threeNotes.memories.rows, r.key = "monday" := by decide +kernel
  obtain ⟨r, hr, hkey⟩ := hmonday
  exact ⟨r, hr, hkey, deleteMemoryByKey_erases threeNotes "2026-01-03 10:00:00" r hr⟩

/-- **An innocent note.**  To forget the first note empties the preview of the third one's
episode, and the second one's episode keeps the id of the first. -/
theorem forget_scrubs_innocent_note :
    let s' := (threeNotes.deleteMemoryByKey "2026-01-03 10:00:00" "monday").1
    (∃ r ∈ threeNotes.memories.rows, r.id = "0aa1" ∧ r.key = "monday" ∧
        r.episodeId ≠ some "ep-0cc3") ∧
      (∃ r ∈ s'.memories.rows, r.key = "ship" ∧ r.episodeId = some "ep-0cc3") ∧
      (∃ e ∈ threeNotes.episodes.rows, e.id = "ep-0cc3" ∧ e.summaryPreview = some "ship it") ∧
      (∃ e ∈ s'.episodes.rows, e.id = "ep-0cc3" ∧ e.summaryPreview = none) ∧
      ∃ e ∈ s'.episodes.rows, strContains e.id "0aa1" = true := by
  decide +kernel

end Store

end Spectral
