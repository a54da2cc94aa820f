import Spectral.Ingest.Accepted

/-!
# Episode counts

An episode keeps the number of its memories.  An ingest counts the memory before it is written: it
adds one to the episode it joins, and writes one for an episode it opens, whatever is there.  The
write may then add no row, and the episode it opens may have members.  A forget recounts.

* `counted_forget` — a forget leaves right counts.
* `counted_ingest_iff` — an ingest does exactly when it is one that `KeepsCounts`.
* `counts_exact_iff` — the runs whose counts are right throughout are those of such ingests.
* `miscounted_notes` — a text that is ingested again, one that is edited, and an older episode that
  is named: each leaves a count that is wrong.
-/

namespace Spectral

open Spectral.Lib

/-- The calls that change memories and episodes. -/
inductive EpisodeCall where
  | ingest (now since id key content category visibility : String) (opts : IngestOpts)
  | forget (now key : String)

namespace Store

variable (s : Store)

/-- Every episode has the number of its memories. -/
def Counted : Prop := ∀ e ∈ s.episodes, e.memoryCount = s.episodeMembers e.id

instance : Decidable s.Counted :=
  inferInstanceAs (Decidable (∀ e ∈ s.episodes.rows, e.memoryCount = s.episodeMembers e.id))

/-- The episode a memory joins, if it does not open one. -/
def joinedEpisode (since wing : String) (episodeId : Option String) : Option Episode :=
  match episodeId with
  | some epId => (s.findRecentEpisode wing "1970-01-01 00:00:00").filter fun e => e.id = epId
  | none => s.findRecentEpisode wing since

/-- Neither the key nor the id is in use, so that a write adds a row. -/
def Adds (id key : String) : Prop := s.memoryByKey key = none ∧ ¬ s.HasMemory id

instance (id key : String) : Decidable (s.Adds id key) :=
  inferInstanceAs (Decidable (s.memoryByKey key = none ∧ ¬ s.HasMemory id))

end Store

namespace Pipeline

variable (p : Pipeline)

/-- What one call leaves. -/
def episodeStep (s : Store) : EpisodeCall → Store
  | .ingest now since id key content category visibility opts =>
    (p.ingest now since s id key content category visibility opts).1
  | .forget now key => (s.deleteMemoryByKey now key).1

/-- The wing a text is put into. -/
def wingOf (key content category : String) (opts : IngestOpts) : String :=
  opts.wing.getD
    (p.env.classifyWing key (cleanMemoryContextPrefixes p.isWhitespace content) category)

/-- **The condition.**  A memory that joins an episode is a new row.  One that opens an episode is a
new row and there is no member yet, or it is no new row and there is one. -/
def KeepsCounts (s : Store) : EpisodeCall → Prop
  | .ingest _ since id key content category _ opts =>
    match s.joinedEpisode since (p.wingOf key content category opts) opts.episodeId with
    | some _ => s.Adds id key
    | none => s.episodeMembers (opts.episodeId.getD ("ep-" ++ id)) = if s.Adds id key then 0 else 1
  | .forget _ _ => True

instance (s : Store) (call : EpisodeCall) : Decidable (p.KeepsCounts s call) := by
  cases call with
  | ingest now since id key content category visibility opts =>
    unfold KeepsCounts
    dsimp only
    split <;> infer_instance
  | forget now key => exact isTrue trivial

end Pipeline

/-! ## Episodes -/

namespace Store

variable {s : Store}

theorem mem_episodes_of_findRecentEpisode {wing since : String} {e : Episode}
    (h : s.findRecentEpisode wing since = some e) : ∃ row ∈ s.episodes, row.episode = e := by
  obtain ⟨row, hrow, rfl⟩ := Option.map_eq_some_iff.1 h
  have hlisted := (List.mem_insertionSort _).1 (List.mem_of_head? hrow)
  exact ⟨row, (List.mem_filter.1 hlisted).1, rfl⟩

theorem mem_episodes_of_joinedEpisode {since wing : String} {episodeId : Option String}
    {e : Episode} (h : s.joinedEpisode since wing episodeId = some e) : ∃ row ∈ s.episodes, row.episode = e := by
  unfold joinedEpisode at h
  split at h
  · exact mem_episodes_of_findRecentEpisode (Option.filter_eq_some_iff.1 h).1
  · exact mem_episodes_of_findRecentEpisode h

theorem resolveEpisode_of_joined {now since id content wing : String} {signalScore : ℚ}
    {episodeId : Option String} {e : Episode}
    (h : s.joinedEpisode since wing episodeId = some e) :
    s.resolveEpisode now since id content wing signalScore episodeId =
      (s.writeEpisode now (e.join now content signalScore), e.id) := by
  unfold joinedEpisode at h
  unfold resolveEpisode
  cases episodeId with
  | none =>
    dsimp only at h ⊢
    rw [h]
  | some epId =>
    obtain ⟨hfound, hid⟩ := Option.filter_eq_some_iff.1 h
    dsimp only
    rw [hfound]
    exact if_pos (of_decide_eq_true hid)

/-- The episode that is opened. -/
def openedEpisode (now content wing epId : String) : Episode :=
  { id := epId, startedAt := now, endedAt := now, memoryCount := 1, wing,
    summaryPreview := some (summaryPreviewOf content) }

theorem resolveEpisode_of_opened {now since id content wing : String} {signalScore : ℚ}
    {episodeId : Option String} (h : s.joinedEpisode since wing episodeId = none) :
    s.resolveEpisode now since id content wing signalScore episodeId =
      (s.writeEpisode now (openedEpisode now content wing (episodeId.getD ("ep-" ++ id))),
        episodeId.getD ("ep-" ++ id)) := by
  unfold joinedEpisode at h
  unfold resolveEpisode
  cases episodeId with
  | none =>
    dsimp only at h ⊢
    rw [h]
    rfl
  | some epId =>
    dsimp only at h ⊢
    cases hfound : s.findRecentEpisode wing "1970-01-01 00:00:00" with
    | none => rfl
    | some e =>
      rw [hfound] at h
      have hother : e.id ≠ epId := by
        intro hid
        rw [Option.filter_some, if_pos (decide_eq_true hid)] at h
        cases h
      exact if_neg hother

/-- **An episode that is written.**  What is so of the counts and previews of all episodes afterwards
is so of the one written and of the others before. -/
theorem forall_writeEpisode {now : String} {episode : Episode}
    {P : String → ℕ → Option String → Prop} :
    (∀ e ∈ (s.writeEpisode now episode).episodes, P e.id e.memoryCount e.summaryPreview) ↔
      P episode.id episode.memoryCount episode.summaryPreview ∧
        ∀ e ∈ s.episodes, e.id ≠ episode.id → P e.id e.memoryCount e.summaryPreview := by
  unfold writeEpisode
  dsimp only
  simp only [Table.mem_insertOrIgnore, Table.mem_update]
  constructor
  · intro h
    constructor
    · by_cases hold : ∃ e ∈ s.episodes, e.id = episode.id
      · obtain ⟨e, he, hid⟩ := hold
        have hwritten := h _ (Or.inl ⟨e, he, rfl⟩)
        rw [if_pos hid] at hwritten
        rwa [← hid]
      · refine h (episode.row now) (Or.inr ⟨rfl, ?_⟩)
        rintro ⟨e', he', hsame⟩
        obtain ⟨e, he, rfl⟩ := Table.mem_update.1 (Table.mem_rows.1 he')
        refine hold ⟨e, he, ?_⟩
        unfold SameKey at hsame
        split at hsame <;> exact hsame
    · intro e he hid
      have hkept := h _ (Or.inl ⟨e, he, rfl⟩)
      rwa [if_neg hid] at hkept
  · rintro ⟨hwritten, hothers⟩ e (⟨e, he, rfl⟩ | ⟨rfl, -⟩)
    · split
      · rename_i hid
        rw [← hid] at hwritten
        exact hwritten
      · rename_i hid
        exact hothers e he hid
    · exact hwritten

/-! ## Writes -/

/-- The episode of each memory, and what the memory says. -/
def membership (s : Store) : List (Option String × String) :=
  s.memories.rows.map fun r => (r.episodeId, r.content)

/-- The members of an episode after a step, by the rows that are new; what the others say does not
count. -/
theorem episodeMembers_of_membership {s' : Store} {text : MemoryRow → String}
    {new : List (Option String × String)}
    (h : s'.membership = (s.memories.rows.map fun r => (r.episodeId, text r)) ++ new) (ep : String) :
    s'.episodeMembers ep = s.episodeMembers ep + new.countP fun m => m.1 = some ep := by
  have hcount : ∀ (t : Store) (text : MemoryRow → String),
      (t.memories.rows.map fun r => (r.episodeId, text r)).countP (fun m => m.1 = some ep) =
        t.episodeMembers ep := by
    intro t text
    rw [List.countP_map]
    rfl
  rw [← hcount s' MemoryRow.content, ← hcount s text, ← List.countP_append, ← h]
  rfl

theorem membership_updateMemories {q : MemoryRow → Bool} {g : MemoryRow → MemoryRow}
    (hg : ∀ r, (g r).id = r.id ∧ (g r).key = r.key) {text : MemoryRow → String}
    (hep : ∀ r, (g r).episodeId = r.episodeId)
    (htext : ∀ r ∈ s.memories, (if q r then (g r).content else r.content) = text r) :
    (s.updateMemories q g hg).membership = s.memories.rows.map fun r => (r.episodeId, text r) := by
  unfold membership updateMemories Table.update
  rw [List.map_map]
  refine List.map_congr_left fun r hr => ?_
  rw [← htext r hr, Function.comp_apply]
  split
  · rw [hep]
  · rfl

end Store

/-- What a memory says when a text has been written under a key. -/
def Env.textAfter (env : Env) (key content : String) (r : MemoryRow) : String :=
  if r.key = key ∧ env.effectiveHash r ≠ env.contentHash content then content else r.content

theorem Env.textAfter_of_none {env : Env} {s : Store} {key content : String} {r : MemoryRow}
    (h : s.memoryByKey key = none) (hr : r ∈ s.memories) : env.textAfter key content r = r.content :=
  if_neg fun hkey => Store.memoryByKey_eq_none.1 h r hr hkey.1

/-- **One write** adds a member to the episode of the memory when it adds a row, or changes what the
memory under the key says; it touches no episode. -/
theorem Env.membership_writeMemoryInTx {env : Env} {now : String} {s s' : Store}
    {memory : Memory} {fps : List Fingerprint} {outcome : WriteOutcome}
    (h : env.writeMemoryInTx now s memory fps = .ok (s', outcome)) :
    s'.episodes = s.episodes ∧ s'.membership =
      (s.memories.rows.map fun r => (r.episodeId, env.textAfter memory.key memory.content r)) ++
        if s.Adds memory.id memory.key then [(memory.episodeId, memory.content)] else [] := by
  have hfold : ∀ {t : Store}, fps.foldlM (Store.insertFingerprint now) t = .ok s' →
      s'.episodes = t.episodes ∧ s'.membership = t.membership := by
    intro t ht
    obtain ⟨_, rfl⟩ := Store.eq_of_foldlM_insertFingerprint ht
    exact ⟨rfl, rfl⟩
  have hnotAdds : ∀ {row : MemoryRow}, s.memoryByKey memory.key = some row →
      ¬ s.Adds memory.id memory.key := fun hk hadds => Option.some_ne_none _ (hk.symm.trans hadds.1)
  have hunder : ∀ {row r : MemoryRow}, s.memoryByKey memory.key = some row → r ∈ s.memories →
      r.key = memory.key → r = row := fun hk hr hkey =>
    have ⟨hrow, hrowKey⟩ := Store.memoryByKey_eq_some.1 hk
    Store.eq_of_key hr hrow (hkey.trans hrowKey.symm)
  cases writes_of_writeMemoryInTx h with
  | inserted hnone ht hfps =>
    obtain ⟨hepisodes, hmembers⟩ := hfold hfps
    unfold Store.insertMemory at ht
    split at ht
    · cases ht
    · rename_i hfree
      cases ht
      refine ⟨hepisodes, hmembers.trans ?_⟩
      have hadds : s.Adds memory.id memory.key :=
        ⟨hnone, fun ⟨r, hr, hid⟩ => hfree ⟨r, hr, Or.inl hid⟩⟩
      rw [if_pos hadds]
      unfold Store.membership
      dsimp only
      rw [Table.rows_insertOrIgnore_of_not_clashes hfree, List.map_append]
      refine congrArg (· ++ _) (List.map_congr_left fun r hr => ?_)
      rw [textAfter_of_none hnone hr]
  | noOp hk hsame =>
    refine ⟨rfl, ?_⟩
    rw [if_neg (hnotAdds hk), List.append_nil]
    refine Store.membership_updateMemories _ (fun _ => rfl) fun r hr => ?_
    rw [ite_self, textAfter, if_neg]
    rintro ⟨hkey, hdiff⟩
    rw [hunder hk hr hkey] at hdiff
    exact hdiff hsame
  | contentUpdated hk hdiff hfps =>
    obtain ⟨hepisodes, hmembers⟩ := hfold hfps
    refine ⟨hepisodes, hmembers.trans ?_⟩
    rw [if_neg (hnotAdds hk), List.append_nil]
    show (s.updateMemories (fun r => r.key = memory.key) (fun r => { r with
      content := memory.content
      contentHash := some (env.contentHash memory.content)
      updatedAt := now }) fun _ => ⟨rfl, rfl⟩).membership = _
    refine Store.membership_updateMemories _ (fun _ => rfl) fun r hr => ?_
    by_cases hkey : r.key = memory.key
    · rw [textAfter, if_pos (decide_eq_true hkey), if_pos ⟨hkey, by rwa [hunder hk hr hkey]⟩]
    · rw [textAfter, if_neg fun h => hkey (of_decide_eq_true h), if_neg fun h => hkey h.1]

namespace Pipeline

variable {p : Pipeline} {s : Store}

/-- What a memory says after an ingest. -/
def textAfterIngest (p : Pipeline) (now since : String) (s : Store)
    (id key content category visibility : String) (opts : IngestOpts) (r : MemoryRow) : String :=
  if p.Accepts now since s id key content category visibility opts then
    p.env.textAfter key (cleanMemoryContextPrefixes p.isWhitespace content) r
  else r.content

/-- **One ingest** adds a member to the episode of the memory when the key and the id are new, or
changes what the memory under the key says; it leaves the episodes that were prepared. -/
theorem membership_ingest (p : Pipeline) (s : Store)
    (now since id key content category visibility : String) (opts : IngestOpts) :
    ∃ epId,
      (p.prepare now since s id key content category visibility opts).2.episodeId = some epId ∧
      (p.ingest now since s id key content category visibility opts).1.episodes =
        (p.prepare now since s id key content category visibility opts).1.episodes ∧
      (p.ingest now since s id key content category visibility opts).1.membership =
        (s.memories.rows.map fun r => (r.episodeId,
          p.textAfterIngest now since s id key content category visibility opts r)) ++
          if s.Adds id key then
            [(some epId, cleanMemoryContextPrefixes p.isWhitespace content)] else [] := by
  obtain ⟨hmem, -, hid, hkey⟩ :=
    @prepare_spares p s now since id key content category visibility opts
  have hcontent : (p.prepare now since s id key content category visibility opts).2.content =
      cleanMemoryContextPrefixes p.isWhitespace content := Env.content_prepareIngest
  have hepisode : ∃ epId,
      (p.prepare now since s id key content category visibility opts).2.episodeId = some epId :=
    ⟨_, rfl⟩
  obtain ⟨epId, hepId⟩ := hepisode
  refine ⟨epId, hepId, ?_⟩
  have haccepts := p.isOk_ingest_iff now since s id key content category visibility opts
  have hadds : s.Adds id key → p.Accepts now since s id key content category visibility opts := by
    intro h
    rw [← hid, ← hkey] at h
    exact accepts_of_new h.1 h.2
  unfold textAfterIngest
  have hfold : p.env.prepareIngest p.isWhitespace now since s id key content category visibility
      opts = p.prepare now since s id key content category visibility opts := rfl
  unfold ingest Env.ingestWith at haccepts ⊢
  dsimp only at haccepts ⊢
  rw [hfold] at haccepts ⊢
  generalize p.prepare now since s id key content category visibility opts = prepared at *
  cases hwrite : p.env.writeMemoryInTx now prepared.1 prepared.2
      (p.generateFingerprints prepared.1 prepared.2) with
  | error e =>
    rw [hwrite] at haccepts
    have hfails : ¬ p.Accepts now since s id key content category visibility opts :=
      fun h => nomatch haccepts.2 h
    refine ⟨rfl, ?_⟩
    simp only [if_neg hfails, if_neg fun h => hfails (hadds h), List.append_nil]
    unfold Store.membership
    rw [hmem]
  | ok written =>
    obtain ⟨s', outcome⟩ := written
    rw [hwrite] at haccepts
    obtain ⟨hepisodes, hmembers⟩ := Env.membership_writeMemoryInTx hwrite
    refine ⟨hepisodes, hmembers.trans ?_⟩
    have hsame : prepared.1.Adds prepared.2.id prepared.2.key ↔ s.Adds id key := by
      unfold Store.Adds Store.memoryByKey Store.HasMemory
      rw [hmem, hid, hkey]
    simp only [if_pos (haccepts.1 rfl)]
    rw [hkey] at hsame
    rw [hmem, hepId, hkey, hcontent]
    exact congrArg (_ ++ ·) (if_congr hsame rfl rfl)

/-- The members of an episode after an ingest. -/
theorem episodeMembers_ingest (p : Pipeline) (s : Store)
    (now since id key content category visibility : String) (opts : IngestOpts) :
    ∃ epId,
      (p.prepare now since s id key content category visibility opts).2.episodeId = some epId ∧
      (p.ingest now since s id key content category visibility opts).1.episodes =
        (p.prepare now since s id key content category visibility opts).1.episodes ∧
      ∀ ep, (p.ingest now since s id key content category visibility opts).1.episodeMembers ep =
        s.episodeMembers ep + if s.Adds id key ∧ epId = ep then 1 else 0 := by
  obtain ⟨epId, hepId, hepisodes, hmembers⟩ :=
    membership_ingest p s now since id key content category visibility opts
  refine ⟨epId, hepId, hepisodes, fun ep => ?_⟩
  rw [Store.episodeMembers_of_membership hmembers]
  by_cases hadds : s.Adds id key <;> simp [hadds]

/-- **The episode of an ingest** is written before the memory: with one more, if it is joined, and
with one, if it is opened. -/
theorem prepare_writes (p : Pipeline) (s : Store)
    (now since id key content category visibility : String) (opts : IngestOpts) :
    ∃ episode : Episode,
      (p.prepare now since s id key content category visibility opts).1 =
        s.writeEpisode now episode ∧
      (p.prepare now since s id key content category visibility opts).2.episodeId =
        some episode.id ∧
      match s.joinedEpisode since (p.wingOf key content category opts) opts.episodeId with
      | some e => episode.id = e.id ∧ episode.memoryCount = e.memoryCount + 1 ∧
        ∀ q ∈ episode.summaryPreview, q ∈ e.summaryPreview ∨
          q = summaryPreviewOf (cleanMemoryContextPrefixes p.isWhitespace content)
      | none => episode.id = opts.episodeId.getD ("ep-" ++ id) ∧ episode.memoryCount = 1 ∧
        episode.summaryPreview =
          some (summaryPreviewOf (cleanMemoryContextPrefixes p.isWhitespace content)) := by
  have hresolve : ∃ score,
      (p.prepare now since s id key content category visibility opts).1 =
        (s.resolveEpisode now since id (cleanMemoryContextPrefixes p.isWhitespace content)
          (p.wingOf key content category opts) score opts.episodeId).1 ∧
      (p.prepare now since s id key content category visibility opts).2.episodeId =
        some (s.resolveEpisode now since id (cleanMemoryContextPrefixes p.isWhitespace content)
          (p.wingOf key content category opts) score opts.episodeId).2 := ⟨_, rfl, rfl⟩
  obtain ⟨score, hstore, hepisode⟩ := hresolve
  rw [hstore, hepisode]
  cases hjoined : s.joinedEpisode since (p.wingOf key content category opts) opts.episodeId with
  | some e =>
    rw [Store.resolveEpisode_of_joined hjoined]
    refine ⟨_, rfl, rfl, rfl, rfl, fun q hq => ?_⟩
    obtain ⟨prev, hprev, rfl⟩ := Option.map_eq_some_iff.1 hq
    split
    · exact Or.inr rfl
    · exact Or.inl hprev
  | none =>
    rw [Store.resolveEpisode_of_opened hjoined]
    exact ⟨_, rfl, rfl, rfl, rfl, rfl⟩

/-- **An ingest** leaves right counts exactly when it is one that `KeepsCounts`. -/
theorem counted_ingest_iff (h : s.Counted) (now since id key content category visibility : String)
    (opts : IngestOpts) :
    (p.ingest now since s id key content category visibility opts).1.Counted ↔
      p.KeepsCounts s (.ingest now since id key content category visibility opts) := by
  obtain ⟨epId, hepId, hepisodes, hmembers⟩ :=
    episodeMembers_ingest p s now since id key content category visibility opts
  obtain ⟨episode, hwritten, hid, hcount⟩ :=
    prepare_writes p s now since id key content category visibility opts
  obtain rfl : episode.id = epId := Option.some.inj (hid.symm.trans hepId)
  have hothers : ∀ e ∈ s.episodes, e.id ≠ episode.id → e.memoryCount =
      (p.ingest now since s id key content category visibility opts).1.episodeMembers e.id := by
    intro e he hne
    rw [hmembers, if_neg fun hadds => hne hadds.2.symm]
    exact h e he
  have hiff : (p.ingest now since s id key content category visibility opts).1.Counted ↔
      episode.memoryCount = s.episodeMembers episode.id + if s.Adds id key then 1 else 0 := by
    unfold Store.Counted
    rw [hepisodes, hwritten]
    refine (Store.forall_writeEpisode (P := fun ep n _ => n = Store.episodeMembers _ ep)).trans
      ((and_iff_left hothers).trans ?_)
    rw [hmembers]
    simp only [and_true]
  rw [hiff]
  unfold KeepsCounts
  dsimp only
  split at hcount
  · -- the episode that is joined has a right count
    rename_i e hjoined
    obtain ⟨row, hrow, rfl⟩ := Store.mem_episodes_of_joinedEpisode hjoined
    have hright : row.episode.memoryCount = s.episodeMembers row.episode.id := h row hrow
    rw [hcount.1, hcount.2.1, hright]
    by_cases hadds : s.Adds id key <;> simp [hadds]
  · rw [hcount.1, hcount.2.1]
    by_cases hadds : s.Adds id key <;> simp [hadds, eq_comm]

end Pipeline

/-! ## Forgets -/

namespace Store

variable {s : Store} {now : String}

/-- Emptied previews and a row that is deleted: the episodes are those there were, with their
counts, and those of other memories have the members they had. -/
theorem counted_scrubbed (h : s.Counted) (now : String) {r : MemoryRow} (hr : r ∈ s.memories) :
    ∀ e ∈ (s.scrubbed now r).episodes, r.episodeId ≠ some e.id →
      e.memoryCount = (s.scrubbed now r).episodeMembers e.id := by
  intro e' he' hep
  obtain ⟨e, he, rfl⟩ := mem_episodes_scrubbed.1 he'
  have hsame : ∀ e : EpisodeRow, (if e.Quotes r.content then
      { e with summaryPreview := none, updatedAt := now } else e).id = e.id ∧
        (if e.Quotes r.content then
          { e with summaryPreview := none, updatedAt := now } else e).memoryCount =
            e.memoryCount := by
    intro e
    split <;> exact ⟨rfl, rfl⟩
  rw [(hsame e).1] at hep ⊢
  rw [(hsame e).2, h e he]
  refine (Table.countWhere_deleteWhere fun r' hr' hmember => ?_).symm
  refine decide_eq_false fun hkey => hep ?_
  rw [← eq_of_key hr' hr hkey]
  exact of_decide_eq_true hmember

/-- An episode that is settled is recounted, or dropped; the others are left. -/
theorem counted_settleEpisode {ep : String}
    (h : ∀ e ∈ s.episodes, ep ≠ e.id → e.memoryCount = s.episodeMembers e.id) :
    (s.settleEpisode now ep).1.Counted := by
  unfold Counted settleEpisode
  dsimp only
  split
  · intro e' he'
    rw [Table.mem_update] at he'
    obtain ⟨e, he, rfl⟩ := he'
    by_cases hid : e.id = ep
    · rw [if_pos hid, hid]
      rfl
    · rw [if_neg hid]
      exact h e he (Ne.symm hid)
  · rename_i hdropped
    obtain ⟨gone, hgone, hcond⟩ := Table.countWhere_pos.1 (Nat.pos_of_ne_zero hdropped)
    have hnone := (Bool.and_eq_true_iff.1 hcond).2
    intro e he
    obtain ⟨he, hkept⟩ := Table.mem_deleteWhere.1 he
    refine h e he fun hid => ?_
    rw [hnone, hid, decide_eq_true rfl] at hkept
    cases hkept

/-- **A forget** leaves right counts. -/
theorem counted_forget (h : s.Counted) (now key : String) :
    (s.deleteMemoryByKey now key).1.Counted := by
  cases hk : s.memoryByKey key with
  | none =>
    rw [deleteMemoryByKey_of_none hk]
    exact h
  | some row =>
    obtain ⟨hrow, rfl⟩ := memoryByKey_eq_some.1 hk
    have hscrubbed := counted_scrubbed h now hrow
    rw [deleteMemoryByKey_eq hrow]
    cases hep : row.episodeId with
    | none =>
      intro e he
      refine hscrubbed e he ?_
      rw [hep]
      nofun
    | some ep =>
      refine counted_settleEpisode fun e he hne => hscrubbed e he ?_
      rw [hep]
      exact fun heq => hne (Option.some.inj heq)

end Store

/-! ## Runs -/

namespace Pipeline

variable {p : Pipeline} {s : Store}

/-- **One call.** -/
theorem counted_episodeStep_iff (h : s.Counted) (call : EpisodeCall) :
    (p.episodeStep s call).Counted ↔ p.KeepsCounts s call := by
  cases call with
  | ingest now since id key content category visibility opts => exact counted_ingest_iff h ..
  | forget now key => exact iff_of_true (Store.counted_forget h now key) trivial

/-- **Episode counts.**  From right counts, the runs after which the counts are right throughout
are those all of whose ingests are ones that `KeepsCounts`. -/
theorem counts_exact_iff (p : Pipeline) {s : Store} (h : s.Counted) (calls : List EpisodeCall) :
    AllSteps p.episodeStep p.KeepsCounts s calls ↔
      ∀ past, past <+: calls → (run p.episodeStep s past).Counted :=
  allSteps_iff_forall_past (fun _ call hcounted => counted_episodeStep_iff hcounted call) h

/-! ## Notes -/

/-- A note of one wing, with the episode it is put into, if one is named. -/
def noteAt (now since id key content : String) (episodeId : Option String) : EpisodeCall :=
  .ingest now since id key content "" "private" { factIn "ops" none with episodeId }

/-- A note opens an episode and a second one joins it; the first is forgotten.  A third one opens an
episode later, the second is ingested again for its own episode, and a fourth one opens a named
one. -/
def countedNotes : List EpisodeCall :=
  let morning := noteAt "2026-01-03 09:00:00" "2026-01-03 08:30:00"
  let noon := noteAt "2026-01-03 12:00:00" "2026-01-03 11:30:00"
  [morning "m1" "monday" "ship on monday" none, morning "m2" "tuesday" "ship on tuesday" none,
    .forget "2026-01-03 09:10:00" "monday", noon "m3" "review" "ship on monday" none,
    noon "m2" "tuesday" "ship on tuesday" (some "ep-m1"),
    noon "m4" "plan" "ship on tuesday" (some "trip")]

theorem counts_exact_notes :
    (run linking.episodeStep {} countedNotes).episodes.rows.map
        (fun e => (e.id, e.memoryCount)) = [("ep-m1", 1), ("ep-m3", 1), ("trip", 1)] ∧
      ∀ past, past <+: countedNotes → (run linking.episodeStep {} past).Counted :=
  ⟨by decide +kernel, (counts_exact_iff linking (by decide) countedNotes).1 (by decide +kernel)⟩

/-- A note is ingested again; it is edited; its id is used for another key; a note opens an episode,
a second one joins it, a third one opens another, and a fourth one names the first. -/
def miscountedNotes : List (List EpisodeCall) :=
  let morning := noteAt "2026-01-03 09:00:00" "2026-01-03 08:30:00"
  let noon := noteAt "2026-01-03 12:00:00" "2026-01-03 11:30:00"
  let monday := morning "m1" "monday" "ship on monday" none
  [[monday, morning "m1" "monday" "ship on monday" none],
    [monday, morning "m1" "monday" "ship on tuesday" none],
    [monday, morning "m1" "tuesday" "ship on tuesday" none],
    [monday, morning "m2" "tuesday" "ship on tuesday" none,
      noon "m3" "review" "ship on monday" none,
      noon "m4" "plan" "ship on tuesday" (some "ep-m1")]]

/-- **Wrong counts**: an episode, the number it has, and the number of its memories. -/
theorem miscounted_notes :
    miscountedNotes.map (fun calls =>
        (run linking.episodeStep {} calls).episodes.rows.map fun e =>
          (e.id, e.memoryCount, (run linking.episodeStep {} calls).episodeMembers e.id)) =
      [[("ep-m1", 2, 1)], [("ep-m1", 2, 1)], [("ep-m1", 2, 1)],
        [("ep-m1", 1, 3), ("ep-m3", 1, 1)]] ∧
      ∀ calls ∈ miscountedNotes, ¬ (run linking.episodeStep {} calls).Counted := by
  decide +kernel

end Pipeline

end Spectral
