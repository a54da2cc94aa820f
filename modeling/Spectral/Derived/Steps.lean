import Spectral.Derived.Rows
import Spectral.Federation.Delivery

/-!
# What the calls do to derived rows

One section for each kind of call: that the foreign keys hold after it, and when what no foreign key
protects does.

* `SparesEpisodes`, `KeepsEpisodes` — the conditions on a write and on an ingest.
* `backed_write_iff`, `backed_ingest_iff`, `backed_rebuild_iff`, `backed_tombstone_iff`,
  `backed_import_iff` — the calls that need one.
* `backed_associated`, `backed_consolidateInto`, `backed_deleteMemoryByKey` — those that need none.
-/

namespace Spectral

open Spectral.Lib

/-- The condition on a write: if it goes through, a new row is put into no stored episode, and every
preview is still the beginning of a text. -/
def Env.SparesEpisodes (env : Env) (s : Store) (memory : Memory)
    (fingerprints : List Fingerprint) : Prop :=
  env.Accepts s memory fingerprints →
    (s.Adds memory.id memory.key → ∀ e ∈ s.episodes.rows, memory.episodeId ≠ some e.id) ∧
      ∀ e ∈ s.episodes.rows,
        s.Quotes (env.textAfter memory.key memory.content) e.id e.summaryPreview

/-- The condition on an ingest: the counts stay right, and a text that is no new memory leaves every
preview the beginning of a text, its own included. -/
def Pipeline.KeepsEpisodes (p : Pipeline) (now since : String) (s : Store)
    (id key content category visibility : String) (opts : IngestOpts) : Prop :=
  p.KeepsCounts s (.ingest now since id key content category visibility opts) ∧
    (¬ s.Adds id key →
      s.Quotes (p.textAfterIngest now since s id key content category visibility opts)
          (opts.episodeId.getD ("ep-" ++ id))
          (some (summaryPreviewOf (cleanMemoryContextPrefixes p.isWhitespace content))) ∧
        ∀ e ∈ s.episodes.rows, e.id ≠ opts.episodeId.getD ("ep-" ++ id) →
          s.Quotes (p.textAfterIngest now since s id key content category visibility opts) e.id
            e.summaryPreview)

/-! ## Writes -/

namespace Store

variable {s s' : Store} {env : Env} {now : String}

/-- A row that is written over keeps its id. -/
theorem hasMemory_write {memory : Memory} {fps : List Fingerprint} {id : String}
    (h : s.HasMemory id) : (env.write now s memory fps).HasMemory id := by
  obtain ⟨r, hr, rfl⟩ := h
  rcases Env.write_eq_or_written env now s memory fps with hsame | hwritten
  · rw [hsame]
    exact ⟨r, hr, rfl⟩
  · by_cases hk : r.key = memory.key
    · refine ⟨_, (hwritten.mem_memories _).2 (Or.inr rfl), ?_⟩
      unfold Env.writtenRow
      rw [memoryByKey_eq_some.2 ⟨hr, hk⟩]
      dsimp only
      split <;> rfl
    · exact ⟨r, (hwritten.mem_memories r).2 (Or.inl ⟨hr, hk⟩), rfl⟩

theorem keepsNames_write {memory : Memory} {fps : List Fingerprint} :
    s.KeepsNames (env.write now s memory fps) :=
  ⟨fun _ => hasMemory_write, fun _ => hasKey_write⟩

/-- The foreign keys of the fingerprints, which every insert of one checks. -/
theorem resolves_foldlM_insertFingerprint {fps : List Fingerprint}
    (h : fps.foldlM (insertFingerprint now) s = .ok s')
    (hs : Resolves FingerprintRow.ends MemoryRow.id s.fingerprints s.memories) :
    Resolves FingerprintRow.ends MemoryRow.id s'.fingerprints s'.memories := by
  refine rel_of_foldlM_eq_ok (R := fun s t : Store =>
      Resolves FingerprintRow.ends MemoryRow.id s.fingerprints s.memories →
        Resolves FingerprintRow.ends MemoryRow.id t.fingerprints t.memories)
    (fun _ => id) (fun _ _ _ hst htu h => htu (hst h)) (fun t fp u hu ht => ?_) h hs
  unfold insertFingerprint at hu
  split at hu
  · cases hu
    exact ht
  · split at hu
    · rename_i hends
      cases hu
      intro f hf k hk
      rcases Table.mem_insertOrIgnore.1 hf with hf | ⟨rfl, -⟩
      · exact ht f hf k hk
      · rcases List.mem_pair.1 hk with rfl | rfl
        · exact hends.1
        · exact hends.2
    · cases hu

/-- A write changes memories and fingerprints only. -/
theorem eq_of_write (env : Env) (now : String) (s : Store) (memory : Memory)
    (fps : List Fingerprint) :
    ∃ memories fingerprints, env.write now s memory fps = { s with memories, fingerprints } := by
  unfold Env.write
  cases h : env.writeMemoryInTx now s memory fps with
  | error e => exact ⟨_, _, rfl⟩
  | ok written =>
    obtain ⟨s', outcome⟩ := written
    cases Env.writes_of_writeMemoryInTx h with
    | inserted hnone ht hfps =>
      obtain ⟨_, hs'⟩ := eq_of_foldlM_insertFingerprint hfps
      unfold insertMemory at ht
      split at ht
      · cases ht
      · cases ht
        exact ⟨_, _, hs'⟩
    | noOp hk hsame => exact ⟨_, _, rfl⟩
    | contentUpdated hk hdiff hfps =>
      obtain ⟨_, hs'⟩ := eq_of_foldlM_insertFingerprint hfps
      exact ⟨_, _, hs'⟩

/-- **The foreign keys** hold after a write. -/
theorem resolved_write {memory : Memory} {fps : List Fingerprint} (h : s.Resolved) :
    (env.write now s memory fps).Resolved := by
  have hnames : s.KeepsNames (env.write now s memory fps) := keepsNames_write
  refine ⟨?_, ?_, rooted_write h.rooted⟩
  · unfold Env.write at hnames ⊢
    cases hwrite : env.writeMemoryInTx now s memory fps with
    | error e => exact h.fingerprints
    | ok written =>
      obtain ⟨s', outcome⟩ := written
      rw [hwrite] at hnames
      have hkept : ∀ id, s.HasMemory id → s'.HasMemory id := hnames.ids
      cases Env.writes_of_writeMemoryInTx hwrite with
      | inserted hnone ht hfps =>
        refine resolves_foldlM_insertFingerprint hfps ?_
        unfold insertMemory at ht
        split at ht
        · cases ht
        · cases ht
          refine h.fingerprints.mono (fun _ => id) ?_
          rintro id ⟨r, hr, hid⟩
          exact ⟨r, Table.mem_insertOrIgnore_of_mem hr, hid⟩
      | noOp hk hsame => exact h.fingerprints.mono (fun _ => id) hkept
      | contentUpdated hk hdiff hfps =>
        refine resolves_foldlM_insertFingerprint hfps ?_
        obtain ⟨_, hs'⟩ := eq_of_foldlM_insertFingerprint hfps
        rw [hs'] at hkept
        exact h.fingerprints.mono (fun f hf => (Table.mem_deleteWhere.1 hf).1) hkept
  · obtain ⟨memories, fingerprints, hwrite⟩ := eq_of_write env now s memory fps
    rw [hwrite] at hnames ⊢
    exact h.memorySessions.mono (fun _ => id) hnames.ids

/-- **One write.** -/
theorem backed_write_iff (h : s.Backed) (now : String) (memory : Memory) (fps : List Fingerprint) :
    (env.write now s memory fps).Backed ↔ env.SparesEpisodes s memory fps := by
  obtain ⟨memories, fingerprints, hframe⟩ := eq_of_write env now s memory fps
  rw [backed_iff_of_keepsNames h keepsNames_write (by rw [hframe]) (by rw [hframe])]
  clear hframe
  unfold Env.write Env.SparesEpisodes
  rw [← Env.isOk_writeMemoryInTx_iff now]
  cases hwrite : env.writeMemoryInTx now s memory fps with
  | error e => exact iff_of_true h.episodes fun hok => by cases hok
  | ok written =>
    obtain ⟨s', outcome⟩ := written
    obtain ⟨hepisodes, hmembers⟩ := Env.membership_writeMemoryInTx hwrite
    dsimp only
    rw [hepisodes, forall_prop_of_true (show (Except.ok (s', outcome)).isOk = true from rfl)]
    by_cases hadds : s.Adds memory.id memory.key
    · -- a new row changes no text, and is counted where it is put
      rw [if_pos hadds] at hmembers
      have hquotes : ∀ e ∈ s.episodes.rows,
          s.Quotes (env.textAfter memory.key memory.content) e.id e.summaryPreview := fun e he =>
        (quotes_congr fun r hr => Env.textAfter_of_none hadds.1 hr).2 (h.episodes e he).2
      rw [and_iff_left hquotes, forall_prop_of_true hadds]
      refine forall₂_congr fun e he => ?_
      have hkept : s'.Quotes MemoryRow.content e.id e.summaryPreview :=
        (quotes_of_membership hmembers).2 fun q hq => Or.inl (hquotes e he q hq)
      unfold Vouches
      rw [and_iff_left hkept, episodeMembers_of_membership hmembers, (h.episodes e he).1,
        List.countP_singleton]
      by_cases hep : memory.episodeId = some e.id <;> simp [hep]
    · rw [if_neg hadds] at hmembers
      rw [and_iff_right fun h => absurd h hadds]
      refine forall₂_congr fun e he => ?_
      have hcount : e.memoryCount = s'.episodeMembers e.id :=
        (h.episodes e he).1.trans (episodeMembers_of_membership hmembers e.id).symm
      unfold Vouches
      rw [and_iff_right hcount, quotes_of_texts hmembers]

end Store

/-! ## Ingests -/

namespace Pipeline

open Store

variable {p : Pipeline} {s : Store}

theorem summaryPreviewOf_prefix (content : String) :
    (summaryPreviewOf content).toList <+: content.toList := by
  unfold summaryPreviewOf
  rw [String.toList_ofList]
  exact List.take_prefix 200 _

/-- An ingest prepares an episode and writes the memory. -/
theorem ingest_eq_write (now since : String) (s : Store)
    (id key content category visibility : String) (opts : IngestOpts) :
    (p.ingest now since s id key content category visibility opts).1 =
      p.env.write now (p.prepare now since s id key content category visibility opts).1
        (p.prepare now since s id key content category visibility opts).2
        (p.generateFingerprints (p.prepare now since s id key content category visibility opts).1
          (p.prepare now since s id key content category visibility opts).2) := by
  have hfold : p.env.prepareIngest p.isWhitespace now since s id key content category visibility
      opts = p.prepare now since s id key content category visibility opts := rfl
  unfold ingest Env.ingestWith Env.write
  dsimp only
  rw [hfold]
  generalize p.env.writeMemoryInTx now _ _ _ = written
  cases written <;> rfl

theorem resolved_ingest (h : s.Resolved) (now since : String)
    (id key content category visibility : String) (opts : IngestOpts) :
    (p.ingest now since s id key content category visibility opts).1.Resolved := by
  obtain ⟨episode, hwritten, -⟩ :=
    prepare_writes p s now since id key content category visibility opts
  rw [ingest_eq_write, hwritten]
  exact resolved_write (h.of_eq rfl rfl rfl rfl)

/-- An ingest loses no name, and leaves the pairs and the edges. -/
theorem keepsNames_ingest (now since : String) (s : Store)
    (id key content category visibility : String) (opts : IngestOpts) :
    s.KeepsNames (p.ingest now since s id key content category visibility opts).1 ∧
      (p.ingest now since s id key content category visibility opts).1.coRetrievalPairs =
        s.coRetrievalPairs ∧
      (p.ingest now since s id key content category visibility opts).1.consolidationEdges =
        s.consolidationEdges := by
  obtain ⟨episode, hwritten, -⟩ :=
    prepare_writes p s now since id key content category visibility opts
  rw [ingest_eq_write, hwritten]
  generalize (p.prepare now since s id key content category visibility opts).2 = memory
  generalize p.generateFingerprints _ memory = fps
  have hnames : (s.writeEpisode now episode).KeepsNames
      (p.env.write now (s.writeEpisode now episode) memory fps) := keepsNames_write
  obtain ⟨_, _, hwrite⟩ := eq_of_write p.env now (s.writeEpisode now episode) memory fps
  exact ⟨⟨hnames.ids, hnames.keys⟩, by rw [hwrite]; rfl, by rw [hwrite]; rfl⟩

/-- A new memory is quoted, if it is. -/
theorem quotes_ingest_of_adds
    (h : ∀ e ∈ s.episodes, s.Quotes MemoryRow.content e.id e.summaryPreview)
    (now since : String) {id key content category visibility : String} {opts : IngestOpts}
    (hadds : s.Adds id key) :
    ∀ e ∈ (p.ingest now since s id key content category visibility opts).1.episodes,
      (p.ingest now since s id key content category visibility opts).1.Quotes MemoryRow.content e.id
        e.summaryPreview := by
  obtain ⟨epId, hepId, hepisodes, hmembers⟩ :=
    membership_ingest p s now since id key content category visibility opts
  obtain ⟨episode, hwritten, hid, hepisode⟩ :=
    prepare_writes p s now since id key content category visibility opts
  obtain rfl : episode.id = epId := Option.some.inj (hid.symm.trans hepId)
  rw [if_pos hadds] at hmembers
  rw [hepisodes, hwritten]
  generalize (p.ingest now since s id key content category visibility opts).1 = s' at *
  clear hepisodes hwritten hid hepId
  generalize cleanMemoryContextPrefixes p.isWhitespace content = text at *
  have hold : ∀ {ep preview}, s.Quotes MemoryRow.content ep preview →
      s'.Quotes MemoryRow.content ep preview := by
    intro ep preview hquotes
    refine (quotes_of_membership hmembers).2 fun q hq => Or.inl ?_
    refine (quotes_congr fun r hr => ?_).1 hquotes q hq
    unfold textAfterIngest
    rw [Env.textAfter_of_none hadds.1 hr, ite_self]
  have hnew : s'.Quotes MemoryRow.content episode.id (some (summaryPreviewOf text)) := by
    refine (quotes_of_membership hmembers).2 fun q hq =>
      Or.inr ⟨_, List.mem_singleton_self _, rfl, ?_⟩
    rw [← Option.some.inj hq]
    exact summaryPreviewOf_prefix _
  refine (forall_writeEpisode (P := fun ep _ preview => s'.Quotes MemoryRow.content ep preview)).2
    ⟨?_, fun e he _ => hold (h e he)⟩
  split at hepisode
  · rename_i e hjoined
    obtain ⟨row, hrow, rfl⟩ := mem_episodes_of_joinedEpisode hjoined
    obtain ⟨hjoins, -, hpreview⟩ := hepisode
    intro q hq
    rcases hpreview q hq with hq | rfl
    · rw [hjoins]
      exact hold (h row hrow) q hq
    · exact hnew _ rfl
  · rw [hepisode.2.2]
    exact hnew

/-- A text that is no new memory is the preview of the episode it opens. -/
theorem quotes_ingest_iff_of_not_adds (now since : String)
    {id key content category visibility : String} {opts : IngestOpts} (hadds : ¬ s.Adds id key)
    (hopened : s.joinedEpisode since (p.wingOf key content category opts) opts.episodeId = none) :
    (∀ e ∈ (p.ingest now since s id key content category visibility opts).1.episodes,
      (p.ingest now since s id key content category visibility opts).1.Quotes MemoryRow.content e.id
        e.summaryPreview) ↔
      s.Quotes (p.textAfterIngest now since s id key content category visibility opts)
          (opts.episodeId.getD ("ep-" ++ id))
          (some (summaryPreviewOf (cleanMemoryContextPrefixes p.isWhitespace content))) ∧
        ∀ e ∈ s.episodes.rows, e.id ≠ opts.episodeId.getD ("ep-" ++ id) →
          s.Quotes (p.textAfterIngest now since s id key content category visibility opts) e.id
            e.summaryPreview := by
  obtain ⟨epId, -, hepisodes, hmembers⟩ :=
    membership_ingest p s now since id key content category visibility opts
  obtain ⟨episode, hwritten, -, hepisode⟩ :=
    prepare_writes p s now since id key content category visibility opts
  rw [if_neg hadds] at hmembers
  rw [hopened] at hepisode
  rw [hepisodes, hwritten, ← hepisode.1, ← hepisode.2.2]
  generalize (p.ingest now since s id key content category visibility opts).1 = s' at *
  simp only [quotes_of_texts hmembers]
  exact forall_writeEpisode (P := fun ep _ preview =>
    s.Quotes (p.textAfterIngest now since s id key content category visibility opts) ep preview)

/-- **One ingest.** -/
theorem backed_ingest_iff (h : s.Backed) (now since id key content category visibility : String)
    (opts : IngestOpts) :
    (p.ingest now since s id key content category visibility opts).1.Backed ↔
      p.KeepsEpisodes now since s id key content category visibility opts := by
  obtain ⟨hnames, hpairs, hedges⟩ :=
    keepsNames_ingest (p := p) now since s id key content category visibility opts
  have hcounts := counted_ingest_iff (p := p) (fun e he => (h.episodes e he).1) now since id key
    content category visibility opts
  have hsplit : (∀ e ∈ (p.ingest now since s id key content category visibility opts).1.episodes,
      (p.ingest now since s id key content category visibility opts).1.Vouches e.id e.memoryCount
        e.summaryPreview) ↔
      (p.ingest now since s id key content category visibility opts).1.Counted ∧
        ∀ e ∈ (p.ingest now since s id key content category visibility opts).1.episodes,
          (p.ingest now since s id key content category visibility opts).1.Quotes MemoryRow.content
            e.id e.summaryPreview := forall₂_and
  rw [backed_iff_of_keepsNames h hnames hpairs hedges, hsplit, hcounts]
  unfold KeepsEpisodes
  refine and_congr_right fun hkeeps => ?_
  by_cases hadds : s.Adds id key
  · exact iff_of_true (quotes_ingest_of_adds (fun e he => (h.episodes e he).2) now since hadds)
      fun hnot => absurd hadds hnot
  · -- an episode that is joined would count one member too many
    have hopened :
        s.joinedEpisode since (p.wingOf key content category opts) opts.episodeId = none := by
      by_contra hjoined
      obtain ⟨e, he⟩ := Option.ne_none_iff_exists'.1 hjoined
      unfold KeepsCounts at hkeeps
      simp only [he] at hkeeps
      exact hadds hkeeps
    rw [forall_prop_of_true hadds]
    exact quotes_ingest_iff_of_not_adds now since hadds hopened

end Pipeline

/-! ## Pairs -/

namespace Store

variable {s s' : Store} {parseIds : String → Option (List String)}

/-- The store has other pairs, of memories that exist if those of before do. -/
def PairedFrom (s s' : Store) : Prop :=
  ∃ pairs, s' = { s with coRetrievalPairs := pairs } ∧
    (Resolves CoRetrievalPair.ends MemoryRow.id s.coRetrievalPairs s.memories →
      Resolves CoRetrievalPair.ends MemoryRow.id pairs s.memories)

/-- The upsert of a pair of memories that exist. -/
theorem PairedFrom.bumpPair {a b : String} (h : s.PairedFrom s') (ha : s.HasMemory a)
    (hb : s.HasMemory b) : s.PairedFrom (s'.bumpPair a b) := by
  obtain ⟨pairs, rfl, hpairs⟩ := h
  unfold Store.bumpPair
  split
  · refine ⟨_, rfl, fun h c hc k hk => ?_⟩
    obtain ⟨c', hc', rfl⟩ := Table.mem_update.1 hc
    refine hpairs h c' hc' k ?_
    split at hk <;> exact hk
  · refine ⟨_, rfl, fun h c hc k hk => ?_⟩
    rcases Table.mem_insertOrIgnore.1 hc with hc | ⟨rfl, -⟩
    · exact hpairs h c hc k hk
    · rcases List.mem_pair.1 hk with rfl | rfl
      · exact ha
      · exact hb

/-- An association that does something adds a session of a memory that exists, and pairs. -/
theorem associated_cases (hs : s.Resolved) (call : String × String) :
    s.associated call = s ∨ s.HasMemory call.1 ∧
      PairedFrom { s with memorySessions := s.memorySessions.insertOrIgnore ⟨call.1, call.2⟩ }
        (s.associated call) := by
  unfold associated associateMemorySession
  by_cases hthere : s.memorySessions.Clashes ⟨call.1, call.2⟩
  · rw [if_pos hthere]
    exact Or.inl rfl
  by_cases hmemory : s.HasMemory call.1
  · rw [if_neg hthere, if_pos hmemory]
    refine Or.inr ⟨hmemory, ?_⟩
    refine List.foldlRecOn _ _ ⟨_, rfl, id⟩ fun t ht peer hpeer => ?_
    obtain ⟨m, hm, rfl⟩ := List.mem_map.1 hpeer
    have hexists : s.HasMemory m.memoryId :=
      hs.memorySessions m (List.mem_filter.1 hm).1 _ (List.mem_singleton_self _)
    split
    · exact ht.bumpPair hmemory hexists
    · exact ht.bumpPair hexists hmemory
  · rw [if_neg hthere, if_neg hmemory]
    exact Or.inl rfl

theorem resolved_associated (hs : s.Resolved) (call : String × String) :
    (s.associated call).Resolved := by
  rcases associated_cases hs call with hsame | ⟨hmemory, pairs, hpaired, -⟩
  · rwa [hsame]
  · rw [hpaired]
    refine ⟨hs.fingerprints, fun m hm k hk => ?_, hs.rooted⟩
    rcases Table.mem_insertOrIgnore.1 hm with hm | ⟨rfl, -⟩
    · exact hs.memorySessions m hm k hk
    · rw [List.mem_singleton.1 hk]
      exact hmemory

/-- **An association** pairs memories that exist. -/
theorem backed_associated (hs : s.Resolved) (h : s.Backed) (call : String × String) :
    (s.associated call).Backed := by
  rcases associated_cases hs call with hsame | ⟨-, pairs, hpaired, hresolves⟩
  · rwa [hsame]
  · rw [hpaired]
    exact ⟨hresolves h.pairs, h.targets, h.episodes⟩

/-- The pairs a session has observed are of memories that exist. -/
theorem hasMemory_of_mem_sessionPairs (hs : s.Resolved) {pair : String × String}
    (h : pair ∈ sessionPairs s.memorySessions.rows) : s.HasMemory pair.1 ∧ s.HasMemory pair.2 := by
  obtain ⟨a, ha, hpair⟩ := List.mem_flatMap.1 h
  obtain ⟨b, hb, rfl⟩ := List.mem_map.1 hpair
  exact ⟨hs.memorySessions a ha _ (List.mem_singleton_self _),
    hs.memorySessions b (List.mem_filter.1 hb).1 _ (List.mem_singleton_self _)⟩

/-- **A rebuild** pairs what the logged events name, and what has sessions. -/
theorem backed_rebuild_iff (hs : s.Resolved) (h : s.Backed)
    (o : Shuffle ((String × String) × ℕ)) :
    (s.rebuildCoRetrievalIndex parseIds o).1.Backed ↔
      ∀ pair ∈ s.eventPairs parseIds, s.HasMemory pair.1 ∧ s.HasMemory pair.2 := by
  have hcounts := counts_rebuild parseIds o s
  constructor
  · intro hafter pair hpair
    have hrow : (⟨pair.1, pair.2, (s.observations parseIds).count pair⟩ : CoRetrievalPair) ∈
        (s.rebuildCoRetrievalIndex parseIds o).1.coRetrievalPairs :=
      (hcounts _).2 ⟨rfl, List.count_pos_iff.2 (List.mem_append_left _ hpair)⟩
    exact ⟨hafter.pairs _ hrow _ (List.mem_pair.2 (Or.inl rfl)),
      hafter.pairs _ hrow _ (List.mem_pair.2 (Or.inr rfl))⟩
  · intro hevents
    refine ⟨fun c hc k hk => ?_, h.targets, h.episodes⟩
    obtain ⟨hcount, hpos⟩ := (hcounts c).1 hc
    rw [hcount] at hpos
    have hends : s.HasMemory c.memoryIdA ∧ s.HasMemory c.memoryIdB := by
      rcases List.mem_append.1 (List.count_pos_iff.1 hpos) with hpair | hpair
      · exact hevents _ hpair
      · exact hasMemory_of_mem_sessionPairs hs hpair
    rcases List.mem_pair.1 hk with rfl | rfl
    · exact hends.1
    · exact hends.2

/-! ## Consolidations -/

theorem eq_of_foldlM_insertEdge {target : String} {xs : List String}
    (h : xs.foldlM (insertEdge target) s = .ok s') :
    ∃ consolidationEdges, s' = { s with consolidationEdges } := by
  refine rel_of_foldlM_eq_ok (R := fun s s' : Store =>
    ∃ consolidationEdges, s' = { s with consolidationEdges }) (fun _ => ⟨_, rfl⟩) ?_
    (fun s source t ht => ?_) h
  · rintro s t u ⟨_, rfl⟩ ⟨_, rfl⟩
    exact ⟨_, rfl⟩
  · unfold insertEdge at ht
    dsimp only at ht
    split at ht
    · cases ht
      exact ⟨_, rfl⟩
    · split at ht
      · cases ht
        exact ⟨_, rfl⟩
      · cases ht

/-- The loop over the sources changes the edges only. -/
theorem eq_of_foldlM_consolidateSource {target : String} {policy : InvalidSourcePolicy}
    {sources : List String} {acc acc' : Store × List String × List (String × SkipReason)}
    (h : sources.foldlM (consolidateSource target policy) acc = .ok acc') :
    ∃ consolidationEdges, acc'.1 = { acc.1 with consolidationEdges } := by
  refine rel_of_foldlM_eq_ok
    (R := fun acc acc' : Store × List String × List (String × SkipReason) =>
      ∃ consolidationEdges, acc'.1 = { acc.1 with consolidationEdges }) (fun _ => ⟨_, rfl⟩) ?_
    (fun acc source acc' hstep => ?_) h
  · rintro ⟨s, -⟩ ⟨t, -⟩ ⟨u, -⟩ ⟨_, rfl⟩ ⟨_, rfl⟩
    exact ⟨_, rfl⟩
  · obtain ⟨s, consolidated, skipped⟩ := acc
    obtain ⟨s', consolidated', skipped'⟩ := acc'
    have houtcome : SourceOutcome s consolidated target source s' consolidated' :=
      sourceOutcome_of_eq_ok hstep
    cases houtcome with
    | self | again | elsewhere | missing => exact ⟨_, rfl⟩
    | @merged u _ hne hkey hexisting hedge hinbound =>
      have hone : [source].foldlM (insertEdge target) s = .ok u := by
        rw [List.foldlM_cons, hedge]
        rfl
      obtain ⟨_, rfl⟩ := eq_of_foldlM_insertEdge hone
      obtain ⟨_, hrest⟩ := eq_of_foldlM_insertEdge hinbound
      exact ⟨_, hrest⟩

/-- What a consolidation leaves of the rest. -/
theorem membership_consolidateInto {sources : List String} {target : String}
    {policy : InvalidSourcePolicy} {result : ConsolidationResult}
    (h : s.consolidateInto sources target policy = .ok (s', result)) :
    s.HasKey target ∧ s'.membership = s.membership ∧ (∀ id, s.HasMemory id → s'.HasMemory id) ∧
      ∃ memories consolidationEdges, s' = { s with memories, consolidationEdges } := by
  obtain ⟨hkey, t, skipped, hfold, hs'⟩ := of_consolidateInto_eq_ok h
  obtain ⟨edges, hacc⟩ := eq_of_foldlM_consolidateSource hfold
  dsimp only at hacc
  refine ⟨hkey, ?_⟩
  rcases hs' with rfl | ⟨-, score, rfl⟩
  · rw [hacc]
    exact ⟨rfl, fun _ => id, _, _, rfl⟩
  · rw [hacc]
    refine ⟨membership_updateMemories _ (fun _ => rfl) fun r _ => ite_self _, ?_, _, _, rfl⟩
    rintro id ⟨r, hr, rfl⟩
    refine ⟨_, mem_memories_updateMemories.2 ⟨r, hr, rfl⟩, ?_⟩
    split <;> rfl

theorem resolved_consolidateInto {sources : List String} {target : String}
    {policy : InvalidSourcePolicy} {result : ConsolidationResult} (hs : s.Resolved)
    (hmerge : s.consolidateInto sources target policy = .ok (s', result)) : s'.Resolved := by
  obtain ⟨-, -, hids, memories, edges, rfl⟩ := membership_consolidateInto hmerge
  exact ⟨hs.fingerprints.mono (fun _ => id) hids, hs.memorySessions.mono (fun _ => id) hids,
    rooted_consolidateInto hs.rooted hmerge⟩

/-- **A consolidation** leads to a target that exists. -/
theorem backed_consolidateInto {sources : List String} {target : String}
    {policy : InvalidSourcePolicy} {result : ConsolidationResult} (h : s.Backed)
    (hmerge : s.consolidateInto sources target policy = .ok (s', result)) : s'.Backed := by
  obtain ⟨hkeys, hto⟩ := forwardTo_consolidateInto hmerge
  obtain ⟨hkey, hmembers, hids, memories, edges, rfl⟩ := membership_consolidateInto hmerge
  refine ⟨h.pairs.mono (fun _ => id) hids, fun e he k hk => ?_,
    fun e he => (vouches_congr hmembers).2 (h.episodes e he)⟩
  rw [List.mem_singleton.1 hk]
  refine (hkeys e.targetKey).2 ?_
  rcases hto.only _ _ ⟨e, he, rfl, rfl⟩ with ⟨e', he', -, htarget⟩ | ⟨htarget, -⟩
  · exact h.targets e' he' _ (htarget ▸ List.mem_singleton_self _)
  · rw [htarget]
    exact hkey

/-! ## Forgets -/

/-- An episode that is settled and still there has members. -/
theorem episodeMembers_pos_of_mem_settleEpisode {now ep : String} {e : EpisodeRow}
    (h : e ∈ (s.settleEpisode now ep).1.episodes) (hid : e.id = ep) :
    0 < (s.settleEpisode now ep).1.episodeMembers ep := by
  have hsame : (s.settleEpisode now ep).1.episodeMembers ep = s.episodeMembers ep := by
    unfold episodeMembers
    rw [(sameTables_settleEpisode now ep s).memories]
  rw [hsame]
  by_contra hnone
  have hzero : s.episodeMembers ep = 0 := by omega
  unfold settleEpisode at h
  dsimp only at h
  split at h
  · -- none was dropped, so none was there
    rename_i hdropped
    dsimp only at h
    rw [Table.mem_update] at h
    obtain ⟨e', he', rfl⟩ := h
    have hid' : e'.id = ep := by
      rw [← hid]
      split <;> rfl
    refine absurd (Table.countWhere_pos.2 ⟨e', he', ?_⟩) (Nat.not_lt.2 hdropped.le)
    simp [hid', hzero]
  · have hkept := (Table.mem_deleteWhere.1 h).2
    simp [hid, hzero] at hkept

/-- A forget takes the id of the memory away, and no other one. -/
theorem Erased.hasMemory_iff {r : MemoryRow} (h : s.Erased s' r) (hr : r ∈ s.memories) (id : String) :
    s'.HasMemory id ↔ s.HasMemory id ∧ id ≠ r.id := by
  constructor
  · rintro ⟨r', hr', rfl⟩
    exact ⟨⟨r', ((h.memories r').1 hr').1, rfl⟩, h.ids r' hr'⟩
  · rintro ⟨⟨r', hr', rfl⟩, hne⟩
    exact ⟨r', (h.memories r').2 ⟨hr', fun hkey => hne (congrArg _ (eq_of_key hr' hr hkey))⟩, rfl⟩

theorem resolved_deleteMemoryByKey (h : s.Resolved) (now key : String) :
    (s.deleteMemoryByKey now key).1.Resolved := by
  cases hk : s.memoryByKey key with
  | none => rwa [deleteMemoryByKey_of_none hk]
  | some r =>
    obtain ⟨hr, rfl⟩ := memoryByKey_eq_some.1 hk
    have herased := deleteMemoryByKey_erases s now r hr
    refine ⟨fun f hf id hid => ?_, fun m hm id hid => ?_, rooted_deleteMemoryByKey h.rooted⟩
    · obtain ⟨hf, hanchor, htarget⟩ := (herased.fingerprints f).1 hf
      refine (herased.hasMemory_iff hr id).2 ⟨h.fingerprints f hf id hid, ?_⟩
      rcases List.mem_pair.1 hid with rfl | rfl
      · exact hanchor
      · exact htarget
    · obtain ⟨hm, hne⟩ := (herased.memorySessions m).1 hm
      refine (herased.hasMemory_iff hr id).2 ⟨h.memorySessions m hm id hid, ?_⟩
      rw [List.mem_singleton.1 hid]
      exact hne

/-- A preview that is left after a forget is the beginning of a text that is. -/
theorem quotes_deleteMemoryByKey (h : s.Backed) {r : MemoryRow} (hr : r ∈ s.memories) (now : String) :
    ∀ e ∈ (s.deleteMemoryByKey now r.key).1.episodes,
      (s.deleteMemoryByKey now r.key).1.Quotes MemoryRow.content e.id e.summaryPreview := by
  have herased := deleteMemoryByKey_erases s now r hr
  intro e' he' q hq
  obtain ⟨e, he, hid, hpreview⟩ := herased.episodes e' he'
  by_cases hscrubbed : e.Quotes r.content
  · rw [hpreview, if_pos hscrubbed] at hq
    cases hq
  rw [hpreview, if_neg hscrubbed] at hq
  obtain ⟨r', hr', hep, hprefix⟩ := (h.episodes e he).2 q hq
  rw [hid]
  by_cases hkey : r'.key = r.key
  · -- the preview is empty, and the episode has kept a member
    obtain rfl := eq_of_key hr' hr hkey
    have hempty : q = "" := by
      by_contra hne
      exact hscrubbed ⟨q, hq, hne, hprefix⟩
    have hpos : 0 < (s.deleteMemoryByKey now r'.key).1.episodeMembers e.id := by
      rw [deleteMemoryByKey_eq hr', hep] at he' ⊢
      exact episodeMembers_pos_of_mem_settleEpisode he' hid
    obtain ⟨r'', hr'', hmember⟩ := Table.countWhere_pos.1 hpos
    refine ⟨r'', hr'', of_decide_eq_true hmember, ?_⟩
    rw [hempty]
    exact List.nil_prefix
  · exact ⟨r', (herased.memories r').2 ⟨hr', hkey⟩, hep, hprefix⟩

/-- **A forget** scrubs what no foreign key protects. -/
theorem backed_deleteMemoryByKey (h : s.Backed) (now key : String) :
    (s.deleteMemoryByKey now key).1.Backed := by
  cases hk : s.memoryByKey key with
  | none => rwa [deleteMemoryByKey_of_none hk]
  | some r =>
    obtain ⟨hr, rfl⟩ := memoryByKey_eq_some.1 hk
    have herased := deleteMemoryByKey_erases s now r hr
    have hcounted : (s.deleteMemoryByKey now r.key).1.Counted :=
      counted_forget (fun e he => (h.episodes e he).1) now r.key
    refine ⟨fun c hc id hid => ?_, fun e he k hk => ?_,
      fun e he => ⟨hcounted e he, quotes_deleteMemoryByKey h hr now e he⟩⟩
    · obtain ⟨hc, ha, hb⟩ := (herased.coRetrievalPairs c).1 hc
      refine (herased.hasMemory_iff hr id).2 ⟨h.pairs c hc id hid, ?_⟩
      rcases List.mem_pair.1 hid with rfl | rfl
      · exact ha
      · exact hb
    · obtain ⟨he, -, htarget⟩ := (herased.consolidationEdges e).1 he
      rw [List.mem_singleton.1 hk]
      exact (hasKey_deleteMemoryByKey e.targetKey).2
        ⟨h.targets e he _ (List.mem_singleton_self _), htarget⟩

/-! ## Retractions and imports -/

theorem resolved_tombstone (h : s.Resolved) (now wingId targetHash : String) :
    (s.tombstone now wingId targetHash).Resolved :=
  (resolved_deleteMemories h (s.retracted wingId targetHash)).of_eq rfl rfl rfl rfl

/-- **A retraction** is one delete. -/
theorem backed_tombstone_iff (h : s.Backed) (now wingId targetHash : String) :
    (s.tombstone now wingId targetHash).Backed ↔ s.Clears (s.retracted wingId targetHash) := by
  rw [← backed_deleteMemories_iff h]
  exact ⟨fun hafter => hafter.of_eq rfl rfl rfl rfl, fun hafter => hafter.of_eq rfl rfl rfl rfl⟩

/-- The memories the retractions of a pack delete. -/
def retractedBy (s : Store) (wingId : String) (hashes : List String) (r : MemoryRow) : Bool :=
  decide (r.id ∈ hashes ∧ ¬ s.HeldElsewhere wingId r.id)

/-- **The retractions** of a pack are one delete. -/
theorem foldl_importTombstone_eq (now wingId : String) (s : Store) (ds : List Tombstone) :
    ∃ sharedWingMembers syncTombstones, ds.foldl (importTombstone now wingId) s =
      { s.deleteMemories (s.retractedBy wingId (ds.map Tombstone.targetHash)) with
        sharedWingMembers, syncTombstones } := by
  induction ds using List.reverseRecOn with
  | nil =>
    refine ⟨s.sharedWingMembers, s.syncTombstones, ?_⟩
    rw [deleteMemories_congr s (q := fun _ => false) fun r _ => by simp [retractedBy],
      deleteMemories_false]
    rfl
  | append_singleton ds d ih =>
    have hheld : (ds.foldl (importTombstone now wingId) s).HeldElsewhere wingId d.targetHash ↔
        s.HeldElsewhere wingId d.targetHash := by
      have hmembers := (retractSpec_foldl now wingId s ds).mem_members
      constructor
      · rintro ⟨m, hm, hh, hw⟩
        exact ⟨m, ((hmembers m).1 hm).1, hh, hw⟩
      · rintro ⟨m, hm, hh, hw⟩
        exact ⟨m, (hmembers m).2 ⟨hm, fun hd => hw hd.1⟩, hh, hw⟩
    have hpredicate : ∀ r ∈ s.memories,
        s.retractedBy wingId ((ds ++ [d]).map Tombstone.targetHash) r =
          (s.retractedBy wingId (ds.map Tombstone.targetHash) r ||
            (ds.foldl (importTombstone now wingId) s).retracted wingId d.targetHash r) := by
      intro r _
      simp only [retractedBy, retracted, hheld]
      by_cases hid : r.id = d.targetHash <;> simp [hid]
    rw [deleteMemories_congr s hpredicate, ← deleteMemories_deleteMemories, List.foldl_append,
      List.foldl_cons, List.foldl_nil]
    obtain ⟨members, tombstones, hpast⟩ := ih
    rw [hpast]
    exact ⟨_, _, rfl⟩

end Store

namespace Env

open Store

variable {env : Env} {policy : ImportPolicy} {s : Store}

/-- What the loop over the objects of a pack leaves of the store it started from. -/
structure Merges (s s' : Store) : Prop where
  frame : ∃ memories sharedWingMembers, s' = { s with memories, sharedWingMembers }
  kept : ∀ r ∈ s.memories, r ∈ s'.memories
  members : ∀ ep, s'.episodeMembers ep = s.episodeMembers ep

theorem merges_foldl_importObject (wingId now : String) (hashes : List String)
    (objects : List MemoryObject) (outcome : ImportOutcome) :
    Merges s (objects.foldl (env.importObject policy wingId hashes now) (s, outcome)).1 := by
  refine List.foldlRecOn (motive := fun acc : Store × ImportOutcome => Merges s acc.1) _ _
    ⟨⟨_, _, rfl⟩, fun _ => id, fun _ => rfl⟩ ?_
  rintro ⟨t, outcome⟩ ⟨⟨memories, members, rfl⟩, hkept, hmembers⟩ obj -
  unfold importObject
  dsimp only
  split
  · exact ⟨⟨_, _, rfl⟩, hkept, hmembers⟩
  · split
    · exact ⟨⟨_, _, rfl⟩, hkept, hmembers⟩
    · split
      · exact ⟨⟨_, _, rfl⟩, hkept, hmembers⟩
      · refine ⟨⟨_, _, rfl⟩, fun r hr => Table.mem_insertOrIgnore_of_mem (hkept r hr), fun ep => ?_⟩
        rw [← hmembers ep]
        -- an imported memory is in no episode
        by_cases hclash : memories.Clashes (env.importedRow now obj)
        · exact congrArg (Table.countWhere _) (Table.insertOrIgnore_of_clashes hclash)
        · exact Table.countWhere_insertOrIgnore hclash

theorem Merges.keepsNames {s' : Store} (h : Merges s s') : s.KeepsNames s' where
  ids := fun _ ⟨r, hr, hid⟩ => ⟨r, h.kept r hr, hid⟩
  keys := fun _ ⟨r, hr, hkey⟩ => ⟨r, h.kept r hr, hkey⟩

theorem Merges.resolved {s' : Store} (h : Merges s s') (hs : s.Resolved) : s'.Resolved := by
  have hnames := h.keepsNames
  obtain ⟨memories, members, rfl⟩ := h.frame
  exact ⟨hs.fingerprints.mono (fun _ => id) hnames.ids,
    hs.memorySessions.mono (fun _ => id) hnames.ids,
    fun x y hxy => hnames.keys x (hs.rooted x y hxy)⟩

theorem Merges.backed {s' : Store} (h : Merges s s') (hs : s.Backed) : s'.Backed := by
  have hnames := h.keepsNames
  have hepisodes : ∀ e ∈ s.episodes, s'.Vouches e.id e.memoryCount e.summaryPreview := by
    intro e he
    refine ⟨(hs.episodes e he).1.trans (h.members e.id).symm, fun q hq => ?_⟩
    obtain ⟨r, hr, hquoted⟩ := (hs.episodes e he).2 q hq
    exact ⟨r, h.kept r hr, hquoted⟩
  obtain ⟨memories, members, rfl⟩ := h.frame
  exact (backed_iff_of_keepsNames hs hnames rfl rfl).2 hepisodes

variable {pack : Pack} {now : String}

/-- An import merges, and then deletes. -/
theorem exists_import_eq (env : Env) (policy : ImportPolicy) (pack : Pack) (now : String)
    (s : Store) :
    ∃ merged sharedWingMembers syncTombstones, Merges s merged ∧
      (∀ r, env.Doomed policy pack s r → (r ∈ merged.memories ↔ r ∈ s.memories)) ∧
      (env.importPackWithPolicy now s pack policy).1 =
        { merged.deleteMemories fun r => env.Doomed policy pack s r with
          sharedWingMembers, syncTombstones } := by
  unfold importPackWithPolicy
  dsimp only
  generalize hmerged : (pack.objects.foldl (env.importObject policy pack.wingId
    (env.packRetracted policy pack) now) (s, _)).1 = merged
  have hloop : env.LoopSpec policy pack now s pack.objects merged := by
    rw [← hmerged]
    exact loopSpec_foldl env policy pack now s _
  obtain ⟨members, tombstones, hdeleted⟩ := foldl_importTombstone_eq now pack.wingId merged
    (env.admittedTombstones policy pack)
  refine ⟨merged, members, tombstones, ?_, fun r hdoomed => ?_, ?_⟩
  · rw [← hmerged]
    exact merges_foldl_importObject pack.wingId now _ pack.objects _
  · refine (hloop.mem_memories r).trans (or_iff_left ?_)
    rintro ⟨o, -, ho, rfl⟩
    -- the id of an arrival is its hash, which the pack does not retract
    exact (mem_incoming (arrival_eq_some ho).1).2.2.1 hdoomed.1
  · rw [hdeleted]
    have hpredicate : merged.retractedBy pack.wingId
        ((env.admittedTombstones policy pack).map Tombstone.targetHash) =
          fun r => decide (env.Doomed policy pack s r) := by
      funext r
      exact decide_eq_decide.2 (and_congr_right fun _ => not_congr (hloop.heldElsewhere r.id))
    rw [hpredicate]

theorem resolved_import (h : s.Resolved) :
    (env.importPackWithPolicy now s pack policy).1.Resolved := by
  obtain ⟨merged, members, tombstones, hmerges, -, himport⟩ :=
    exists_import_eq env policy pack now s
  rw [himport]
  exact (resolved_deleteMemories (hmerges.resolved h) _).of_eq rfl rfl rfl rfl

/-- **One import.** -/
theorem backed_import_iff (h : s.Backed) :
    (env.importPackWithPolicy now s pack policy).1.Backed ↔
      s.Clears fun r => env.Doomed policy pack s r := by
  obtain ⟨merged, members, tombstones, hmerges, hdoomed, himport⟩ :=
    exists_import_eq env policy pack now s
  have hclears : merged.Clears (fun r => env.Doomed policy pack s r) ↔
      s.Clears fun r => env.Doomed policy pack s r := by
    obtain ⟨memories, manifest, rfl⟩ := hmerges.frame
    exact clears_congr (fun r hr => hdoomed r (of_decide_eq_true hr)) rfl rfl rfl
  rw [himport, ← hclears, ← backed_deleteMemories_iff (hmerges.backed h)]
  exact ⟨fun hafter => hafter.of_eq rfl rfl rfl rfl, fun hafter => hafter.of_eq rfl rfl rfl rfl⟩

end Env

end Spectral
