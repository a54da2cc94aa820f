import Spectral.Ingest.Batch
import Spectral.Ingest.Episodes

/-!
# Batched ingestion

`ingest_batch_with` prepares every item as `ingest_with` does, and then writes all memories in one
transaction.  The episodes are committed item by item; the peers of a memory are read before any
memory of the batch is there.

* `Pipeline.ingestBatchWith`, `ingestEach` — the batch, and the items one by one.
* `Pipeline.Abreast` — the two stores on the way: the same memories, and the same fingerprints but
  for those between two memories of the batch.  `abreast_item` is the step.
* `ingestBatchWith_of_ingestEach` — what the batch leaves when each of the items is accepted in its
  turn.
* `batched_notes` — an id that is used twice fails the batch as a whole, and ids with the sign that
  separates them in a fingerprint can take each other's.
-/

namespace Spectral

open Spectral.Lib

/-- `IngestItem`. -/
structure IngestItem where
  id : String
  key : String
  content : String
  category : String
  visibility : String
  opts : IngestOpts

/-- `IngestResult`. -/
structure IngestResult where
  memory : Memory
  fingerprints : List Fingerprint
  writeOutcome : WriteOutcome

namespace Pipeline

section

variable (p : Pipeline) (now since : String)

/-- The preparation of an item. -/
def prepareItem (s : Store) (item : IngestItem) : Store × Memory :=
  p.prepare now since s item.id item.key item.content item.category item.visibility item.opts

/-- The first part of `ingest_batch_with`: each item is prepared, and its episode committed. -/
def prepareEach : Store → List IngestItem → Store × List (Memory × List Fingerprint)
  | s, [] => (s, [])
  | s, item :: items =>
    let prepared := p.prepareItem now since s item
    let rest := prepareEach prepared.1 items
    (rest.1, (prepared.2, p.generateFingerprints prepared.1 prepared.2) :: rest.2)

/-- `ingest_batch_with`. -/
def ingestBatchWith (s : Store) (items : List IngestItem) :
    Store × Except String (List IngestResult) :=
  let (s, prepared) := p.prepareEach now since s items
  match p.env.writeBatch now s prepared with
  | .ok (s', outcomes, _) =>
    (s', .ok (List.zipWith (fun m outcome => ⟨m.1, m.2, outcome⟩) prepared outcomes))
  | .error e => (s, .error e)

/-- `ingest_with` for an item. -/
def ingestItem (s : Store) (item : IngestItem) : Store × Except String WriteOutcome :=
  p.ingest now since s item.id item.key item.content item.category item.visibility item.opts

/-- `ingest_with` for each of the items, in order. -/
def ingestEach : Store → List IngestItem → Store × List (Except String WriteOutcome)
  | s, [] => (s, [])
  | s, item :: items =>
    let first := p.ingestItem now since s item
    let rest := ingestEach first.1 items
    (rest.1, first.2 :: rest.2)

/-- No two pairs of these ids have one fingerprint id. -/
def NoCollision (ids : List String) : Prop :=
  ∀ a ∈ ids, ∀ b ∈ ids, ∀ c ∈ ids, ∀ d ∈ ids, p.makeFpId a b = p.makeFpId c d →
    (a = c ∧ b = d) ∨ (a = d ∧ b = c)

instance (ids : List String) : Decidable (p.NoCollision ids) :=
  inferInstanceAs (Decidable (∀ a ∈ ids, ∀ b ∈ ids, ∀ c ∈ ids, ∀ d ∈ ids,
    p.makeFpId a b = p.makeFpId c d → (a = c ∧ b = d) ∨ (a = d ∧ b = c)))

end

end Pipeline

/-! ## Episodes -/

/-- The episode of a memory depends on the episodes only. -/
theorem Store.resolveEpisode_congr {s t : Store} (h : s.episodes = t.episodes)
    (now since id content wing : String) (signalScore : ℚ) (episodeId : Option String) :
    (s.resolveEpisode now since id content wing signalScore episodeId).2 =
        (t.resolveEpisode now since id content wing signalScore episodeId).2 ∧
      (s.resolveEpisode now since id content wing signalScore episodeId).1.episodes =
        (t.resolveEpisode now since id content wing signalScore episodeId).1.episodes := by
  have hjoins : s.joinedEpisode since wing episodeId = t.joinedEpisode since wing episodeId := by
    unfold joinedEpisode findRecentEpisode
    rw [h]
  cases hjoined : t.joinedEpisode since wing episodeId with
  | none =>
    rw [resolveEpisode_of_opened hjoined, resolveEpisode_of_opened (hjoins.trans hjoined)]
    refine ⟨rfl, ?_⟩
    unfold writeEpisode
    rw [h]
  | some e =>
    rw [resolveEpisode_of_joined hjoined, resolveEpisode_of_joined (hjoins.trans hjoined)]
    refine ⟨rfl, ?_⟩
    unfold writeEpisode
    rw [h]

theorem Pipeline.prepareItem_congr (p : Pipeline) (now since : String) {s t : Store}
    (h : s.episodes = t.episodes) (item : IngestItem) :
    (p.prepareItem now since s item).2 = (p.prepareItem now since t item).2 ∧
      (p.prepareItem now since s item).1.episodes = (p.prepareItem now since t item).1.episodes := by
  unfold prepareItem prepare Env.prepareIngest
  dsimp only
  obtain ⟨hid, hepisodes⟩ := Store.resolveEpisode_congr h now since item.id
    (cleanMemoryContextPrefixes p.isWhitespace item.content) _ _ item.opts.episodeId
  exact ⟨by rw [hid], hepisodes⟩

/-- A write touches no episode. -/
theorem Env.Writes.episodes {env : Env} {now : String} {s s' : Store} {memory : Memory}
    {fps : List Fingerprint} {out : WriteOutcome} (h : env.Writes now s memory fps s' out) :
    s'.episodes = s.episodes := by
  cases h with
  | inserted _ ht hfps =>
    obtain ⟨_, rfl⟩ := Store.eq_of_foldlM_insertFingerprint hfps
    unfold Store.insertMemory at ht
    split at ht
    · cases ht
    · cases ht
      rfl
  | noOp _ _ => rfl
  | contentUpdated _ _ hfps =>
    obtain ⟨_, rfl⟩ := Store.eq_of_foldlM_insertFingerprint hfps
    rfl

/-! ## Fingerprints of a write -/

namespace Store

variable {s s' : Store} {now : String} {fps : List Fingerprint}

/-- A fingerprint whose row is there, or whose memories are. -/
def TakesUp (s : Store) (now : String) (fp : Fingerprint) : Prop :=
  s.fingerprints.Clashes (fp.row now) ∨ s.HasMemory fp.anchorMemoryId ∧ s.HasMemory fp.targetMemoryId

theorem insertFingerprint_eq_ok_iff {fp : Fingerprint} :
    s.insertFingerprint now fp = .ok s' ↔
      s.TakesUp now fp ∧
        s' = { s with fingerprints := s.fingerprints.insertOrIgnore (fp.row now) } := by
  unfold insertFingerprint TakesUp
  split
  · rename_i hclash
    rw [Table.insertOrIgnore_of_clashes hclash, Except.ok.injEq]
    exact ⟨fun h => ⟨Or.inl hclash, h.symm⟩, fun h => h.2.symm⟩
  · rename_i hclash
    split
    · rename_i hends
      rw [Except.ok.injEq]
      exact ⟨fun h => ⟨Or.inr hends, h.symm⟩, fun h => h.2.symm⟩
    · rename_i hends
      exact ⟨nofun, fun h => absurd h.1 (not_or.2 ⟨hclash, hends⟩)⟩

theorem TakesUp.insertOrIgnore {fp : Fingerprint} {row : FingerprintRow} (h : s.TakesUp now fp) :
    TakesUp { s with fingerprints := s.fingerprints.insertOrIgnore row } now fp :=
  h.imp_left fun ⟨r, hr, hid⟩ => ⟨r, Table.mem_insertOrIgnore_of_mem hr, hid⟩

/-- Fingerprints that the store takes up are inserted. -/
theorem exists_foldlM_of_takesUp (h : ∀ fp ∈ fps, s.TakesUp now fp) :
    ∃ s', fps.foldlM (insertFingerprint now) s = .ok s' := by
  induction fps generalizing s with
  | nil => exact ⟨s, rfl⟩
  | cons fp fps ih =>
    rw [List.foldlM_cons, insertFingerprint_eq_ok_iff.2 ⟨h fp List.mem_cons_self, rfl⟩]
    exact ih fun fp' hfp' => (h fp' (List.mem_cons_of_mem fp hfp')).insertOrIgnore

/-- **The inserts of a write**: each of the fingerprints is one that the store takes up, and the rows
are added whose id is free. -/
theorem of_foldlM_insertFingerprint (hids : (fps.map Fingerprint.id).Nodup)
    (h : fps.foldlM (insertFingerprint now) s = .ok s') :
    (∀ fp ∈ fps, s.TakesUp now fp) ∧ ∀ f, f ∈ s'.fingerprints ↔ f ∈ s.fingerprints ∨
      ∃ fp ∈ fps, fp.row now = f ∧ ¬ s.fingerprints.Clashes f := by
  induction fps generalizing s with
  | nil =>
    cases h
    simp
  | cons fp fps ih =>
    obtain ⟨hfirst, hids⟩ := List.nodup_cons.1 hids
    rw [List.foldlM_cons] at h
    cases ht : s.insertFingerprint now fp with
    | error e =>
      rw [ht] at h
      cases h
    | ok t =>
      rw [ht] at h
      obtain ⟨htakes, rfl⟩ := insertFingerprint_eq_ok_iff.1 ht
      obtain ⟨hall, hmem⟩ := ih hids h
      -- the first one is in the way of no other
      have hclash : ∀ fp' ∈ fps, (s.fingerprints.insertOrIgnore (fp.row now)).Clashes (fp'.row now) ↔
          s.fingerprints.Clashes (fp'.row now) := by
        refine fun fp' hfp' => ⟨?_, fun ⟨r, hr, hid⟩ => ⟨r, Table.mem_insertOrIgnore_of_mem hr, hid⟩⟩
        rintro ⟨r, hr, hid⟩
        rcases Table.mem_insertOrIgnore.1 hr with hr | ⟨rfl, -⟩
        · exact ⟨r, hr, hid⟩
        · have hsame : fp.id = fp'.id := hid
          exact absurd (hsame ▸ List.mem_map_of_mem hfp') hfirst
      constructor
      · intro fp' hfp'
        rcases List.mem_cons.1 hfp' with rfl | hfp'
        · exact htakes
        · exact (hall fp' hfp').imp_left (hclash fp' hfp').1
      · intro f
        rw [hmem f]
        dsimp only
        rw [Table.mem_insertOrIgnore, List.exists_mem_cons_iff, or_assoc]
        refine or_congr_right (or_congr ?_ ?_)
        · constructor
          · rintro ⟨rfl, hfree⟩
            exact ⟨rfl, hfree⟩
          · rintro ⟨rfl, hfree⟩
            exact ⟨rfl, hfree⟩
        · refine exists_congr fun fp' => and_congr_right fun hfp' => and_congr_right ?_
          rintro rfl
          exact not_congr (hclash fp' hfp')

end Store

/-! ## Side by side -/

/-- The row without what a write of a text changes. -/
def MemoryRow.textless (r : MemoryRow) : MemoryRow :=
  { r with content := "", contentHash := none, updatedAt := "" }

namespace Pipeline

/-- The fingerprint joins two memories of the batch, under the id of their pair. -/
def Within (p : Pipeline) (ids : List String) (f : FingerprintRow) : Prop :=
  f.anchorMemoryId ∈ ids ∧ f.targetMemoryId ∈ ids ∧
    f.id = p.makeFpId f.anchorMemoryId f.targetMemoryId

/-- The store of the items one by one, and that of the batch: the same memories, and the same
fingerprints but for those within the batch.  One of these that only the first store has names
memories that are stored. -/
structure Abreast (p : Pipeline) (ids : List String) (s t : Store) : Prop where
  memories : t.memories = s.memories
  fingerprints : ∀ f, ¬ p.Within ids f → (f ∈ t.fingerprints ↔ f ∈ s.fingerprints)
  stored : ∀ f ∈ s.fingerprints,
    f ∈ t.fingerprints ∨ s.HasMemory f.anchorMemoryId ∧ s.HasMemory f.targetMemoryId

/-- The fingerprints of a memory: each has the id of its pair, and no two the same. -/
structure Canonical (p : Pipeline) (all : List String) (fps : List Fingerprint) : Prop where
  nodup : (fps.map Fingerprint.id).Nodup
  id_eq : ∀ fp ∈ fps, fp.id = p.makeFpId fp.anchorMemoryId fp.targetMemoryId
  mem : ∀ fp ∈ fps, fp.anchorMemoryId ∈ all ∧ fp.targetMemoryId ∈ all

variable {p : Pipeline} {now since : String} {ids all : List String} {s s' t : Store}
  {memory : Memory} {fps gps : List Fingerprint} {out : WriteOutcome}

/-- A row within the batch that is in the way of a fingerprint joins the same memories. -/
theorem Within.pair {f : FingerprintRow} {fp : Fingerprint} (hfree : p.NoCollision all)
    (hsub : ids ⊆ all) (hfps : p.Canonical all fps) (hfp : fp ∈ fps) (hf : p.Within ids f)
    (hid : f.id = fp.id) :
    (f.anchorMemoryId = fp.anchorMemoryId ∧ f.targetMemoryId = fp.targetMemoryId) ∨
      (f.anchorMemoryId = fp.targetMemoryId ∧ f.targetMemoryId = fp.anchorMemoryId) := by
  obtain ⟨hanchor, htarget, hown⟩ := hf
  obtain ⟨hanchor', htarget'⟩ := hfps.mem fp hfp
  exact hfree _ (hsub hanchor) _ (hsub htarget) _ hanchor' _ htarget'
    (hown.symm.trans (hid.trans (hfps.id_eq fp hfp)))

/-- What the store of the items one by one takes up, that of the batch does. -/
theorem Abreast.takesUp (h : p.Abreast ids s t) (hfree : p.NoCollision all) (hsub : ids ⊆ all)
    (hfps : p.Canonical all fps) {fp : Fingerprint} (hfp : fp ∈ fps) (htakes : s.TakesUp now fp) :
    t.TakesUp now fp := by
  have hstored : ∀ {id}, s.HasMemory id → t.HasMemory id := fun hid => by
    unfold Store.HasMemory
    rwa [h.memories]
  rcases htakes with ⟨f, hf, hid⟩ | hends
  · rcases h.stored f hf with hft | ⟨hanchor, htarget⟩
    · exact Or.inl ⟨f, hft, hid⟩
    by_cases hwithin : p.Within ids f
    · rcases hwithin.pair hfree hsub hfps hfp hid with ⟨ha, ht⟩ | ⟨ha, ht⟩
      · exact Or.inr ⟨hstored (ha ▸ hanchor), hstored (ht ▸ htarget)⟩
      · exact Or.inr ⟨hstored (ht ▸ htarget), hstored (ha ▸ hanchor)⟩
    · exact Or.inl ⟨f, (h.fingerprints f hwithin).2 hf, hid⟩
  · exact Or.inr ⟨hstored hends.1, hstored hends.2⟩

/-- What is in the way of a fingerprint that is not within the batch is not within it either, and so
it is there in both stores. -/
theorem Abreast.clashes_iff (h : p.Abreast ids s t) (hfree : p.NoCollision all) (hsub : ids ⊆ all)
    (hfps : p.Canonical all fps) {fp : Fingerprint} (hfp : fp ∈ fps)
    (hout : ¬ p.Within ids (fp.row now)) :
    t.fingerprints.Clashes (fp.row now) ↔ s.fingerprints.Clashes (fp.row now) := by
  have hother : ∀ g, g.id = fp.id → ¬ p.Within ids g := by
    intro g hid hg
    have hends : fp.anchorMemoryId ∈ ids ∧ fp.targetMemoryId ∈ ids := by
      rcases hg.pair hfree hsub hfps hfp hid with ⟨ha, ht⟩ | ⟨ha, ht⟩
      · exact ⟨ha ▸ hg.1, ht ▸ hg.2.1⟩
      · exact ⟨ht ▸ hg.2.1, ha ▸ hg.1⟩
    exact hout ⟨hends.1, hends.2, hfps.id_eq fp hfp⟩
  constructor
  · rintro ⟨g, hg, hid⟩
    exact ⟨g, (h.fingerprints g (hother g hid)).1 hg, hid⟩
  · rintro ⟨g, hg, hid⟩
    exact ⟨g, (h.fingerprints g (hother g hid)).2 hg, hid⟩

/-- **The inserts**, side by side: the batch inserts the fingerprints that do not join two of its
memories, and some that do. -/
theorem Abreast.insertFingerprints (h : p.Abreast ids s t) (hfree : p.NoCollision all)
    (hsub : ids ⊆ all) (hfps : p.Canonical all fps) (hgps : (gps.map Fingerprint.id).Nodup)
    (hfewer : ∀ fp ∈ gps, fp ∈ fps)
    (hrest : ∀ fp ∈ fps, fp ∈ gps ∨ fp.anchorMemoryId ∈ ids ∧ fp.targetMemoryId ∈ ids)
    (hs : fps.foldlM (Store.insertFingerprint now) s = .ok s') :
    ∃ t', gps.foldlM (Store.insertFingerprint now) t = .ok t' ∧ p.Abreast ids s' t' := by
  obtain ⟨htakes, hmem⟩ := Store.of_foldlM_insertFingerprint hfps.nodup hs
  obtain ⟨t', ht'⟩ := Store.exists_foldlM_of_takesUp fun fp hfp =>
    h.takesUp hfree hsub hfps (hfewer fp hfp) (htakes fp (hfewer fp hfp))
  obtain ⟨-, hmem'⟩ := Store.of_foldlM_insertFingerprint hgps ht'
  have hsm : s'.memories = s.memories := (Store.sameTables_foldlM_insertFingerprint hs).memories
  have htm : t'.memories = t.memories := (Store.sameTables_foldlM_insertFingerprint ht').memories
  refine ⟨t', ht', htm.trans (h.memories.trans hsm.symm), fun f hf => ?_, fun f hf => ?_⟩
  · rw [hmem f, hmem' f, h.fingerprints f hf]
    refine or_congr_right ⟨?_, ?_⟩
    · rintro ⟨fp, hfp, rfl, hunused⟩
      exact ⟨fp, hfewer fp hfp, rfl, (h.clashes_iff hfree hsub hfps (hfewer fp hfp) hf).not.1 hunused⟩
    · rintro ⟨fp, hfp, rfl, hunused⟩
      refine ⟨fp, (hrest fp hfp).resolve_right fun hends => ?_, rfl,
        (h.clashes_iff hfree hsub hfps hfp hf).not.2 hunused⟩
      exact hf ⟨hends.1, hends.2, hfps.id_eq fp hfp⟩
  · unfold Store.HasMemory
    rw [hsm]
    rcases (hmem f).1 hf with hold | ⟨fp, hfp, rfl, hunused⟩
    · exact (h.stored f hold).imp_left fun hft => (hmem' f).2 (Or.inl hft)
    · exact Or.inr ((htakes fp hfp).resolve_left hunused)

theorem Abreast.insertMemory {row : MemoryRow} (h : p.Abreast ids s t)
    (hs : s.insertMemory row = .ok s') :
    ∃ t', t.insertMemory row = .ok t' ∧ p.Abreast ids s' t' := by
  unfold Store.insertMemory at hs ⊢
  rw [h.memories]
  split at hs
  · cases hs
  · rename_i hclash
    cases hs
    refine ⟨_, if_neg hclash, rfl, h.fingerprints, fun f hf => ?_⟩
    exact (h.stored f hf).imp_right fun ⟨⟨r, hr, hid⟩, r', hr', hid'⟩ =>
      ⟨⟨r, Table.mem_insertOrIgnore_of_mem hr, hid⟩, r', Table.mem_insertOrIgnore_of_mem hr', hid'⟩

theorem Abreast.updateMemories {q : MemoryRow → Bool} {g : MemoryRow → MemoryRow}
    (hg : ∀ r, (g r).id = r.id ∧ (g r).key = r.key) (h : p.Abreast ids s t) :
    p.Abreast ids (s.updateMemories q g hg) (t.updateMemories q g hg) where
  memories := by
    unfold Store.updateMemories
    dsimp only
    rw [h.memories]
  fingerprints := h.fingerprints
  stored f hf := by
    rw [Store.hasMemory_of_updateMemories hg rfl, Store.hasMemory_of_updateMemories hg rfl]
    exact h.stored f hf

/-- The fingerprints of a memory that is edited are deleted in both. -/
theorem Abreast.deleteFingerprints (h : p.Abreast ids s t) (q : FingerprintRow → Bool) :
    p.Abreast ids { s with fingerprints := s.fingerprints.deleteWhere q }
      { t with fingerprints := t.fingerprints.deleteWhere q } where
  memories := h.memories
  fingerprints f hf := by
    dsimp only
    rw [Table.mem_deleteWhere, Table.mem_deleteWhere, h.fingerprints f hf]
  stored f hf := by
    obtain ⟨hf, hq⟩ := Table.mem_deleteWhere.1 hf
    exact (h.stored f hf).imp_left fun hft => Table.mem_deleteWhere.2 ⟨hft, hq⟩

/-- **A write**, side by side. -/
theorem Abreast.writes (h : p.Abreast ids s t) (hfree : p.NoCollision all) (hsub : ids ⊆ all)
    (hfps : p.Canonical all fps) (hgps : (gps.map Fingerprint.id).Nodup)
    (hfewer : ∀ fp ∈ gps, fp ∈ fps)
    (hrest : ∀ fp ∈ fps, fp ∈ gps ∨ fp.anchorMemoryId ∈ ids ∧ fp.targetMemoryId ∈ ids)
    (hs : p.env.Writes now s memory fps s' out) :
    ∃ t', p.env.Writes now t memory gps t' out ∧ p.Abreast ids s' t' := by
  have hkey : t.memoryByKey memory.key = s.memoryByKey memory.key := by
    unfold Store.memoryByKey
    rw [h.memories]
  cases hs with
  | inserted hnone hs hinserts =>
    obtain ⟨u, hu, habreast⟩ := h.insertMemory hs
    obtain ⟨t', ht', hafter⟩ := habreast.insertFingerprints hfree hsub hfps hgps hfewer hrest hinserts
    exact ⟨t', .inserted (hkey.trans hnone) hu ht', hafter⟩
  | noOp hk hsame => exact ⟨_, .noOp (hkey.trans hk) hsame, h.updateMemories _⟩
  | @contentUpdated row _ hk hdiff hinserts =>
    have hrewritten : p.Abreast ids (p.env.rewritten now s memory row)
        (p.env.rewritten now t memory row) :=
      (h.updateMemories _).deleteFingerprints _
    obtain ⟨t', ht', hafter⟩ :=
      hrewritten.insertFingerprints hfree hsub hfps hgps hfewer hrest hinserts
    exact ⟨t', .contentUpdated (hkey.trans hk) hdiff ht', hafter⟩

/-! ## Peers -/

/-- The rows of a store and those of a later one, as the items of a batch leave them: the old ones
but for their texts, and new ones under ids of the batch. -/
structure Grown (ids : List String) (s₀ s : Store) : Prop where
  old : ∀ r₀ ∈ s₀.memories, ∃ r ∈ s.memories, r.textless = r₀.textless
  new : ∀ r ∈ s.memories, (∃ r₀ ∈ s₀.memories, r.textless = r₀.textless) ∨ r.id ∈ ids

theorem Grown.updateMemories {s₀ : Store} {q : MemoryRow → Bool} {g : MemoryRow → MemoryRow}
    (hg : ∀ r, (g r).id = r.id ∧ (g r).key = r.key) (htext : ∀ r, (g r).textless = r.textless)
    (h : Grown ids s₀ s) : Grown ids s₀ (s.updateMemories q g hg) := by
  have hone : ∀ r, (if q r then g r else r).textless = r.textless := by
    intro r
    split
    · exact htext r
    · rfl
  constructor
  · intro r₀ hr₀
    obtain ⟨r, hr, hsame⟩ := h.old r₀ hr₀
    exact ⟨_, Store.mem_memories_updateMemories.2 ⟨r, hr, rfl⟩, (hone r).trans hsame⟩
  · intro r' hr'
    obtain ⟨r, hr, rfl⟩ := Store.mem_memories_updateMemories.1 hr'
    have htextless := congrArg MemoryRow.id (hone r)
    have hid : (if q r then g r else r).id = r.id := htextless
    rw [hone r, hid]
    exact h.new r hr

/-- A write of an item. -/
theorem Grown.writes {s₀ : Store} (h : Grown ids s₀ s) (hid : memory.id ∈ ids)
    (hs : p.env.Writes now s memory fps s' out) : Grown ids s₀ s' := by
  cases hs with
  | inserted _ hs hinserts =>
    obtain ⟨_, rfl⟩ := Store.eq_of_foldlM_insertFingerprint hinserts
    unfold Store.insertMemory at hs
    split at hs
    · cases hs
    · cases hs
      constructor
      · intro r₀ hr₀
        obtain ⟨r, hr, hsame⟩ := h.old r₀ hr₀
        exact ⟨r, Table.mem_insertOrIgnore_of_mem hr, hsame⟩
      · intro r hr
        rcases Table.mem_insertOrIgnore.1 hr with hr | ⟨rfl, -⟩
        · exact h.new r hr
        · exact Or.inr hid
  | noOp _ _ => exact h.updateMemories _ fun _ => rfl
  | contentUpdated _ _ hinserts =>
    obtain ⟨_, rfl⟩ := Store.eq_of_foldlM_insertFingerprint hinserts
    have hupdated := h.updateMemories (q := fun r => r.key = memory.key) (g := fun r => { r with
      content := memory.content
      contentHash := some (p.env.contentHash memory.content)
      updatedAt := now }) (fun _ => ⟨rfl, rfl⟩) fun _ => rfl
    exact ⟨hupdated.old, hupdated.new⟩

/-- The memories that one is linked to, where their number is not limited: what a write of a text
changes does not matter. -/
theorem mem_linked_iff (hpeers : p.config.maxFingerprintPeers = none) {peer : MemoryRow} :
    peer ∈ p.linked s memory ↔ peer ∈ s.memories ∧
      (p.config.signalThreshold ≤ memory.signalScore ∧ p.config.fingerprints = true) ∧
        peer.textless.wing = some (memory.wing.getD "general") ∧
          p.config.signalThreshold ≤ peer.textless.signalScore ∧ peer.textless.id ≠ memory.id := by
  unfold linked peers
  rw [hpeers]
  dsimp only
  split
  · rename_i hlinks
    rw [List.mem_filter, Store.listWingMemories, List.mem_insertionSort, List.mem_filter]
    simp only [Bool.and_eq_true, decide_eq_true_eq, and_assoc, hlinks, true_and]
    rfl
  · rename_i hlinks
    exact ⟨fun h => absurd h List.not_mem_nil, fun h => absurd h.2.1 hlinks⟩

/-- **What the items link**, side by side: the batch reads its peers among the rows there were
before. -/
theorem generateFingerprints_of_grown {s₀ : Store} (hpeers : p.config.maxFingerprintPeers = none)
    (h : Grown ids s₀ s) (memory : Memory) :
    (∀ fp ∈ p.generateFingerprints s₀ memory, fp ∈ p.generateFingerprints s memory) ∧
      ∀ fp ∈ p.generateFingerprints s memory,
        fp ∈ p.generateFingerprints s₀ memory ∨ fp.anchorMemoryId ∈ ids := by
  have hsame : ∀ {t t' : Store} {r r'}, r ∈ p.linked t memory → r' ∈ t'.memories →
      r'.textless = r.textless → p.fingerprintOf memory r ∈ p.generateFingerprints t' memory := by
    intro t t' r r' hr hr' htextless
    obtain ⟨-, hlinks⟩ := (mem_linked_iff hpeers).1 hr
    have hfp : p.fingerprintOf memory r'.textless = p.fingerprintOf memory r.textless := by
      rw [htextless]
    rw [← htextless] at hlinks
    have hmem := List.mem_map_of_mem (f := p.fingerprintOf memory)
      ((mem_linked_iff hpeers).2 ⟨hr', hlinks⟩)
    exact (show p.fingerprintOf memory r' = p.fingerprintOf memory r from hfp) ▸ hmem
  constructor
  · intro fp hfp
    obtain ⟨r₀, hr₀, rfl⟩ := List.mem_map.1 hfp
    obtain ⟨r, hr, htextless⟩ := h.old r₀ (peer_of_mem_linked hr₀).1
    exact hsame hr₀ hr htextless
  · intro fp hfp
    obtain ⟨r, hr, rfl⟩ := List.mem_map.1 hfp
    rcases h.new r (peer_of_mem_linked hr).1 with ⟨r₀, hr₀, htextless⟩ | hid
    · exact Or.inl (hsame hr hr₀ htextless.symm)
    · exact Or.inr hid

/-- The fingerprints of a memory have the ids of its pairs, none twice. -/
theorem canonical_generateFingerprints (s : Store) (hpeers : p.config.maxFingerprintPeers = none)
    (hfree : p.NoCollision all) (hrows : ∀ r ∈ s.memories, r.id ∈ all) (hid : memory.id ∈ all) :
    p.Canonical all (p.generateFingerprints s memory) where
  nodup := by
    have hlinked : (p.linked s memory).Nodup := by
      unfold linked peers
      rw [hpeers]
      split
      · refine List.Nodup.filter _ ?_
        unfold Store.listWingMemories
        rw [(List.perm_insertionSort _ _).nodup_iff]
        exact s.memories.nodup_rows.filter _
      · exact List.nodup_nil
    unfold generateFingerprints
    rw [List.map_map]
    refine hlinked.map_on fun r hr r' hr' hsame => ?_
    obtain ⟨hrow, hne⟩ := peer_of_mem_linked hr
    obtain ⟨hrow', -⟩ := peer_of_mem_linked hr'
    rcases hfree _ (hrows r hrow) _ hid _ (hrows r' hrow') _ hid hsame with ⟨heq, -⟩ | ⟨heq, -⟩
    · exact Store.eq_of_id hrow hrow' heq
    · exact absurd heq hne
  id_eq fp hfp := by
    obtain ⟨peer, -, rfl⟩ := List.mem_map.1 hfp
    rfl
  mem fp hfp := by
    obtain ⟨peer, hpeer, rfl⟩ := List.mem_map.1 hfp
    exact ⟨hrows peer (peer_of_mem_linked hpeer).1, hid⟩

/-! ## The batch -/

/-- An item that is not accepted leaves its episode. -/
theorem ingestItem_of_error {item : IngestItem} {e : String}
    (h : (p.ingestItem now since s item).2 = .error e) :
    (p.ingestItem now since s item).1 = (p.prepareItem now since s item).1 := by
  unfold ingestItem ingest Env.ingestWith at h ⊢
  dsimp only at h ⊢
  split at h
  · cases h
  · rfl

/-- An item that is accepted is written. -/
theorem writes_of_ingestItem {item : IngestItem} (h : (p.ingestItem now since s item).2 = .ok out) :
    p.env.Writes now (p.prepareItem now since s item).1 (p.prepareItem now since s item).2
      (p.generateFingerprints (p.prepareItem now since s item).1 (p.prepareItem now since s item).2)
      (p.ingestItem now since s item).1 out := by
  have hfold : p.env.prepareIngest p.isWhitespace now since s item.id item.key item.content
      item.category item.visibility item.opts = p.prepareItem now since s item := rfl
  unfold ingestItem ingest Env.ingestWith at h ⊢
  dsimp only at h ⊢
  rw [hfold] at h ⊢
  split at h
  · rename_i s' out' hwrite
    cases h
    exact Env.writes_of_writeMemoryInTx hwrite
  · cases h

/-- What the preparation of an item leaves as it is, and what it takes from the item. -/
theorem prepareItem_spares (p : Pipeline) (now since : String) (s : Store) (item : IngestItem) :
    (p.prepareItem now since s item).1.memories = s.memories ∧
      (p.prepareItem now since s item).1.fingerprints = s.fingerprints ∧
        (p.prepareItem now since s item).2.id = item.id := by
  obtain ⟨hmemories, hfingerprints, hid, -⟩ := @prepare_spares p s now since item.id item.key
    item.content item.category item.visibility item.opts
  exact ⟨hmemories, hfingerprints, hid⟩

theorem Abreast.congr (h : p.Abreast ids s t) (hmemories : s'.memories = s.memories)
    (hfingerprints : s'.fingerprints = s.fingerprints) : p.Abreast ids s' t where
  memories := h.memories.trans hmemories.symm
  fingerprints := by
    rw [hfingerprints]
    exact h.fingerprints
  stored := by
    unfold Store.HasMemory
    rw [hfingerprints, hmemories]
    exact h.stored

/-- The store against which the items of a batch are prepared, and that of the items one by one. -/
structure Ahead (p : Pipeline) (ids all : List String) (b s : Store) : Prop where
  rows : ∀ r ∈ b.memories, r.id ∈ all
  episodes : s.episodes = b.episodes
  grown : Grown ids b s

/-- **An item**, side by side.  It is prepared against the rows there were before. -/
theorem abreast_item {item : IngestItem} {b : Store} (hpeers : p.config.maxFingerprintPeers = none)
    (hfree : p.NoCollision all) (hsub : ids ⊆ all) (hitem : item.id ∈ ids)
    (hahead : Ahead p ids all b s) (h : p.Abreast ids s t)
    (hok : (p.ingestItem now since s item).2 = .ok out) :
    ∃ t' wings, p.env.writeStep t (WriteItem.at now ((p.prepareItem now since b item).2,
        p.generateFingerprints (p.prepareItem now since b item).1 (p.prepareItem now since b item).2)) =
          .ok (t', out, wings) ∧
      Ahead p ids all (p.prepareItem now since b item).1 (p.ingestItem now since s item).1 ∧
        p.Abreast ids (p.ingestItem now since s item).1 t' := by
  have hwrites := writes_of_ingestItem hok
  obtain ⟨hmem, hfps, -⟩ := prepareItem_spares p now since s item
  obtain ⟨hbmem, -, hid⟩ := prepareItem_spares p now since b item
  obtain ⟨hmemory, hafter⟩ := p.prepareItem_congr now since hahead.episodes item
  rw [hmemory] at hwrites
  have hidmem : (p.prepareItem now since b item).2.id ∈ ids := hid ▸ hitem
  have hgrown : Grown ids (p.prepareItem now since b item).1 (p.prepareItem now since s item).1 :=
    ⟨by rw [hmem, hbmem]; exact hahead.grown.old, by rw [hmem, hbmem]; exact hahead.grown.new⟩
  have hbrows : ∀ r ∈ (p.prepareItem now since b item).1.memories, r.id ∈ all := by
    rw [hbmem]
    exact hahead.rows
  have hsrows : ∀ r ∈ (p.prepareItem now since s item).1.memories, r.id ∈ all := by
    intro r hr
    rcases hgrown.new r hr with ⟨r₀, hr₀, htextless⟩ | hr
    · have hsame := congrArg MemoryRow.id htextless
      exact (show r.id = r₀.id from hsame) ▸ hbrows r₀ hr₀
    · exact hsub hr
  obtain ⟨hfewer, hmore⟩ := generateFingerprints_of_grown hpeers hgrown
    (p.prepareItem now since b item).2
  have hrest : ∀ fp ∈ p.generateFingerprints (p.prepareItem now since s item).1
      (p.prepareItem now since b item).2, fp ∈ p.generateFingerprints
        (p.prepareItem now since b item).1 (p.prepareItem now since b item).2 ∨
          fp.anchorMemoryId ∈ ids ∧ fp.targetMemoryId ∈ ids := by
    intro fp hfp
    refine (hmore fp hfp).imp_right fun hanchor => ⟨hanchor, ?_⟩
    obtain ⟨peer, -, rfl⟩ := List.mem_map.1 hfp
    exact hidmem
  obtain ⟨t', hwrites', hside⟩ := (h.congr hmem hfps).writes hfree hsub
    (canonical_generateFingerprints _ hpeers hfree hsrows (hsub hidmem))
    (canonical_generateFingerprints _ hpeers hfree hbrows (hsub hidmem)).nodup hfewer hrest hwrites
  exact ⟨t', _, p.env.writeStep_of_ok (Env.writeMemoryInTx_of_writes hwrites'),
    ⟨hbrows, hwrites.episodes.trans hafter, hgrown.writes hidmem hwrites⟩, hside⟩

/-- **The items**, side by side. -/
theorem abreast_items {items : List IngestItem} {outs : List WriteOutcome} {b : Store}
    (hpeers : p.config.maxFingerprintPeers = none) (hfree : p.NoCollision all) (hsub : ids ⊆ all)
    (hids : ∀ item ∈ items, item.id ∈ ids) (hahead : Ahead p ids all b s) (h : p.Abreast ids s t)
    (hok : (p.ingestEach now since s items).2 = outs.map .ok) :
    ∃ t' written, callAll p.env.writeStep t
        ((p.prepareEach now since b items).2.map (WriteItem.at now)) = .ok (t', written) ∧
      written.map Prod.fst = outs ∧ p.Abreast ids (p.ingestEach now since s items).1 t' := by
  induction items generalizing s t b outs with
  | nil =>
    obtain rfl : outs = [] := List.map_eq_nil_iff.1 hok.symm
    exact ⟨t, [], rfl, rfl, h⟩
  | cons item items ih =>
    cases outs with
    | nil => cases hok
    | cons out outs =>
      obtain ⟨hfirst, hlater⟩ := List.cons_eq_cons.1 hok
      obtain ⟨t₁, wings, hstep, hahead', hside⟩ := abreast_item hpeers hfree hsub
        (hids item List.mem_cons_self) hahead h hfirst
      obtain ⟨t', written, hall, houts, hfinal⟩ := ih
        (fun item' hitem => hids item' (List.mem_cons_of_mem item hitem)) hahead' hside hlater
      refine ⟨t', (out, wings) :: written, (callAll_cons_of_ok hstep _).trans ?_,
        congrArg (List.cons out) houts, hfinal⟩
      rw [hall]
      rfl

/-- The episodes of a batch are those of the items one by one, whatever is accepted. -/
theorem episodes_ingestEach {items : List IngestItem} {b : Store} (h : s.episodes = b.episodes) :
    (p.ingestEach now since s items).1.episodes = (p.prepareEach now since b items).1.episodes := by
  induction items generalizing s b with
  | nil => exact h
  | cons item items ih =>
    refine ih ?_
    have hprepared := (p.prepareItem_congr now since h item).2
    cases hresult : (p.ingestItem now since s item).2 with
    | ok out => exact (writes_of_ingestItem hresult).episodes.trans hprepared
    | error e => exact (congrArg Store.episodes (ingestItem_of_error hresult)).trans hprepared

/-- The preparations touch neither memories nor fingerprints. -/
theorem prepareEach_spares (p : Pipeline) (now since : String) (s : Store) (items : List IngestItem) :
    (p.prepareEach now since s items).1.memories = s.memories ∧
      (p.prepareEach now since s items).1.fingerprints = s.fingerprints := by
  induction items generalizing s with
  | nil => exact ⟨rfl, rfl⟩
  | cons item items ih =>
    obtain ⟨hmemories, hfingerprints, -⟩ := prepareItem_spares p now since s item
    obtain ⟨hmemories', hfingerprints'⟩ := ih (p.prepareItem now since s item).1
    exact ⟨hmemories'.trans hmemories, hfingerprints'.trans hfingerprints⟩

theorem episodes_writeStep (env : Env) (s : Store) (item : WriteItem) (t : Store) (wrote : Wrote)
    (h : env.writeStep s item = .ok (t, wrote)) : t.episodes = s.episodes := by
  unfold Env.writeStep at h
  split at h
  · rename_i hwrite
    cases h
    exact (Env.writes_of_writeMemoryInTx hwrite).episodes
  · cases h

/-- What a batch returns and leaves, by its one transaction. -/
theorem ingestBatchWith_eq (p : Pipeline) (now since : String) (s : Store) (items : List IngestItem) :
    p.ingestBatchWith now since s items =
      match callAll p.env.writeStep (p.prepareEach now since s items).1
        ((p.prepareEach now since s items).2.map (WriteItem.at now)) with
      | .ok (t, written) => (t, .ok (List.zipWith (fun m outcome => ⟨m.1, m.2, outcome⟩)
          (p.prepareEach now since s items).2 (written.map Prod.fst)))
      | .error e => ((p.prepareEach now since s items).1, .error e) := by
  unfold ingestBatchWith
  dsimp only
  rw [Env.writeBatch_eq]
  cases callAll p.env.writeStep (p.prepareEach now since s items).1
    ((p.prepareEach now since s items).2.map (WriteItem.at now)) <;> rfl

/-- **A batch** whose items are accepted one by one is accepted, with the same outcomes, and leaves
the same memories and episodes; its fingerprints are the same but for those that join two memories
of the batch.  A batch that fails leaves only its episodes, which are the same in any case. -/
theorem ingestBatchWith_of_ingestEach (p : Pipeline) (now since : String) (s : Store)
    (items : List IngestItem) (hpeers : p.config.maxFingerprintPeers = none)
    (hfree : p.NoCollision (s.memories.rows.map MemoryRow.id ++ items.map IngestItem.id)) :
    (p.ingestBatchWith now since s items).1.episodes = (p.ingestEach now since s items).1.episodes ∧
      (∀ e, (p.ingestBatchWith now since s items).2 = .error e →
        (p.ingestBatchWith now since s items).1.memories = s.memories ∧
          (p.ingestBatchWith now since s items).1.fingerprints = s.fingerprints) ∧
      ∀ outs : List WriteOutcome, (p.ingestEach now since s items).2 = outs.map .ok →
        ∃ results, (p.ingestBatchWith now since s items).2 = .ok results ∧
          results.map IngestResult.writeOutcome = outs ∧
          (p.ingestBatchWith now since s items).1.memories =
            (p.ingestEach now since s items).1.memories ∧
          ∀ f, ¬ (f.anchorMemoryId ∈ items.map IngestItem.id ∧
              f.targetMemoryId ∈ items.map IngestItem.id) →
            (f ∈ (p.ingestBatchWith now since s items).1.fingerprints ↔
              f ∈ (p.ingestEach now since s items).1.fingerprints) := by
  obtain ⟨hmemories, hfingerprints⟩ := p.prepareEach_spares now since s items
  have hepisodes : (p.ingestEach now since s items).1.episodes =
      (p.prepareEach now since s items).1.episodes := episodes_ingestEach rfl
  have hside : ∀ outs : List WriteOutcome, (p.ingestEach now since s items).2 = outs.map .ok → _ :=
    fun outs hok => abreast_items (b := s) (t := (p.prepareEach now since s items).1) hpeers hfree
      (List.subset_append_right _ (items.map IngestItem.id)) (fun item => List.mem_map_of_mem)
      ⟨fun r hr => List.mem_append_left _ (List.mem_map_of_mem hr), rfl,
        fun r hr => ⟨r, hr, rfl⟩, fun r hr => Or.inl ⟨r, hr, rfl⟩⟩
      ⟨hmemories, fun f _ => by rw [hfingerprints], fun f hf => Or.inl (hfingerprints ▸ hf)⟩ hok
  rw [ingestBatchWith_eq]
  cases hcall : callAll p.env.writeStep (p.prepareEach now since s items).1
      ((p.prepareEach now since s items).2.map (WriteItem.at now)) with
  | error e =>
    refine ⟨hepisodes.symm, fun _ _ => ⟨hmemories, hfingerprints⟩, fun outs hok => ?_⟩
    obtain ⟨t, written, hok, -⟩ := hside outs hok
    rw [hcall] at hok
    cases hok
  | ok result =>
    obtain ⟨t, written⟩ := result
    obtain ⟨hlength, hkept⟩ := eq_of_callAll (episodes_writeStep p.env) hcall
    refine ⟨hkept.trans hepisodes.symm, nofun, fun outs hok => ?_⟩
    obtain ⟨t', written', hcall', rfl, habreast⟩ := hside outs hok
    rw [hcall] at hcall'
    cases hcall'
    refine ⟨_, rfl, ?_, habreast.memories, fun f hf => habreast.fingerprints f ?_⟩
    · rw [List.length_map] at hlength
      rw [List.map_zipWith]
      refine List.ext_getElem ?_ fun i _ _ => ?_
      · rw [List.length_zipWith, List.length_map, hlength, min_self]
      · rw [List.getElem_zipWith]
    · exact fun hwithin => hf ⟨hwithin.1, hwithin.2.1⟩

/-! ## Batched notes -/

/-- The digests that occur. -/
def pairDigests : List (String × ℕ) :=
  [("fp|m1|m1", 0xa279c0dc9d2172ca6f9e26ab11efe839a407db4ea4ffbb4e09f726fce5426eee),
    ("fp|m1|m2", 0xedca2bfcafa62767d7ce295e4c18852af6cd3b6a2db7e889185c4c5ac23b914e),
    ("fp|m1|m3", 0x0bfac761ec0e7090a7983362d4d2b5a64c2d9615a6f37f94f3aa189efe479c18),
    ("fp|m2|m2", 0x913582c3f63877e83236e2e144fface720dd7f581f11327bff17476d8e9dd4a2),
    ("fp|m2|m3", 0x3f57964f55b1319efa539500335aa3dbb9205466a64c25b4a62d4aa4686b223d),
    ("fp|m3|m3", 0xfa07d4fc34a90cae66b552f385a1ca750b3254f9d9400fab6db2ac5dba9abd1b),
    ("fp|a|c", 0x65fa1a98240f7fa462e80230811ce46602b379877bb79b53a32acbe84e029ec5),
    ("fp|b|c|c", 0xa51e3ff6a691315495ed7edfdac4e08f7838f7aeadb0cc3977debb792a82a649),
    ("fp|a|b|c", 0x4f9152aa3ffcfe288fa6b8b35db178ccb4a7a1908fb58ad3e1cda941660988a8),
    ("fp|a|a|b", 0x52478a666b2bf10b124c2bcc86b6986bc8312cd950906c39dfeacf1a5506432a),
    ("fp|a|b|b|c", 0xf9ab975bb2c1b41158ad597679af2c0995982ed29966bf2507a11d017941910c),
    ("fact|fact|ops|older", 0x38f044e9a94973e7f73130aa1429041b1eac213dfa369fe0a145d7a3b7ebf7aa)]

/-- A pipeline that links a memory to all peers. -/
def unlimited : Pipeline :=
  { linking with
    pf := { Platform.plain with
      sha256 := fun b =>
        Env.bytesOf 32 (((pairDigests.find? fun d => utf8 d.1 = b).map Prod.snd).getD 0) }
    config := { maxFingerprintPeers := none } }

/-- A note for the wing of the operations. -/
def noteOf (id key content : String) : IngestItem :=
  ⟨id, key, content, "", "private", factIn "ops" none⟩

/-- A store with one note. -/
def oneNote (id key content : String) : Store :=
  (unlimited.ingestEach "2026-01-03 09:00:00" "2026-01-03 08:30:00" {} [noteOf id key content]).1

/-- Two new notes, and the first of them edited. -/
def editedNotes : List IngestItem :=
  [noteOf "m2" "tuesday" "ship on tuesday", noteOf "m3" "other" "ship on monday",
    noteOf "m2" "tuesday" "ship on monday"]

theorem ingestBatchWith_editedNotes :
    ∃ results, (unlimited.ingestBatchWith "2026-01-03 09:05:00" "2026-01-03 08:35:00"
        (oneNote "m1" "monday" "ship on monday") editedNotes).2 = .ok results ∧
      results.map IngestResult.writeOutcome = [.inserted, .inserted, .contentUpdated] := by
  obtain ⟨-, -, haccepted⟩ := ingestBatchWith_of_ingestEach unlimited "2026-01-03 09:05:00"
    "2026-01-03 08:35:00" (oneNote "m1" "monday" "ship on monday") editedNotes rfl (by decide +kernel)
  obtain ⟨results, hok, houts, -⟩ := haccepted [.inserted, .inserted, .contentUpdated]
    (by decide +kernel)
  exact ⟨results, hok, houts⟩

/-- Two notes under one id. -/
def sharedId : List IngestItem :=
  [noteOf "m1" "monday" "ship on monday", noteOf "m1" "tuesday" "ship on tuesday"]

/-- Three notes, two of which have the sign in their ids that separates ids in a fingerprint. -/
def separated : List IngestItem :=
  [noteOf "a" "monday" "ship on monday", noteOf "b|c" "tuesday" "ship on tuesday",
    noteOf "a|b" "later" "ship on tuesday"]

/-- **Where a batch differs.**  Of two notes under one id the first is stored when they come one by
one, and neither when they come together.  Of three notes, the second takes the fingerprint id of the
third and of an older note when they come one by one, as it is linked to the first. -/
theorem batched_notes :
    ((unlimited.ingestBatchWith "2026-01-03 09:05:00" "2026-01-03 08:35:00" {}
        sharedId).1.memories.rows = [] ∧
      (unlimited.ingestEach "2026-01-03 09:05:00" "2026-01-03 08:35:00" {}
        sharedId).1.memories.rows.map MemoryRow.key = ["monday"]) ∧
    (unlimited.ingestEach "2026-01-03 09:05:00" "2026-01-03 08:35:00"
        (oneNote "c" "older" "ship on monday") separated).2 =
      [.ok .inserted, .ok .inserted, .ok .inserted] ∧
    ∃ f ∈ (unlimited.ingestBatchWith "2026-01-03 09:05:00" "2026-01-03 08:35:00"
        (oneNote "c" "older" "ship on monday") separated).1.fingerprints.rows,
      f.anchorMemoryId = "c" ∧ f.targetMemoryId = "a|b" ∧
        f ∉ (unlimited.ingestEach "2026-01-03 09:05:00" "2026-01-03 08:35:00"
          (oneNote "c" "older" "ship on monday") separated).1.fingerprints.rows := by
  decide +kernel

end Pipeline

end Spectral
