import Spectral.Ingest.Fingerprints
import Spectral.Recall.Search

/-!
# The first tier

Tier 1 looks fingerprints up by their hash.  It enumerates the hashes of the halls and buckets that
it knows; a row's hash is over the halls of its memories, which may be others.

* `FingerprintsProduced` — the fingerprints are those of the pipeline; `produced_perform` — an
  ingest keeps it so.
* `exists_hit_iff` — whom a fingerprint search finds.
* `ReachesScope` — it finds every memory with a fingerprint of the wing, and of the hall if the
  query has one.
* `tier1_reaches_iff` — with a hall it does; without, if and only if every such memory has a
  fingerprint with a fact on one side, or with known halls on both.
-/

namespace Spectral

open Spectral.Lib

/-! ## The hash of a fingerprint -/

/-- What `make_fingerprint_hash` digests. -/
def fingerprintText (anchorHall targetHall wing bucket : String) : String :=
  anchorHall ++ "|" ++ targetHall ++ "|" ++ wing ++ "|" ++ bucket

/-- The text tells halls that have no bar, whatever the other's are. -/
theorem fingerprintText_inj {anchorHall targetHall anchorHall' targetHall' wing bucket bucket' : String}
    (hanchor : '|' ∉ anchorHall.toList) (htarget : '|' ∉ targetHall.toList)
    (hbucket : '|' ∉ bucket.toList) (hbucket' : '|' ∉ bucket'.toList)
    (h : fingerprintText anchorHall targetHall wing bucket =
      fingerprintText anchorHall' targetHall' wing bucket') :
    anchorHall = anchorHall' ∧ targetHall = targetHall' := by
  have hsplit := congrArg (rsplitOnce '|') h
  have hhalls := (rsplitOnce_append hbucket).symm.trans (hsplit.trans (rsplitOnce_append hbucket'))
  obtain ⟨heq, -⟩ := Prod.mk.inj (Option.some.inj hhalls)
  have htoList : ∀ a t : String, (a ++ "|" ++ t ++ "|" ++ wing).toList =
      (a.toList ++ '|' :: t.toList) ++ '|' :: wing.toList := by
    intro a t
    have hone : "|".toList = ['|'] := rfl
    simp only [String.toList_append, List.append_assoc, hone, List.cons_append,
      List.nil_append]
  have hchars := congrArg String.toList heq
  rw [htoList, htoList] at hchars
  have hpair := List.append_cancel_right hchars
  obtain ⟨hanchor', -, htarget'⟩ := (List.append_cons_inj_of_notMem hanchor htarget).1 hpair
  exact ⟨String.toList_inj.1 hanchor', String.toList_inj.1 htarget'⟩

/-- The digests of a row and of what is looked up do not collide. -/
def Platform.NoCollision (pf : Platform) (f : FingerprintRow) (anchorHall targetHall bucket : String) :
    Prop :=
  pf.makeFingerprintHash f.anchorHall f.targetHall f.wing f.timeDeltaBucket =
      pf.makeFingerprintHash anchorHall targetHall f.wing bucket →
    fingerprintText f.anchorHall f.targetHall f.wing f.timeDeltaBucket =
      fingerprintText anchorHall targetHall f.wing bucket

instance Platform.decidableNoCollision (pf : Platform) (f : FingerprintRow)
    (anchorHall targetHall bucket : String) :
    Decidable (pf.NoCollision f anchorHall targetHall bucket) :=
  inferInstanceAs (Decidable (_ → _))

theorem not_mem_allHalls {hall : String} (h : hall ∈ allHalls) : '|' ∉ hall.toList := by
  have hall : allHalls.all (fun hall => decide ('|' ∉ hall.toList)) = true := by decide
  exact of_decide_eq_true (List.all_eq_true.1 hall _ h)

theorem not_mem_timeBuckets {bucket : String} (h : bucket ∈ timeBuckets) :
    '|' ∉ bucket.toList := by
  have hall : timeBuckets.all (fun bucket => decide ('|' ∉ bucket.toList)) = true := by decide
  exact of_decide_eq_true (List.all_eq_true.1 hall _ h)

/-- A bucket that the pipeline gives is one that is looked up. -/
theorem TimeBucket.asStr_mem {b : TimeBucket} (h : b ≠ unknown) : b.asStr ∈ timeBuckets := by
  cases b with
  | unknown => exact absurd rfl h
  | _ => decide

namespace Pipeline

variable {p : Pipeline}

theorem bucketOf_ne_unknown (newCreatedAt peerCreatedAt : Option String) :
    p.bucketOf newCreatedAt peerCreatedAt ≠ .unknown := by
  unfold bucketOf
  split
  · exact TimeBucket.fromDeltaSecs_ne_unknown _
  · exact TimeBucket.noConfusion

end Pipeline

/-! ## Where the rows come from -/

/-- The row is a fingerprint that `generate_fingerprints` made, as it was stored. -/
def FingerprintRow.Produced (p : Pipeline) (f : FingerprintRow) : Prop :=
  ∃ memory peer now, f = (p.fingerprintOf memory peer).row now

theorem FingerprintRow.Produced.hash {p : Pipeline} {f : FingerprintRow} (h : f.Produced p) :
    f.hash = p.pf.makeFingerprintHash f.anchorHall f.targetHall f.wing f.timeDeltaBucket := by
  obtain ⟨memory, peer, now, rfl⟩ := h
  rfl

theorem FingerprintRow.Produced.bucket {p : Pipeline} {f : FingerprintRow} (h : f.Produced p) :
    f.timeDeltaBucket ∈ timeBuckets := by
  obtain ⟨memory, peer, now, rfl⟩ := h
  exact TimeBucket.asStr_mem (Pipeline.bucketOf_ne_unknown _ _)

/-- The fingerprints of the store were all produced by the pipeline. -/
def Store.FingerprintsProduced (p : Pipeline) (s : Store) : Prop :=
  ∀ f ∈ s.fingerprints, f.Produced p

namespace Pipeline

variable {p : Pipeline} {s s' : Store} {now : String} {memory : Memory}

theorem produced_foldlM {t : Store} (h : t.FingerprintsProduced p)
    (hfold : (p.generateFingerprints s memory).foldlM (Store.insertFingerprint now) t = .ok s') :
    s'.FingerprintsProduced p := by
  intro f hf
  rcases mem_fingerprints_of_foldlM hfold hf with hold | ⟨fp, hfp, rfl, -⟩
  · exact h f hold
  · obtain ⟨peer, -, rfl⟩ := List.mem_map.1 hfp
    exact ⟨memory, peer, now, rfl⟩

/-- **A write** of what the pipeline prepared. -/
theorem produced_writes {out : WriteOutcome} {s₀ : Store} (h : s.FingerprintsProduced p)
    (hwrite : p.env.Writes now s memory (p.generateFingerprints s₀ memory) s' out) :
    s'.FingerprintsProduced p := by
  cases hwrite with
  | inserted hnone ht hfps =>
    refine produced_foldlM (fun f hf => h f ?_) hfps
    unfold Store.insertMemory at ht
    split at ht
    · cases ht
    · cases ht
      exact hf
  | noOp hk hsame => exact h
  | contentUpdated hk hdiff hfps =>
    exact produced_foldlM (fun f hf => h f (Table.mem_deleteWhere.1 hf).1) hfps

/-- **One ingest** adds fingerprints that are produced by the pipeline. -/
theorem produced_ingest {since id key content category visibility : String} {opts : IngestOpts}
    (h : s.FingerprintsProduced p) :
    (p.ingest now since s id key content category visibility opts).1.FingerprintsProduced p := by
  have hprepared : (p.prepare now since s id key content category visibility
      opts).1.FingerprintsProduced p := by
    intro f hf
    have hfps := (@prepare_spares p s now since id key content category visibility opts).2.1
    exact h f (hfps ▸ hf)
  have hfold : p.env.prepareIngest p.isWhitespace now since s id key content category visibility
      opts = p.prepare now since s id key content category visibility opts := rfl
  unfold ingest Env.ingestWith
  dsimp only
  rw [hfold]
  split
  · rename_i s' outcome hwrite
    exact produced_writes hprepared (Env.writes_of_writeMemoryInTx hwrite)
  · exact hprepared

end Pipeline

/-! ## Whom a search finds -/

namespace Store

variable {s : Store} {wing hall : String} {hashes : List String} {maxResults : ℕ} {r : MemoryRow}

/-- The row matches a hash or the hall. -/
def Probed (f : FingerprintRow) (wing hall : String) (hashes : List String) : Prop :=
  f.wing = wing ∧ (f.hash ∈ hashes ∨ f.anchorHall = hall ∨ f.targetHall = hall)

theorem mem_matchedPairs {pair : String × String} : pair ∈ s.matchedPairs wing hall hashes ↔
    ∃ f ∈ s.fingerprints.rows, Probed f wing hall hashes ∧
      pair = (f.anchorMemoryId, f.targetMemoryId) := by
  simp only [matchedPairs, List.mem_dedup, List.mem_map, List.mem_append, List.mem_filter,
    Bool.and_eq_true, Bool.or_eq_true, decide_eq_true_eq, Probed]
  constructor
  · rintro ⟨f, ⟨hf, hwing, hhash⟩ | ⟨hf, hwing, hhall⟩, rfl⟩
    · exact ⟨f, hf, ⟨hwing, Or.inl hhash⟩, rfl⟩
    · exact ⟨f, hf, ⟨hwing, Or.inr hhall⟩, rfl⟩
  · rintro ⟨f, hf, ⟨hwing, hhash | hhall⟩, rfl⟩
    · exact ⟨f, Or.inl ⟨hf, hwing, hhash⟩, rfl⟩
    · exact ⟨f, Or.inr ⟨hf, hwing, hhall⟩, rfl⟩

/-- There are no more pairs than fingerprints. -/
theorem length_matchedPairs_le :
    (s.matchedPairs wing hall hashes).length ≤ s.fingerprints.rows.length := by
  have hsub : s.matchedPairs wing hall hashes ⊆
      s.fingerprints.rows.map fun f => (f.anchorMemoryId, f.targetMemoryId) := by
    intro pair hpair
    obtain ⟨f, hf, -, rfl⟩ := mem_matchedPairs.1 hpair
    exact List.mem_map_of_mem hf
  have hle := (List.subperm_of_subset (List.nodup_dedup _) hsub).length_le
  rwa [List.length_map] at hle

theorem hiddenId_iff (hr : r ∈ s.memories) : s.HiddenId r.id ↔ s.Hidden r.key := by
  constructor
  · rintro ⟨r', hr', hhidden, hid⟩
    rwa [eq_of_id hr' hr hid] at hhidden
  · exact fun hhidden => ⟨r, hr, hhidden, rfl⟩

/-- With room for all of them the scores are of the memories of the pairs that are not hidden. -/
theorem mem_memoryScores (hmax : 2 * s.fingerprints.rows.length ≤ maxResults) {id : String} :
    (∃ n, (id, n) ∈ s.memoryScores wing hall hashes maxResults) ↔
      ¬ s.HiddenId id ∧ ∃ f ∈ s.fingerprints.rows, Probed f wing hall hashes ∧ f.Names id := by
  have hlength := @length_matchedPairs_le s wing hall hashes
  have hnamed : ∀ id, id ∈ (s.matchedPairs wing hall hashes).map Prod.fst ++
      (s.matchedPairs wing hall hashes).map Prod.snd ↔
        ∃ f ∈ s.fingerprints.rows, Probed f wing hall hashes ∧ f.Names id := by
    intro id
    simp only [List.mem_append, List.mem_map, mem_matchedPairs, FingerprintRow.Names]
    constructor
    · rintro (⟨_, ⟨f, hf, hprobed, rfl⟩, rfl⟩ | ⟨_, ⟨f, hf, hprobed, rfl⟩, rfl⟩)
      · exact ⟨f, hf, hprobed, Or.inl rfl⟩
      · exact ⟨f, hf, hprobed, Or.inr rfl⟩
    · rintro ⟨f, hf, hprobed, rfl | rfl⟩
      · exact Or.inl ⟨_, ⟨f, hf, hprobed, rfl⟩, rfl⟩
      · exact Or.inr ⟨_, ⟨f, hf, hprobed, rfl⟩, rfl⟩
  -- the cut has room for every memory of a pair
  unfold memoryScores
  dsimp only
  rw [List.take_of_length_le]
  · simp only [List.mem_insertionSort, List.mem_map, List.mem_dedup, List.mem_filter, hnamed,
      decide_eq_true_eq, Prod.mk.injEq]
    constructor
    · rintro ⟨_, _, ⟨hnames, hnot⟩, rfl, -⟩
      exact ⟨hnot, hnames⟩
    · rintro ⟨hnot, hnames⟩
      exact ⟨_, id, ⟨hnames, hnot⟩, rfl, rfl⟩
  · rw [List.length_insertionSort, List.length_map]
    refine (List.dedup_sublist _).length_le.trans ((List.length_filter_le _ _).trans ?_)
    rw [List.length_append, List.length_map, List.length_map]
    omega

/-- **Whom a search finds** that has room: the memories that are not hidden and are named by a row
that matches. -/
theorem exists_hit_iff (hhashes : hashes ≠ [])
    (hmax : 2 * s.fingerprints.rows.length ≤ maxResults) (hr : r ∈ s.memories)
    (hnot : ¬ s.Hidden r.key) :
    (∃ hit ∈ s.fingerprintSearch wing hall hashes maxResults, hit.id = r.id) ↔
      ∃ f ∈ s.fingerprints.rows, Probed f wing hall hashes ∧ f.Names r.id := by
  have hscored := @mem_memoryScores s wing hall hashes maxResults hmax r.id
  rw [hiddenId_iff hr, and_iff_right hnot] at hscored
  rw [← hscored, fingerprintSearch, if_neg hhashes]
  simp only [List.mem_insertionSort, List.mem_filterMap]
  constructor
  · rintro ⟨hit, ⟨⟨id, n⟩, hp, hrow⟩, hid⟩
    obtain ⟨r', hget, rfl⟩ := Option.map_eq_some_iff.1 hrow
    obtain rfl : r'.id = id := (getMemory_eq_some.1 hget).2
    exact ⟨n, hid ▸ hp⟩
  · rintro ⟨n, hp⟩
    exact ⟨memoryHitFromRow n r, ⟨_, hp, by rw [getMemory_eq_some.2 ⟨hr, rfl⟩]; rfl⟩, rfl⟩

end Store

/-! ## What is looked up -/

namespace Platform

variable {pf : Platform} {hall wing hash : String}

theorem mem_generateQueryHashes : hash ∈ pf.generateQueryHashes hall wing ↔
    ∃ other ∈ allHalls, ∃ bucket ∈ timeBuckets, hash = pf.makeFingerprintHash hall other wing bucket ∨
      hash = pf.makeFingerprintHash other hall wing bucket := by
  simp only [generateQueryHashes, List.mem_dedup, List.mem_insertionSort, List.mem_flatMap,
    List.mem_pair]

/-- Every hall with every hall, in every bucket. -/
theorem mem_queryHashes_allHalls :
    hash ∈ ((allHalls.flatMap fun a => pf.generateQueryHashes a wing).insertionSort (· ≤ ·)).dedup ↔
      ∃ a ∈ allHalls, ∃ t ∈ allHalls, ∃ bucket ∈ timeBuckets,
        hash = pf.makeFingerprintHash a t wing bucket := by
  simp only [List.mem_dedup, List.mem_insertionSort, List.mem_flatMap, mem_generateQueryHashes]
  constructor
  · rintro ⟨a, ha, t, ht, bucket, hbucket, rfl | rfl⟩
    · exact ⟨a, ha, t, ht, bucket, hbucket, rfl⟩
    · exact ⟨t, ht, a, ha, bucket, hbucket, rfl⟩
  · rintro ⟨a, ha, t, ht, bucket, hbucket, rfl⟩
    exact ⟨a, ha, t, ht, bucket, hbucket, Or.inl rfl⟩

theorem generateQueryHashes_ne_nil : pf.generateQueryHashes hall wing ≠ [] :=
  List.ne_nil_of_mem (mem_generateQueryHashes.2
    ⟨"fact", by decide, "older", by decide, Or.inl rfl⟩)

end Platform

/-- A fact on one side, or a hall that is looked up on both. -/
def FingerprintRow.KnownHalls (f : FingerprintRow) : Prop :=
  (f.anchorHall = "fact" ∨ f.targetHall = "fact") ∨ f.anchorHall ∈ allHalls ∧ f.targetHall ∈ allHalls

instance (f : FingerprintRow) : Decidable f.KnownHalls :=
  inferInstanceAs (Decidable ((_ ∨ _) ∨ _ ∧ _))

/-- The row is of the wing, and has the hall on one side if the query has one. -/
def FingerprintRow.InScope (f : FingerprintRow) (wing : String) (hall : Option String) : Prop :=
  f.wing = wing ∧ ∀ h ∈ hall, f.anchorHall = h ∨ f.targetHall = h

namespace Store

/-- The hits have every memory that is not consolidated and that a row of the scope names. -/
def ReachesScope (s : Store) (hits : List MemoryHit) (wing : String) (hall : Option String) : Prop :=
  ∀ r ∈ s.memories.rows, ¬ s.Hidden r.key →
    (∃ f ∈ s.fingerprints.rows, f.InScope wing hall ∧ f.Names r.id) → ∃ hit ∈ hits, hit.id = r.id

/-- Every memory that is not consolidated and has a fingerprint of the wing has one there with known
halls. -/
def KnownIn (s : Store) (wing : String) : Prop :=
  ∀ r ∈ s.memories.rows, ¬ s.Hidden r.key →
    (∃ f ∈ s.fingerprints.rows, f.wing = wing ∧ f.Names r.id) →
      ∃ f ∈ s.fingerprints.rows, f.wing = wing ∧ f.KnownHalls ∧ f.Names r.id

instance (s : Store) (wing : String) : Decidable (s.KnownIn wing) :=
  inferInstanceAs (Decidable (∀ r ∈ s.memories.rows, _ → _ → _))

variable {s : Store} {p : Pipeline} {wing hall : String} {f : FingerprintRow}

/-- A search without a hall matches the rows with known halls. -/
theorem probed_allHalls_iff (hf : f.Produced p)
    (hcollision : ∀ a ∈ allHalls, ∀ t ∈ allHalls, ∀ bucket ∈ timeBuckets,
      p.pf.NoCollision f a t bucket) :
    Probed f wing "fact" ((allHalls.flatMap fun a =>
        p.pf.generateQueryHashes a wing).insertionSort (· ≤ ·)).dedup ↔
      f.wing = wing ∧ f.KnownHalls := by
  rw [Probed, Platform.mem_queryHashes_allHalls, FingerprintRow.KnownHalls]
  refine and_congr_right fun hwing => ⟨?_, ?_⟩
  · rintro (⟨a, ha, t, ht, bucket, hbucket, hhash⟩ | hfact)
    · rw [hf.hash, ← hwing] at hhash
      have htext := hcollision a ha t ht bucket hbucket hhash
      obtain ⟨rfl, rfl⟩ := fingerprintText_inj (not_mem_allHalls ha) (not_mem_allHalls ht)
        (not_mem_timeBuckets hbucket) (not_mem_timeBuckets hf.bucket) htext.symm
      exact Or.inr ⟨ha, ht⟩
    · exact Or.inl hfact
  · rintro (hfact | ⟨hanchor, htarget⟩)
    · exact Or.inr hfact
    · exact Or.inl ⟨_, hanchor, _, htarget, _, hf.bucket, hwing ▸ hf.hash⟩

end Store

namespace CachedStore

variable {L : WingCache} {c : CachedStore L} {p : Pipeline} {wing : String} {config : TactConfig}

theorem tier1Hits_hall (pf : Platform) (hall : String) :
    c.tier1Hits pf (some wing) (some hall) config = c.tier1 pf wing (some hall) config := by
  unfold tier1Hits tier1Wing
  dsimp only [Option.elim_some]

theorem tier1Hits_wing {pf : Platform} (h : config.tier1RequiresHall = false) :
    c.tier1Hits pf (some wing) none config = c.tier1 pf wing none config := by
  unfold tier1Hits tier1Wing
  rw [h]
  dsimp only [Option.elim_some]

/-- With a hall, every memory of the scope is found. -/
theorem tier1_reaches_hall (hall : String)
    (hmax : 2 * c.store.fingerprints.rows.length ≤ config.maxResults) :
    c.store.ReachesScope (c.tier1 p.pf wing (some hall) config) wing (some hall) := by
  rintro r hr hnot ⟨f, hf, ⟨hwing, hhall⟩, hnames⟩
  refine (Store.exists_hit_iff ?_ hmax hr hnot).2 ⟨f, hf, ⟨hwing, Or.inr (hhall hall rfl)⟩, hnames⟩
  have hone : p.pf.makeFingerprintHash hall "fact" wing "older" ∈
      (([hall].flatMap fun a => p.pf.generateQueryHashes a wing).insertionSort (· ≤ ·)).dedup := by
    rw [List.mem_dedup, List.mem_insertionSort, List.flatMap_singleton]
    exact Platform.mem_generateQueryHashes.2 ⟨"fact", by decide, "older", by decide, Or.inl rfl⟩
  exact List.ne_nil_of_mem hone

/-- Without a hall, if and only if every memory has a fingerprint with known halls. -/
theorem tier1_reaches_wing_iff (hproduced : c.store.FingerprintsProduced p)
    (hcollision : ∀ f ∈ c.store.fingerprints.rows, ∀ a ∈ allHalls, ∀ t ∈ allHalls,
      ∀ bucket ∈ timeBuckets, p.pf.NoCollision f a t bucket)
    (hmax : 2 * c.store.fingerprints.rows.length ≤ config.maxResults) :
    c.store.ReachesScope (c.tier1 p.pf wing none config) wing none ↔ c.store.KnownIn wing := by
  have hone : p.pf.makeFingerprintHash "fact" "fact" wing "older" ∈
      ((allHalls.flatMap fun a => p.pf.generateQueryHashes a wing).insertionSort (· ≤ ·)).dedup :=
    Platform.mem_queryHashes_allHalls.2
      ⟨"fact", by decide, "fact", by decide, "older", by decide, rfl⟩
  have hscope : ∀ f : FingerprintRow, f.InScope wing none ↔ f.wing = wing := by
    intro f
    simp [FingerprintRow.InScope]
  unfold Store.ReachesScope Store.KnownIn
  refine forall₂_congr fun r hr => forall_congr' fun hnot => ?_
  have hfound : (∃ hit ∈ c.tier1 p.pf wing none config, hit.id = r.id) ↔
      ∃ f ∈ c.store.fingerprints.rows, f.wing = wing ∧ f.KnownHalls ∧ f.Names r.id := by
    refine (Store.exists_hit_iff (List.ne_nil_of_mem hone) hmax hr hnot).trans ?_
    refine exists_congr fun f => and_congr_right fun hf => ?_
    have hprobed := @Store.probed_allHalls_iff p wing f (hproduced f hf) (hcollision f hf)
    rw [← and_assoc, ← hprobed]
    exact Iff.rfl
  rw [hfound]
  simp only [hscope]

/-- **Tier 1 reaches its scope** when the query has a hall; when it has none, if and only if every
memory of the wing has a fingerprint with known halls. -/
theorem tier1_reaches_iff (c : CachedStore L) (p : Pipeline) (wing : String) (hall : Option String)
    (config : TactConfig) (hproduced : c.store.FingerprintsProduced p)
    (hcollision : hall = none → ∀ f ∈ c.store.fingerprints.rows, ∀ a ∈ allHalls, ∀ t ∈ allHalls,
      ∀ bucket ∈ timeBuckets, p.pf.NoCollision f a t bucket)
    (hruns : hall = none → config.tier1RequiresHall = false)
    (hmax : 2 * c.store.fingerprints.rows.length ≤ config.maxResults) :
    c.store.ReachesScope (c.tier1Hits p.pf (some wing) hall config) wing hall ↔
      (hall = none → c.store.KnownIn wing) := by
  cases hall with
  | some hall =>
    rw [tier1Hits_hall]
    exact iff_of_true (tier1_reaches_hall hall hmax)
      (fun hnone => absurd hnone (Option.some_ne_none _))
  | none =>
    rw [tier1Hits_wing (hruns rfl), tier1_reaches_wing_iff hproduced (hcollision rfl) hmax]
    exact ⟨fun h _ => h, fun h => h rfl⟩

end CachedStore

/-! ## A rule and an event -/

/-- What a search of one wing without a hall looks up. -/
def probedTexts : List String :=
  allHalls.flatMap fun a => allHalls.flatMap fun t => timeBuckets.map (fingerprintText a t "ops")

/-- The first eight bytes of the digests, four buckets to a line. -/
def probedDigests : List ℕ :=
  [0x9658fa17ef644c07, 0x7f1a591b65c62f3d, 0x433fcd89edc23fd3, 0x38f044e9a94973e7,
    0x2c5fbfd3ff738323, 0x94741a07adcbde97, 0x919fa93f1b5cfb71, 0x1f15aedc2b9f0f39,
    0x7ff923e3a039a7cb, 0x351f35a0b85f0541, 0xa4b01b0cb19fb236, 0x8dbce039fe32cad9,
    0xeeeb416036ddca24, 0x44d120dff32be49d, 0x34ee331d5ef03b6f, 0xcce6da0d4ced6f62,
    0x2bef06fc1a161494, 0xd7bca9824e46fe09, 0x70ed6e8558368868, 0x5b73fe8e2ade677d,
    0xecba2112df8a467c, 0x6c87e6464d7be578, 0xa98de81880b75d24, 0xf1ac3aa3ddff274d,
    0x660bd1c12c2a00a2, 0x660fc805f26e3e89, 0x68d825fd0dae7baa, 0x529e258bc80444ee,
    0x2ea45c0bc69be624, 0xf3d8479464228c0b, 0x35372d6900c817b5, 0x5ffc6d3953e788b4,
    0x69ec1f0b2d5fa9ab, 0xeb453cff8add7437, 0xd960999af09bda1d, 0x20da960bc3c79f67,
    0xa1e82af92e78a5db, 0x60ca2676550fa4c3, 0x87113ecaa05f296c, 0x8648e4df68f7ccca,
    0x13f71fe34e7b8023, 0x79285aa3b9ebfdf5, 0x5b30b1d366e8b4f5, 0xab0810fef3a03cf4,
    0x125bf01e4c870c5f, 0xc02ad770575eb388, 0x8a2cf388b659ee96, 0xb1aa777625944e50,
    0x3186e92b46ad2176, 0xfef8ed1a791eefec, 0x6fbd7a1194455bef, 0xc3dbd4bc99e3d5e4,
    0xd37b2e68864092db, 0xa333577b61e1bfd0, 0x091b097b789145fd, 0xd4e6382154025691,
    0x45ee7a99b6b7d332, 0x920c50c14eced752, 0xcccfd63979744ca6, 0xf1e19e3aff28bf73,
    0x501254f6ceab67b8, 0x09e76977dd252201, 0x9be6903bf1894acc, 0xe5e457d239b4063c,
    0x2b827527c8a0ece0, 0x38beb6b065165d83, 0x08591c09ec471267, 0x12a49e4100fd3460,
    0xc951dbcefd9ee3ec, 0x449c088075b0b5b7, 0xa779345bc147c4e3, 0x12f321a3846b0ff3,
    0xe128cf6a4f5cf835, 0xecad115272b0b06d, 0x03e04c8b1208964e, 0x6dc3febacb4abde2,
    0x3b5678ce21e3781b, 0x62d2ea7c46fe47e4, 0x5459cc58a79e37db, 0x1e77844687afb231,
    0xc6138a0a35b34b6e, 0x50fb6ff92d7f9369, 0x5caab1352231ecf0, 0xe7a3183bed51a525,
    0xfa3c0fa986e58015, 0xe3b672e715a1e56f, 0x1cd3c780b24d566e, 0x05ab52641c51fbf4,
    0xb19ca525c27b139e, 0x729dc3b06309737f, 0x78689c8bda81a21c, 0x1a92ea3a9bf5b22d,
    0x2f1ce9e8b7d7da64, 0x494a8d9147ff4a85, 0xc0c97f2b9a2d23a4, 0xeb3647ecb367c3d2,
    0x94896d53f47d32d5, 0x00e675860e55519c, 0x39e60067557a5a90, 0x2053f690f06d666e]

/-- The digests that occur, to the eight bytes that are used. -/
def probeDigests : List (String × ℕ) :=
  ("fp|m1|m2", 0xedca2bfcafa62767) :: ("rule|event|ops|same_day", 0x50d226b869f97516) ::
    probedTexts.zip probedDigests

/-- A pipeline on these digests. -/
def probing : Pipeline :=
  { linking with
    pf := { Platform.plain with
      sha256 := fun b => Env.bytesOf 32
        (((probeDigests.find? fun d => utf8 d.1 = b).map Prod.snd).getD 0 * 256 ^ 24) } }

/-- A fingerprint hash, from the first bytes of a digest. -/
def probeHash (n : ℕ) : String := toHex ((Env.bytesOf 32 (n * 256 ^ 24)).toList.take 8)

/-- The first bytes of the digest of a text. -/
def probeDigest (text : String) : ℕ :=
  ((probeDigests.find? fun d => d.1 = text).map Prod.snd).getD 0

theorem makeFingerprintHash_probing (anchorHall targetHall wing bucket : String) :
    probing.pf.makeFingerprintHash anchorHall targetHall wing bucket =
      probeHash (probeDigest (fingerprintText anchorHall targetHall wing bucket)) := by
  have hfind : (fun d : String × ℕ => decide (utf8 d.1 =
      utf8 (fingerprintText anchorHall targetHall wing bucket))) =
      fun d => decide (d.1 = fingerprintText anchorHall targetHall wing bucket) := by
    funext d
    exact decide_eq_decide.2 utf8_injective.eq_iff
  rw [probeDigest, ← hfind]
  rfl

/-- The hash tells the eight bytes. -/
theorem probeHash_inj {m n : ℕ} (hm : m < 256 ^ 8) (hn : n < 256 ^ 8)
    (h : probeHash m = probeHash n) : m = n := by
  have hlist : ∀ n, ((Env.bytesOf 32 (n * 256 ^ 24)).toList.take 8).map UInt8.toNat =
      (List.range 8).map fun i => n / 256 ^ (7 - i) % 256 := by
    intro n
    refine List.ext_getElem (by simp) fun i hi hi' => ?_
    have hlt : i < 8 := by simpa using hi'
    have hpow : 256 ^ (31 - i) = 256 ^ 24 * 256 ^ (7 - i) := by
      rw [← Nat.pow_add, show 24 + (7 - i) = 31 - i by omega]
    have hdiv : n * 256 ^ 24 / 256 ^ (31 - i) = n / 256 ^ (7 - i) := by
      rw [hpow, Nat.mul_comm n, Nat.mul_div_mul_left _ _ (Nat.pow_pos (by decide))]
    simpa [Env.bytesOf] using congrArg (· % 256) hdiv
  have hbytes := congrArg (List.map UInt8.toNat) (toHex_injective h)
  rw [hlist, hlist] at hbytes
  simp [List.range_succ] at hbytes
  omega

theorem lt_of_mem_probeDigests : ∀ d ∈ probeDigests, d.2 < 256 ^ 8 := by decide +kernel

/-- A digest that no other text has does not collide. -/
theorem noCollision_probing {f : FingerprintRow} {text : String} {n : ℕ}
    (htext : fingerprintText f.anchorHall f.targetHall f.wing f.timeDeltaBucket = text)
    (hn : probeDigest text = n) (hbounds : 0 < n ∧ n < 256 ^ 8)
    (halone : ∀ d ∈ probeDigests, d.1 = text ∨ d.2 ≠ n) (anchorHall targetHall bucket : String) :
    probing.pf.NoCollision f anchorHall targetHall bucket := by
  intro hhash
  rw [makeFingerprintHash_probing, makeFingerprintHash_probing, htext, hn] at hhash
  rw [htext]
  generalize fingerprintText anchorHall targetHall f.wing bucket = other at hhash ⊢
  unfold probeDigest at hhash
  cases hfind : probeDigests.find? fun d => d.1 = other with
  | none =>
    rw [hfind] at hhash
    exact absurd (probeHash_inj hbounds.2 (by decide) hhash) hbounds.1.ne'
  | some d =>
    rw [hfind] at hhash
    obtain rfl : d.1 = other := by simpa using List.find?_some hfind
    have hmem := List.mem_of_find?_eq_some hfind
    have hdigest := probeHash_inj hbounds.2 (lt_of_mem_probeDigests d hmem) hhash
    rcases halone d hmem with heq | hne
    · exact heq.symm
    · exact absurd hdigest.symm hne

/-- A note in a hall, and one that no rule matches. -/
def noteThenEvent (hall : String) : Store :=
  run probing.perform {}
    [.ingest "2026-01-03 09:00:00" "2026-01-03 08:30:00" "m1" "monday" "ship on monday" "" "private"
        { wing := some "ops", hall := some hall, createdAt := some "2026-01-03T09:00:00+00:00" },
      .ingest "2026-01-03 09:05:00" "2026-01-03 08:35:00" "m2" "tuesday" "ship on tuesday" "" "private"
        { wing := some "ops", createdAt := some "2026-01-03T09:05:00+00:00" }]

theorem produced_noteThenEvent (hall : String) :
    (noteThenEvent hall).FingerprintsProduced probing :=
  Pipeline.produced_ingest (Pipeline.produced_ingest fun f hf => absurd hf (Table.not_mem_empty f))

/-- Its one fingerprint, of a hall with an event, collides with nothing. -/
theorem noCollision_noteThenEvent {hall text : String} {n : ℕ}
    (hrows : (noteThenEvent hall).fingerprints.rows.map (fun f =>
      fingerprintText f.anchorHall f.targetHall f.wing f.timeDeltaBucket) = [text])
    (hn : probeDigest text = n) (hbounds : 0 < n ∧ n < 256 ^ 8)
    (halone : ∀ d ∈ probeDigests, d.1 = text ∨ d.2 ≠ n) :
    ∀ f ∈ (noteThenEvent hall).fingerprints.rows, ∀ a ∈ allHalls, ∀ t ∈ allHalls,
      ∀ bucket ∈ timeBuckets, probing.pf.NoCollision f a t bucket := by
  intro f hf a _ t _ bucket _
  have hmem := List.mem_map_of_mem (f := fun f : FingerprintRow =>
    fingerprintText f.anchorHall f.targetHall f.wing f.timeDeltaBucket) hf
  rw [hrows, List.mem_singleton] at hmem
  exact noCollision_probing hmem hn hbounds halone a t bucket

/-- Tier 1 on wings alone. -/
def ungated : TactConfig := { tier1RequiresHall := false }

/-- The notes, with nothing cached. -/
def noted (hall : String) : CachedStore wingCache :=
  { store := noteThenEvent hall, cache := wingCache.empty }

/-- A fact and an event are both found. -/
theorem tier1_reaches_factAndEvent :
    (noted "fact").store.ReachesScope ((noted "fact").tier1Hits probing.pf (some "ops") none ungated)
      "ops" none :=
  (CachedStore.tier1_reaches_iff (noted "fact") probing "ops" none ungated
    (produced_noteThenEvent "fact")
    (fun _ => @noCollision_noteThenEvent "fact" "fact|event|ops|same_day" 0x2bef06fc1a161494
      (by decide +kernel) (by decide +kernel) (by decide +kernel) (by decide +kernel))
    (fun _ => rfl) (by decide +kernel)).2 fun _ => by decide +kernel

/-- A rule and an event are not: no hash of theirs is looked up. -/
theorem not_tier1_reaches_ruleAndEvent :
    (noted "rule").store.FingerprintsProduced probing ∧
      2 * (noted "rule").store.fingerprints.rows.length ≤ ungated.maxResults ∧
      ¬ (noted "rule").store.ReachesScope
        ((noted "rule").tier1Hits probing.pf (some "ops") none ungated) "ops" none := by
  have hroom : 2 * (noted "rule").store.fingerprints.rows.length ≤ ungated.maxResults := by
    decide +kernel
  have hcollision := @noCollision_noteThenEvent "rule" "rule|event|ops|same_day" 0x50d226b869f97516
    (by decide +kernel) (by decide +kernel) (by decide +kernel) (by decide +kernel)
  have hunknown : ¬ (noted "rule").store.KnownIn "ops" := by decide +kernel
  refine ⟨produced_noteThenEvent "rule", hroom, fun hreaches => hunknown ?_⟩
  rw [CachedStore.tier1Hits_wing rfl] at hreaches
  exact (@CachedStore.tier1_reaches_wing_iff wingCache (noted "rule") probing "ops" ungated
    (produced_noteThenEvent "rule") hcollision hroom).1 hreaches

end Spectral
