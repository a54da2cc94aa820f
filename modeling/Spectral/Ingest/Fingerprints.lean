import Spectral.Ingest.Curate
import Spectral.Ingest.Forget

/-!
# Constellation fingerprints

A fingerprint links a new memory to an older one of its wing.  Its row repeats what it is made
from: the halls of both memories, their wing, and the bucket of the time between them; the hash is
over these.

* `Pipeline.generateFingerprints`, `Pipeline.ingest` — where the rows come from.
* `FingerprintRow.Describes` — a row has what its two memories have.
* `KeepsCurrent` — the calls that keep it so; `fingerprints_current_of_allSteps` — in a run of such
  calls every row describes its memories.
* `stale_fingerprint` — three calls that leave a row which does not: a memory that moves to another
  wing, one that is stored without a creation time, one that is edited under another hall.
-/

namespace Spectral

open Spectral.Lib

/-! ## Time buckets -/

/-- `TimeBucket`. -/
inductive TimeBucket where
  | sameDay
  | sameWeek
  | sameMonth
  | older
  | unknown
  deriving DecidableEq, Repr

namespace TimeBucket

/-- `from_delta_secs`. -/
def fromDeltaSecs (deltaSecs : ℤ) : TimeBucket :=
  if |deltaSecs| < 86400 then .sameDay
  else if |deltaSecs| < 604800 then .sameWeek
  else if |deltaSecs| < 2592000 then .sameMonth
  else .older

/-- `as_str`. -/
def asStr : TimeBucket → String
  | sameDay => "same_day"
  | sameWeek => "same_week"
  | sameMonth => "same_month"
  | older => "older"
  | unknown => "unknown"

@[simp] theorem timeBucketLabel_asStr (b : TimeBucket) : timeBucketLabel b.asStr = b.asStr := by
  cases b <;> decide

theorem not_mem_asStr (b : TimeBucket) : '|' ∉ b.asStr.toList := by
  cases b <;> decide

theorem fromDeltaSecs_ne_unknown (d : ℤ) : fromDeltaSecs d ≠ unknown := by
  unfold fromDeltaSecs
  split
  · nofun
  · split
    · nofun
    · split <;> nofun

theorem asStr_ne_unknown {b : TimeBucket} (h : b ≠ unknown) : b.asStr ≠ "unknown" := by
  cases b <;> first | exact absurd rfl h | decide

end TimeBucket

/-! ## The pipeline -/

/-- `IngestConfig`. -/
structure IngestConfig where
  signalThreshold : ℚ := 1 / 2
  /-- `None` is unbounded. -/
  maxFingerprintPeers : Option ℕ := some 64
  fingerprints : Bool := true
  deriving DecidableEq

/-- The code the pipeline calls, and its configuration. -/
structure Pipeline where
  env : Env
  pf : Platform
  /-- `char::is_whitespace`. -/
  isWhitespace : Char → Bool
  /-- `parse_timestamp_secs`, and `parse_ts` of the store. -/
  parseTimestampSecs : String → Option ℤ
  config : IngestConfig := {}

namespace Store

/-- `list_wing_memories`. -/
def listWingMemories (s : Store) (wing : String) (minSignal : ℚ) : List MemoryRow :=
  (s.memories.rows.filter fun r => decide (r.wing = some wing) && decide (minSignal ≤ r.signalScore))
    |>.insertionSort MemoryRow.StrongerFirst

/-- `list_wing_memories_capped`. -/
def listWingMemoriesCapped (s : Store) (pf : Platform) (wing : String) (minSignal : ℚ)
    (limit : ℕ) : List MemoryRow :=
  sqlLimit limit ((s.memories.rows.filter fun r =>
    decide (r.wing = some wing) && decide (minSignal ≤ r.signalScore)).insertionSort pf.NewerFirst)

end Store

namespace Pipeline

variable (p : Pipeline)

/-- `make_fp_id`. -/
def makeFpId (idA idB : String) : String :=
  let first := if idA ≤ idB then idA else idB
  let second := if idA ≤ idB then idB else idA
  toHex ((p.pf.sha256 (utf8 ("fp|" ++ first ++ "|" ++ second))).toList.take 8)

/-- The bucket of a fingerprint: `older` when one of the times is not available. -/
def bucketOf (newCreatedAt peerCreatedAt : Option String) : TimeBucket :=
  match newCreatedAt.bind p.parseTimestampSecs, peerCreatedAt.bind p.parseTimestampSecs with
  | some newTs, some peerTs => .fromDeltaSecs (newTs - peerTs)
  | _, _ => .older

/-- The memories a new one is linked to.  One more is asked for, as the new memory may be listed
itself. -/
def peers (s : Store) (memory : Memory) : List MemoryRow :=
  let wing := memory.wing.getD "general"
  match p.config.maxFingerprintPeers with
  | some cap =>
    ((s.listWingMemoriesCapped p.pf wing p.config.signalThreshold (min (cap + 1) (2 ^ 64 - 1))).filter
      fun peer => peer.id ≠ memory.id).take cap
  | none =>
    (s.listWingMemories wing p.config.signalThreshold).filter fun peer => peer.id ≠ memory.id

/-- The fingerprint of a new memory and an older one. -/
def fingerprintOf (memory : Memory) (peer : MemoryRow) : Fingerprint :=
  let wing := memory.wing.getD "general"
  let newHall := memory.hall.getD "none"
  let peerHall := peer.hall.getD "none"
  let bucket := p.bucketOf memory.createdAt (some peer.createdAt)
  { id := p.makeFpId peer.id memory.id
    hash := p.pf.makeFingerprintHash peerHall newHall wing bucket.asStr
    anchorMemoryId := peer.id
    targetMemoryId := memory.id
    wing
    anchorHall := peerHall
    targetHall := newHall
    timeDeltaBucket := bucket.asStr }

/-- The memories the pipeline links a prepared one to: none when it scores too low, or
fingerprints are off. -/
def linked (s : Store) (memory : Memory) : List MemoryRow :=
  if p.config.signalThreshold ≤ memory.signalScore ∧ p.config.fingerprints = true then
    p.peers s memory
  else []

/-- `generate_fingerprints`. -/
def generateFingerprints (s : Store) (memory : Memory) : List Fingerprint :=
  (p.linked s memory).map (p.fingerprintOf memory)

/-- `prepare_ingest`, before the fingerprints. -/
def prepare (now since : String) (s : Store) (id key content category visibility : String)
    (opts : IngestOpts) : Store × Memory :=
  p.env.prepareIngest p.isWhitespace now since s id key content category visibility opts

/-- `ingest_with`.  A write that fails leaves the episode. -/
def ingest (now since : String) (s : Store) (id key content category visibility : String)
    (opts : IngestOpts) : Store × Except String WriteOutcome :=
  let prepared := p.prepare now since s id key content category visibility opts
  p.env.ingestWith p.isWhitespace now since s id key content category visibility opts
    (p.generateFingerprints prepared.1 prepared.2)

/-- A fingerprint with the bucket of its memories, if it had none. -/
def backfillRow (s : Store) (f : FingerprintRow) : FingerprintRow :=
  match s.getMemory f.anchorMemoryId, s.getMemory f.targetMemoryId with
  | some anchor, some target =>
    if f.timeDeltaBucket = "unknown" then
      let bucket := p.bucketOf (some anchor.createdAt) (some target.createdAt)
      { f with
        timeDeltaBucket := bucket.asStr
        hash := p.pf.makeFingerprintHash f.anchorHall f.targetHall f.wing bucket.asStr }
    else f
  | _, _ => f

theorem id_backfillRow {s : Store} {f : FingerprintRow} : (p.backfillRow s f).id = f.id := by
  unfold backfillRow
  split
  · dsimp only
    split <;> rfl
  · rfl

/-- `backfill_fingerprint_time_buckets`. -/
def backfillFingerprintTimeBuckets (s : Store) : Store :=
  { s with
    fingerprints := s.fingerprints.update (p.backfillRow s)
      (by intro a b h; unfold SameKey at h ⊢; rwa [id_backfillRow, id_backfillRow] at h) }

end Pipeline

/-! ## What a row repeats -/

/-- The hall a fingerprint gives a row. -/
def MemoryRow.fingerprintHall (r : MemoryRow) : String := r.hall.getD "none"

/-- The wing a fingerprint gives a row. -/
def MemoryRow.fingerprintWing (r : MemoryRow) : String := r.wing.getD "general"

/-- The row has the halls, the wing and the bucket of its two memories, and the hash over these. -/
structure FingerprintRow.Describes (p : Pipeline) (f : FingerprintRow) (anchor target : MemoryRow) :
    Prop where
  anchorMemoryId : anchor.id = f.anchorMemoryId
  targetMemoryId : target.id = f.targetMemoryId
  distinct : anchor.id ≠ target.id
  anchorHall : f.anchorHall = anchor.fingerprintHall
  targetHall : f.targetHall = target.fingerprintHall
  anchorWing : f.wing = anchor.fingerprintWing
  targetWing : f.wing = target.fingerprintWing
  timeDeltaBucket :
    f.timeDeltaBucket = (p.bucketOf (some target.createdAt) (some anchor.createdAt)).asStr
  hash : f.hash = p.pf.makeFingerprintHash f.anchorHall f.targetHall f.wing f.timeDeltaBucket

/-- Every fingerprint describes two memories of the store. -/
def Store.FingerprintsCurrent (p : Pipeline) (s : Store) : Prop :=
  ∀ f ∈ s.fingerprints, ∃ anchor ∈ s.memories, ∃ target ∈ s.memories, f.Describes p anchor target

/-- The rows are one for a fingerprint. -/
structure MemoryRow.SameLink (r r' : MemoryRow) : Prop where
  id : r'.id = r.id
  hall : r'.fingerprintHall = r.fingerprintHall
  wing : r'.fingerprintWing = r.fingerprintWing
  createdAt : r'.createdAt = r.createdAt

theorem MemoryRow.SameLink.refl (r : MemoryRow) : r.SameLink r := ⟨rfl, rfl, rfl, rfl⟩

section

variable {p : Pipeline} {f : FingerprintRow} {anchor target anchor' target' : MemoryRow}
  {s s' : Store}

theorem FingerprintRow.Describes.congr (h : f.Describes p anchor target)
    (ha : anchor.SameLink anchor') (ht : target.SameLink target') :
    f.Describes p anchor' target' where
  anchorMemoryId := ha.id.trans h.anchorMemoryId
  targetMemoryId := ht.id.trans h.targetMemoryId
  distinct := by rw [ha.id, ht.id]; exact h.distinct
  anchorHall := h.anchorHall.trans ha.hall.symm
  targetHall := h.targetHall.trans ht.hall.symm
  anchorWing := h.anchorWing.trans ha.wing.symm
  targetWing := h.targetWing.trans ht.wing.symm
  timeDeltaBucket := by rw [ha.createdAt, ht.createdAt]; exact h.timeDeltaBucket
  hash := h.hash

/-- Does a fingerprint name the memory? -/
def FingerprintRow.Names (f : FingerprintRow) (id : String) : Prop :=
  f.anchorMemoryId = id ∨ f.targetMemoryId = id

instance (f : FingerprintRow) (id : String) : Decidable (f.Names id) :=
  inferInstanceAs (Decidable (f.anchorMemoryId = id ∨ f.targetMemoryId = id))

/-- **The frame rule.**  A store keeps describing what its fingerprints name, when they are old ones
and the rows they name are as they were, or they describe rows that are there. -/
theorem Store.FingerprintsCurrent.of_rows (h : s.FingerprintsCurrent p)
    (hfps : ∀ f ∈ s'.fingerprints, f ∈ s.fingerprints ∨
      ∃ anchor ∈ s'.memories, ∃ target ∈ s'.memories, f.Describes p anchor target)
    (hrows : ∀ f ∈ s'.fingerprints, f ∈ s.fingerprints → ∀ r ∈ s.memories, f.Names r.id →
      ∃ r' ∈ s'.memories, r.SameLink r') : s'.FingerprintsCurrent p := by
  intro f hf
  rcases hfps f hf with hold | hnew
  · obtain ⟨anchor, ha, target, ht, hdescribes⟩ := h f hold
    obtain ⟨anchor', ha', hsame⟩ := hrows f hf hold anchor ha (Or.inl hdescribes.anchorMemoryId.symm)
    obtain ⟨target', ht', hsame'⟩ := hrows f hf hold target ht (Or.inr hdescribes.targetMemoryId.symm)
    exact ⟨anchor', ha', target', ht', hdescribes.congr hsame hsame'⟩
  · exact hnew

/-- An update that changes nothing a fingerprint repeats. -/
theorem Store.FingerprintsCurrent.updateMemories (h : s.FingerprintsCurrent p)
    {q : MemoryRow → Bool} {g : MemoryRow → MemoryRow}
    {hg : ∀ r, (g r).id = r.id ∧ (g r).key = r.key}
    (hsame : ∀ r ∈ s.memories, q r = true → (∃ f ∈ s.fingerprints, f.Names r.id) →
      r.SameLink (g r)) : (s.updateMemories q g hg).FingerprintsCurrent p := by
  refine h.of_rows (fun f hf => Or.inl hf) fun f hf _ r hr hnames => ?_
  refine ⟨_, mem_memories_updateMemories.2 ⟨r, hr, rfl⟩, ?_⟩
  split
  · rename_i hq
    exact hsame r hr hq ⟨f, hf, hnames⟩
  · exact .refl r

end

/-! ## The calls -/

/-- The calls that write memories, move them to another wing or hall, or delete them, and the
backfill. -/
inductive FingerprintCall where
  | ingest (now since id key content category visibility : String) (opts : IngestOpts)
  | setWing (key wing : String)
  | setHall (id hall : String)
  | deleteMemoryByKey (now key : String)
  | deleteWingMemoriesBefore (wing before : String)
  | pruneWing (wing : String) (keep : ℕ)
  | backfillFingerprintTimeBuckets

namespace Pipeline

section

variable (p : Pipeline) (s : Store)

/-- What one call leaves. -/
def perform : FingerprintCall → Store
  | .ingest now since id key content category visibility opts =>
    (p.ingest now since s id key content category visibility opts).1
  | .setWing key wing => s.setWing key wing
  | .setHall id hall => (p.pf.setHall s id hall).1
  | .deleteMemoryByKey now key => (s.deleteMemoryByKey now key).1
  | .deleteWingMemoriesBefore wing before => (p.pf.deleteWingMemoriesBefore s wing before).1
  | .pruneWing wing keep => (p.pf.prune s wing keep).1
  | .backfillFingerprintTimeBuckets => p.backfillFingerprintTimeBuckets s

/-- The fingerprint of a memory and a peer is the one of a row and the peer: the memory has the hall
and the wing of the row, and the time between is in one bucket. -/
structure Restates (memory : Memory) (r peer : MemoryRow) : Prop where
  hall : r.fingerprintHall = memory.hall.getD "none"
  wing : r.fingerprintWing = memory.wing.getD "general"
  bucket : p.bucketOf memory.createdAt (some peer.createdAt) =
    p.bucketOf (some r.createdAt) (some peer.createdAt)

/-- **The condition.**  What a write links has, in the memory that comes in, what it has in the row
with its id; a memory that moves to another wing has no fingerprint. -/
def KeepsCurrent : FingerprintCall → Prop
  | .ingest now since id key content category visibility opts =>
    let prepared := p.prepare now since s id key content category visibility opts
    match s.memoryByKey key with
    | none => (∀ r ∈ s.memories.rows, r.id ≠ id) →
        ∀ peer ∈ p.linked prepared.1 prepared.2,
          p.Restates prepared.2 (p.env.newRow now prepared.2) peer
    | some existing => p.env.effectiveHash existing = p.env.contentHash prepared.2.content ∨
        ∀ r ∈ s.memories.rows, r.id = id → ∀ peer ∈ p.linked prepared.1 prepared.2,
          p.Restates prepared.2 r peer
  | .setWing key wing => ∀ r ∈ s.memories.rows, r.key = key →
      r.fingerprintWing = wing ∨ ∀ f ∈ s.fingerprints.rows, ¬ f.Names r.id
  | _ => True

instance (memory : Memory) (r peer : MemoryRow) : Decidable (p.Restates memory r peer) :=
  decidable_of_iff (r.fingerprintHall = memory.hall.getD "none" ∧
      r.fingerprintWing = memory.wing.getD "general" ∧
      p.bucketOf memory.createdAt (some peer.createdAt) =
        p.bucketOf (some r.createdAt) (some peer.createdAt))
    ⟨fun ⟨hall, wing, bucket⟩ => ⟨hall, wing, bucket⟩, fun h => ⟨h.hall, h.wing, h.bucket⟩⟩

instance (call : FingerprintCall) : Decidable (p.KeepsCurrent s call) := by
  cases call with
  | ingest now since id key content category visibility opts =>
    unfold KeepsCurrent
    dsimp only
    split <;> infer_instance
  | setWing key wing =>
    unfold KeepsCurrent
    infer_instance
  | _ => exact isTrue trivial

end

end Pipeline

/-! ## Writes -/

namespace Pipeline

variable {p : Pipeline} {s s' : Store} {now : String} {memory : Memory}

theorem mem_of_mem_peers {peer : MemoryRow} (h : peer ∈ p.peers s memory) :
    peer ∈ s.memories ∧ peer.wing = some (memory.wing.getD "general") ∧ peer.id ≠ memory.id := by
  have hlisted : ∀ rows : List MemoryRow, (∀ r ∈ rows, r ∈ s.memories.rows.filter fun r =>
      decide (r.wing = some (memory.wing.getD "general")) &&
        decide (p.config.signalThreshold ≤ r.signalScore)) →
      peer ∈ rows.filter (fun peer => peer.id ≠ memory.id) →
        peer ∈ s.memories ∧ peer.wing = some (memory.wing.getD "general") ∧ peer.id ≠ memory.id := by
    intro rows hrows hpeer
    obtain ⟨hin, hne⟩ := List.mem_filter.1 hpeer
    obtain ⟨hmem, hwing⟩ := List.mem_filter.1 (hrows peer hin)
    exact ⟨hmem, of_decide_eq_true (Bool.and_elim_left hwing), of_decide_eq_true hne⟩
  unfold peers at h
  dsimp only at h
  split at h
  · exact hlisted _ (fun r hr => (List.mem_insertionSort _).1 (mem_of_mem_sqlLimit hr))
      (List.mem_of_mem_take h)
  · exact hlisted _ (fun r hr => (List.mem_insertionSort _).1 hr) h

theorem mem_peers_of_mem_linked {peer : MemoryRow} (h : peer ∈ p.linked s memory) :
    peer ∈ p.peers s memory := by
  unfold linked at h
  split at h
  · exact h
  · exact absurd h List.not_mem_nil

theorem peer_of_mem_linked {peer : MemoryRow} (h : peer ∈ p.linked s memory) :
    peer ∈ s.memories ∧ peer.id ≠ memory.id := by
  obtain ⟨hmem, -, hne⟩ := mem_of_mem_peers (mem_peers_of_mem_linked h)
  exact ⟨hmem, hne⟩

/-- **A new fingerprint** describes the peer and a row it restates. -/
theorem describes_fingerprintOf {r peer : MemoryRow} (hpeer : peer ∈ p.linked s memory)
    (hid : r.id = memory.id) (h : p.Restates memory r peer) :
    ((p.fingerprintOf memory peer).row now).Describes p peer r := by
  obtain ⟨-, hwing, hne⟩ := mem_of_mem_peers (mem_peers_of_mem_linked hpeer)
  refine ⟨rfl, hid, ?_, rfl, h.hall.symm, ?_, h.wing.symm, ?_, rfl⟩
  · rw [hid]
    exact hne
  · rw [MemoryRow.fingerprintWing, hwing]
    rfl
  · rw [← h.bucket]
    rfl

/-- What the inserts of fingerprints add: some that end at a memory. -/
theorem mem_fingerprints_of_foldlM {fps : List Fingerprint}
    (h : fps.foldlM (Store.insertFingerprint now) s = .ok s') {f : FingerprintRow}
    (hf : f ∈ s'.fingerprints) : f ∈ s.fingerprints ∨
      ∃ fp ∈ fps, fp.row now = f ∧ s.HasMemory fp.targetMemoryId := by
  induction fps using List.reverseRecOn generalizing s' with
  | nil =>
    cases h
    exact Or.inl hf
  | append_singleton fps fp ih =>
    obtain ⟨t, ht, hinsert⟩ := foldlM_concat_eq_ok.1 h
    have hmem : t.memories = s.memories := (Store.sameTables_foldlM_insertFingerprint ht).memories
    have hone : f ∈ t.fingerprints ∨ fp.row now = f ∧ s.HasMemory fp.targetMemoryId := by
      unfold Store.insertFingerprint at hinsert
      split at hinsert
      · cases hinsert
        exact Or.inl hf
      · split at hinsert
        · rename_i hends
          cases hinsert
          refine (Table.mem_insertOrIgnore.1 hf).imp_right fun hnew => ⟨hnew.1.symm, ?_⟩
          rw [Store.HasMemory, ← hmem]
          exact hends.2
        · cases hinsert
    rcases hone with hold | hnew
    · refine (ih ht hold).imp_right ?_
      rintro ⟨fp', hfp', hrow⟩
      exact ⟨fp', List.mem_append_left _ hfp', hrow⟩
    · exact Or.inr ⟨fp, by simp, hnew⟩

/-- The inserts of a write, when it restates the row with its id. -/
theorem current_foldlM {t : Store} (h : t.FingerprintsCurrent p)
    (hlinked : ∀ peer ∈ p.linked s memory, peer.id ≠ memory.id → ∃ peer' ∈ t.memories,
      peer.SameLink peer' ∧ ∀ r ∈ t.memories, r.id = memory.id → p.Restates memory r peer)
    (hfold : (p.generateFingerprints s memory).foldlM (Store.insertFingerprint now) t = .ok s') :
    s'.FingerprintsCurrent p := by
  have hmem : s'.memories = t.memories := (Store.sameTables_foldlM_insertFingerprint hfold).memories
  intro f hf
  rw [hmem]
  rcases mem_fingerprints_of_foldlM hfold hf with hold | ⟨fp, hfp, rfl, r, hr, hid⟩
  · exact h f hold
  · obtain ⟨peer, hpeer, rfl⟩ := List.mem_map.1 hfp
    obtain ⟨peer', hstored, hsame, hrestates⟩ := hlinked peer hpeer (peer_of_mem_linked hpeer).2
    have hdescribes : ((p.fingerprintOf memory peer).row now).Describes p peer r :=
      describes_fingerprintOf hpeer hid (hrestates r hr hid)
    exact ⟨peer', hstored, r, hr, hdescribes.congr hsame (.refl r)⟩

/-- The insert of a row. -/
theorem current_insertMemory {t : Store} {row : MemoryRow} (h : s.FingerprintsCurrent p)
    (ht : s.insertMemory row = .ok t) :
    t.FingerprintsCurrent p ∧ (∀ r ∈ s.memories, r ∈ t.memories ∧ r.id ≠ row.id) ∧
      ∀ r ∈ t.memories, r.id = row.id → r = row := by
  unfold Store.insertMemory at ht
  split at ht
  · cases ht
  · rename_i hfree
    cases ht
    have hother : ∀ r ∈ s.memories, r.id ≠ row.id := fun r hr hid => hfree ⟨r, hr, Or.inl hid⟩
    have hkept : ∀ r ∈ s.memories, r ∈ s.memories.insertOrIgnore row :=
      fun r hr => Table.mem_insertOrIgnore_of_mem hr
    refine ⟨?_, fun r hr => ⟨hkept r hr, hother r hr⟩, fun r hr hid => ?_⟩
    · exact h.of_rows (fun f hf => Or.inl hf) fun f _ _ r hr _ => ⟨r, hkept r hr, .refl r⟩
    · rcases Table.mem_insertOrIgnore.1 hr with hr | ⟨rfl, -⟩
      · exact absurd hid (hother r hr)
      · rfl

/-- The update of the content of a row, with its fingerprints deleted and made anew. -/
theorem current_relink {row : MemoryRow} {t : Store} (g : MemoryRow → MemoryRow)
    (hg : ∀ r, (g r).id = r.id ∧ (g r).key = r.key) (hsame : ∀ r : MemoryRow, r.SameLink (g r))
    (h : s.FingerprintsCurrent p)
    (hlinked : ∀ r ∈ s.memories, r.id = memory.id → ∀ peer ∈ p.linked s memory,
      p.Restates memory r peer)
    (hfold : (p.generateFingerprints s memory).foldlM (Store.insertFingerprint now) t = .ok s')
    (htm : t.memories = (s.updateMemories (fun r => r.key = row.key) g hg).memories)
    (htf : ∀ f ∈ t.fingerprints, f ∈ s.fingerprints) : s'.FingerprintsCurrent p := by
  have hone : ∀ r : MemoryRow, r.SameLink (if decide (r.key = row.key) = true then g r else r) := by
    intro r
    split
    · exact hsame r
    · exact .refl r
  have hrow : ∀ r ∈ s.memories, ∃ r' ∈ t.memories, r.SameLink r' := by
    intro r hr
    rw [htm]
    exact ⟨_, Store.mem_memories_updateMemories.2 ⟨r, hr, rfl⟩, hone r⟩
  refine current_foldlM (h.of_rows (fun f hf => Or.inl (htf f hf)) fun _ _ _ r hr _ => hrow r hr) ?_
    hfold
  intro peer hpeer _
  obtain ⟨peer', hpeer', hpeerSame⟩ := hrow peer (peer_of_mem_linked hpeer).1
  refine ⟨peer', hpeer', hpeerSame, fun r' hr' hid => ?_⟩
  rw [htm] at hr'
  obtain ⟨r, hr, rfl⟩ := Store.mem_memories_updateMemories.1 hr'
  have hlink := hone r
  have hrestates := hlinked r hr (hlink.id.symm.trans hid) peer hpeer
  exact ⟨hlink.hall.trans hrestates.hall, hlink.wing.trans hrestates.wing,
    hrestates.bucket.trans (by rw [hlink.createdAt])⟩

/-- **One write**: what it links, the memory restates of the row with its id. -/
theorem current_writeMemoryInTx {outcome : WriteOutcome} (h : s.FingerprintsCurrent p)
    (hnew : s.memoryByKey memory.key = none → (∀ r ∈ s.memories, r.id ≠ memory.id) →
      ∀ peer ∈ p.linked s memory, p.Restates memory (p.env.newRow now memory) peer)
    (hupdate : ∀ r, s.memoryByKey memory.key = some r →
      p.env.effectiveHash r = p.env.contentHash memory.content ∨
        ∀ r ∈ s.memories, r.id = memory.id → ∀ peer ∈ p.linked s memory, p.Restates memory r peer)
    (hwrite : p.env.writeMemoryInTx now s memory (p.generateFingerprints s memory) =
      .ok (s', outcome)) : s'.FingerprintsCurrent p := by
  cases Env.writes_of_writeMemoryInTx hwrite with
  | inserted hnone ht hfps =>
    obtain ⟨hcurrent, hkept, honly⟩ := current_insertMemory h ht
    refine current_foldlM hcurrent (fun peer hpeer _ => ?_) hfps
    refine ⟨peer, (hkept peer (peer_of_mem_linked hpeer).1).1, .refl peer, fun r hr hid => ?_⟩
    rw [honly r hr hid]
    exact hnew hnone (fun r hr => (hkept r hr).2) peer hpeer
  | noOp hk hsame =>
    refine h.updateMemories fun r _ _ _ => ?_
    exact ⟨rfl, rfl, rfl, rfl⟩
  | @contentUpdated row _ hk hdiff hfps =>
    obtain ⟨hrow, hkey⟩ := Store.memoryByKey_eq_some.1 hk
    unfold Env.rewritten at hfps
    rw [← hkey] at hfps
    exact current_relink (fun r => { r with
      content := memory.content
      contentHash := some (p.env.contentHash memory.content)
      updatedAt := now }) (fun _ => ⟨rfl, rfl⟩) (fun _ => ⟨rfl, rfl, rfl, rfl⟩) h
      ((hupdate row hk).resolve_left hdiff) hfps rfl fun f hf => (Table.mem_deleteWhere.1 hf).1

theorem fingerprints_resolveEpisode (now since id content wing : String) (signalScore : ℚ)
    (episodeId : Option String) :
    (s.resolveEpisode now since id content wing signalScore episodeId).1.fingerprints =
      s.fingerprints := by
  unfold Store.resolveEpisode
  dsimp only
  split <;> split <;> first | rfl | (split <;> rfl)

/-- The pipeline prepares a memory under the id and the key, and touches neither memories nor
fingerprints. -/
theorem prepare_spares {since id key content category visibility : String} {opts : IngestOpts} :
    (p.prepare now since s id key content category visibility opts).1.memories = s.memories ∧
      (p.prepare now since s id key content category visibility opts).1.fingerprints =
        s.fingerprints ∧
      (p.prepare now since s id key content category visibility opts).2.id = id ∧
      (p.prepare now since s id key content category visibility opts).2.key = key := by
  unfold prepare Env.prepareIngest
  dsimp only
  exact ⟨Store.memories_resolveEpisode .., fingerprints_resolveEpisode .., rfl, rfl⟩

theorem current_ingest {since id key content category visibility : String} {opts : IngestOpts}
    (h : s.FingerprintsCurrent p)
    (hok : p.KeepsCurrent s (.ingest now since id key content category visibility opts)) :
    (p.perform s (.ingest now since id key content category visibility opts)).FingerprintsCurrent
      p := by
  obtain ⟨hmem, hfps, hid, hkey⟩ :=
    @prepare_spares p s now since id key content category visibility opts
  have hfold : p.env.prepareIngest p.isWhitespace now since s id key content category visibility
      opts = p.prepare now since s id key content category visibility opts := rfl
  unfold KeepsCurrent at hok
  unfold perform ingest Env.ingestWith
  dsimp only at hok ⊢
  rw [hfold]
  generalize p.prepare now since s id key content category visibility opts = prepared at *
  have hcurrent : prepared.1.FingerprintsCurrent p :=
    h.of_rows (fun f hf => Or.inl (hfps ▸ hf)) fun f _ _ r hr _ => ⟨r, hmem ▸ hr, .refl r⟩
  have hsame : prepared.1.memoryByKey prepared.2.key = s.memoryByKey key := by
    rw [Store.memoryByKey, Store.memoryByKey, hmem, hkey]
  split
  · rename_i s' outcome hwrite
    refine current_writeMemoryInTx hcurrent (fun hnone => ?_) (fun r hr => ?_) hwrite
    · rw [hsame] at hnone
      rw [hnone] at hok
      rwa [hmem, hid]
    · rw [hsame] at hr
      rw [hr] at hok
      rwa [hmem, hid]
  · exact hcurrent

/-! ## Wings and halls -/

theorem current_setWing {key wing : String} (h : s.FingerprintsCurrent p)
    (hok : p.KeepsCurrent s (.setWing key wing)) : (s.setWing key wing).FingerprintsCurrent p := by
  refine h.updateMemories fun r hr hkey hnamed => ?_
  rcases hok r hr (of_decide_eq_true hkey) with hwing | hnone
  · exact ⟨rfl, rfl, hwing.symm, rfl⟩
  · obtain ⟨f, hf, hnames⟩ := hnamed
    exact absurd hnames (hnone f hf)

end Pipeline

/-- What follows the last separator. -/
theorem rsplitOnce_append {c : Char} {text after : String} (h : c ∉ after.toList) :
    rsplitOnce c (text ++ String.singleton c ++ after) = some (text, after) := by
  have hspan : (text ++ String.singleton c ++ after).toList.reverse.span (fun x => decide (x ≠ c)) =
      (after.toList.reverse, c :: text.toList.reverse) := by
    have hpos : ∀ x ∈ after.toList.reverse, decide (x ≠ c) = true := by
      intro x hx
      rw [List.mem_reverse] at hx
      exact decide_eq_true fun heq => h (heq ▸ hx)
    rw [List.span_eq_takeWhile_dropWhile]
    simp only [String.toList_append, String.toList_singleton, List.reverse_append, List.reverse_cons,
      List.append_assoc, List.singleton_append]
    rw [List.takeWhile_append_of_pos hpos, List.dropWhile_append_of_pos hpos]
    simp
  unfold rsplitOnce
  rw [hspan]
  simp

namespace Pipeline

variable {p : Pipeline} {s : Store}

/-- A fingerprint of a memory that moves to another hall: the wing and the bucket are read back. -/
theorem rehall_eq {id hall : String} {f : FingerprintRow} {anchor target : MemoryRow}
    (h : f.Describes p anchor target) : p.pf.rehall id hall f =
      if anchor.id = id then
        { f with
          anchorHall := hall
          hash := p.pf.makeFingerprintHash hall f.targetHall f.wing f.timeDeltaBucket }
      else
        { f with
          targetHall := hall
          hash := p.pf.makeFingerprintHash f.anchorHall hall f.wing f.timeDeltaBucket } := by
  have hsplit : rsplitOnce '|' (f.wing ++ "|" ++ f.timeDeltaBucket) =
      some (f.wing, f.timeDeltaBucket) := by
    refine rsplitOnce_append ?_
    rw [h.timeDeltaBucket]
    exact TimeBucket.not_mem_asStr _
  have hlabel : timeBucketLabel f.timeDeltaBucket = f.timeDeltaBucket := by
    rw [h.timeDeltaBucket, TimeBucket.timeBucketLabel_asStr]
  unfold Platform.rehall
  dsimp only
  rw [hsplit, h.anchorMemoryId]
  dsimp only [Option.getD_some]
  rw [hlabel]
  split <;> rfl

/-- The fingerprint and its memories, when one of them has moved. -/
theorem describes_rehall {id hall : String} {f : FingerprintRow} {anchor target : MemoryRow}
    (h : f.Describes p anchor target) :
    (if f.anchorMemoryId = id ∨ f.targetMemoryId = id then p.pf.rehall id hall f else f).Describes p
      (if anchor.id = id then { anchor with hall := some hall } else anchor)
      (if target.id = id then { target with hall := some hall } else target) := by
  have hnames : (f.anchorMemoryId = id ∨ f.targetMemoryId = id) ↔ anchor.id = id ∨ target.id = id := by
    rw [h.anchorMemoryId, h.targetMemoryId]
  rw [rehall_eq h]
  by_cases ha : anchor.id = id
  · have ht : target.id ≠ id := fun heq => h.distinct (ha.trans heq.symm)
    rw [if_pos (hnames.2 (Or.inl ha)), if_pos ha, if_pos ha, if_neg ht]
    exact ⟨h.anchorMemoryId, h.targetMemoryId, h.distinct, rfl, h.targetHall, h.anchorWing,
      h.targetWing, h.timeDeltaBucket, rfl⟩
  · rw [if_neg ha, if_neg ha]
    by_cases ht : target.id = id
    · rw [if_pos (hnames.2 (Or.inr ht)), if_pos ht]
      exact ⟨h.anchorMemoryId, h.targetMemoryId, h.distinct, h.anchorHall, rfl, h.anchorWing,
        h.targetWing, h.timeDeltaBucket, rfl⟩
    · rw [if_neg fun hor => (hnames.1 hor).elim ha ht, if_neg ht]
      exact h

/-- **A memory that moves to another hall** takes its fingerprints along. -/
theorem current_setHall {id hall : String} (h : s.FingerprintsCurrent p) :
    (p.pf.setHall s id hall).1.FingerprintsCurrent p := by
  have hmoved : ∀ r ∈ s.memories, (if r.id = id then { r with hall := some hall } else r) ∈
      (s.updateMemories (fun r => r.id = id) (fun r => { r with hall := some hall })
        fun _ => ⟨rfl, rfl⟩).memories := by
    intro r hr
    refine Store.mem_memories_updateMemories.2 ⟨r, hr, ?_⟩
    simp only [decide_eq_true_iff]
  unfold Platform.setHall
  split
  · intro f hf
    dsimp only at hf
    obtain ⟨f₀, hf₀, rfl⟩ := Table.mem_update.1 hf
    obtain ⟨anchor, ha, target, ht, hdescribes⟩ := h f₀ hf₀
    exact ⟨_, hmoved anchor ha, _, hmoved target ht, describes_rehall hdescribes⟩
  · exact h

/-! ## Deletes and the backfill -/

/-- A delete takes the fingerprints of the rows it deletes. -/
theorem current_of_deleted {s' : Store} (h : s.FingerprintsCurrent p)
    (hfps : ∀ f ∈ s'.fingerprints, f ∈ s.fingerprints)
    (hrows : ∀ f ∈ s'.fingerprints, ∀ r ∈ s.memories, f.Names r.id → r ∈ s'.memories) :
    s'.FingerprintsCurrent p :=
  h.of_rows (fun f hf => Or.inl (hfps f hf)) fun f hf _ r hr hnames =>
    ⟨r, hrows f hf r hr hnames, .refl r⟩

theorem current_deleteMemories (h : s.FingerprintsCurrent p) (q : MemoryRow → Bool) :
    (s.deleteMemories q).FingerprintsCurrent p := by
  refine current_of_deleted h (fun f hf => (Table.mem_deleteWhere.1 hf).1) ?_
  intro f hf r hr hnames
  have hkept := (Table.mem_deleteWhere.1 hf).2
  refine Table.mem_deleteWhere.2 ⟨hr, ?_⟩
  by_contra hq
  rw [Bool.not_eq_false] at hq
  have hgone : (s.memories.rows.any fun r' => q r' && r'.id == r.id) = true :=
    List.any_eq_true.2 ⟨r, hr, by simp [hq]⟩
  rcases hnames with hname | hname <;> simp [hname, hgone] at hkept

theorem current_deleteMemoryByKey {now key : String} (h : s.FingerprintsCurrent p) :
    (s.deleteMemoryByKey now key).1.FingerprintsCurrent p := by
  cases hk : s.memoryByKey key with
  | none =>
    rw [Store.deleteMemoryByKey_of_none hk]
    exact h
  | some row =>
    obtain ⟨hrow, rfl⟩ := Store.memoryByKey_eq_some.1 hk
    have hscrubbed : (s.scrubbed now row).FingerprintsCurrent p := by
      unfold Store.scrubbed
      refine current_deleteMemories ?_ _
      exact current_of_deleted h (fun f hf => (Table.mem_deleteWhere.1 hf).1) fun _ _ r hr _ => hr
    rw [Store.deleteMemoryByKey_eq hrow]
    cases row.episodeId with
    | none => exact hscrubbed
    | some ep =>
      dsimp only
      rw [Store.settleEpisode_eq]
      exact hscrubbed

theorem current_prune {wing : String} {keep : ℕ} (h : s.FingerprintsCurrent p) :
    (p.pf.prune s wing keep).1.FingerprintsCurrent p := by
  unfold Platform.prune
  generalize Platform.sourcesOf s wing = sources
  induction sources using List.reverseRecOn with
  | nil => exact h
  | append_singleton sources source ih =>
    rw [List.foldl_append, List.foldl_cons, List.foldl_nil]
    exact current_deleteMemories ih _

/-- No fingerprint that describes its memories has an unknown bucket. -/
theorem backfillRow_of_describes {f : FingerprintRow} {anchor target : MemoryRow}
    (h : f.Describes p anchor target) : p.backfillRow s f = f := by
  have hbucket : ∀ a b, p.bucketOf a b ≠ .unknown := by
    intro a b
    unfold bucketOf
    split
    · exact TimeBucket.fromDeltaSecs_ne_unknown _
    · nofun
  have hknown : f.timeDeltaBucket ≠ "unknown" := by
    rw [h.timeDeltaBucket]
    exact TimeBucket.asStr_ne_unknown (hbucket _ _)
  unfold backfillRow
  split
  · rw [if_neg hknown]
  · rfl

theorem current_backfill (h : s.FingerprintsCurrent p) :
    (p.backfillFingerprintTimeBuckets s).FingerprintsCurrent p := by
  intro f hf
  dsimp only [backfillFingerprintTimeBuckets] at hf
  obtain ⟨f₀, hf₀, rfl⟩ := Table.mem_update.1 hf
  obtain ⟨anchor, ha, target, ht, hdescribes⟩ := h f₀ hf₀
  rw [backfillRow_of_describes hdescribes]
  exact ⟨anchor, ha, target, ht, hdescribes⟩

/-! ## Runs -/

/-- **One call**, under the condition. -/
theorem current_perform (h : s.FingerprintsCurrent p) {call : FingerprintCall}
    (hok : p.KeepsCurrent s call) : (p.perform s call).FingerprintsCurrent p := by
  cases call with
  | ingest now since id key content category visibility opts => exact current_ingest h hok
  | setWing key wing => exact current_setWing h hok
  | setHall id hall => exact current_setHall h
  | deleteMemoryByKey now key => exact current_deleteMemoryByKey h
  | deleteWingMemoriesBefore wing before => exact current_deleteMemories h _
  | pruneWing wing keep => exact current_prune h
  | backfillFingerprintTimeBuckets => exact current_backfill h

/-- **A run of calls** that meet the condition reaches only states whose fingerprints are current. -/
theorem fingerprints_current_of_allSteps (p : Pipeline) {calls : List FingerprintCall}
    (hok : AllSteps p.perform p.KeepsCurrent {} calls) :
    ∀ past, past <+: calls → (run p.perform {} past).FingerprintsCurrent p := by
  rintro past ⟨later, rfl⟩
  rw [allSteps_append] at hok
  exact run_invariant_of_allSteps (I := fun s : Store => s.FingerprintsCurrent p)
    (fun s call h hcall => current_perform h hcall) (fun f hf => absurd hf (Table.not_mem_empty f))
    hok.1

/-! ## Two notes -/

end Pipeline

/-- The digests that occur. -/
def linkDigests : List (String × ℕ) :=
  [("fp|m1|m2", 0xedca2bfcafa62767d7ce295e4c18852af6cd3b6a2db7e889185c4c5ac23b914e),
    ("fact|fact|ops|same_day", 0x9658fa17ef644c0703e02af717efc608d095283915b7c0f139135b2d2c25b96e),
    ("fact|fact|infra|same_day", 0x5df5654ed4b6a20e676e408dd1d53e870d23853fa51bc01e43fd86ee4cb5acfb),
    ("fact|fact|ops|older", 0x38f044e9a94973e7f73130aa1429041b1eac213dfa369fe0a145d7a3b7ebf7aa),
    ("fact|event|ops|same_day", 0x2bef06fc1a16149419f34394c4d4ab78b4e13c8598e44bb0fb8caec1bd3d700c)]

/-- A pipeline on two contents and two times, five minutes apart. -/
def linking : Pipeline where
  env := .ofRecords
    [(utf8 "ship on monday", 0x057df659c1e192df60dbeac39dec966fdceaa8f5e06f90581adb07ff8ec84bd1),
      (utf8 "ship on tuesday", 0x245bf963a2162f97ab3678c59ade5b66995ad03d8cef2e467d54fb906054cf00)] []
  pf := { Platform.plain with
    sha256 := fun b => Env.bytesOf 32 (((linkDigests.find? fun d => utf8 d.1 = b).map Prod.snd).getD 0) }
  isWhitespace c := c.isWhitespace
  parseTimestampSecs t :=
    if t = "2026-01-03 09:00:00" ∨ t = "2026-01-03T09:00:00+00:00" then some 1767430800
    else if t = "2026-01-03 09:05:00" ∨ t = "2026-01-03T09:05:00+00:00" then some 1767431100
    else none

namespace Pipeline

/-- A fact for the wing, with the creation time if there is one. -/
def factIn (wing : String) (createdAt : Option String) : IngestOpts :=
  { wing := some wing, hall := some "fact", createdAt }

/-- Two notes are written, with their creation times or without. -/
def twoNotes (dated : Bool) : List FingerprintCall :=
  [.ingest "2026-01-03 09:00:00" "2026-01-03 08:30:00" "m1" "monday" "ship on monday" "" "private"
      (factIn "ops" (if dated then some "2026-01-03T09:00:00+00:00" else none)),
    .ingest "2026-01-03 09:05:00" "2026-01-03 08:35:00" "m2" "tuesday" "ship on tuesday" "" "private"
      (factIn "ops" (if dated then some "2026-01-03T09:05:00+00:00" else none))]

/-- The second of two dated notes moves to another hall. -/
def toldAsEvent : List FingerprintCall := twoNotes true ++ [.setHall "m2" "event"]

theorem fingerprints_current_toldAsEvent :
    (run linking.perform {} toldAsEvent).fingerprints.rows.map FingerprintRow.targetHall = ["event"] ∧
      ∀ past, past <+: toldAsEvent → (run linking.perform {} past).FingerprintsCurrent linking :=
  ⟨by decide +kernel, fingerprints_current_of_allSteps linking (by decide +kernel)⟩

/-- The second of two dated notes moves to another wing; two notes have no creation time; the second
of two dated notes is edited as an event. -/
def staleCalls : List (List FingerprintCall) :=
  [twoNotes true ++ [.setWing "tuesday" "infra"], twoNotes false,
    twoNotes true ++
      [.ingest "2026-01-03 09:05:00" "2026-01-03 08:35:00" "m2" "tuesday" "ship on monday" ""
        "private" { wing := some "ops", hall := some "event",
                    createdAt := some "2026-01-03T09:05:00+00:00" }]]

/-- **A stale fingerprint**: its hash is not the one over what its memories are now. -/
theorem stale_fingerprint :
    staleCalls.Forall fun calls => ∃ f ∈ (run linking.perform {} calls).fingerprints.rows,
      ∃ anchor ∈ (run linking.perform {} calls).memories.rows,
        ∃ target ∈ (run linking.perform {} calls).memories.rows,
          anchor.id = f.anchorMemoryId ∧ target.id = f.targetMemoryId ∧
            f.hash ≠ linking.pf.makeFingerprintHash anchor.fingerprintHall target.fingerprintHall
              target.fingerprintWing (linking.bucketOf (some target.createdAt)
                (some anchor.createdAt)).asStr := by
  decide +kernel

end Pipeline

end Spectral
