import Spectral.Wing.Search
import Mathlib.Data.List.Dedup

/-!
# Curation

The operations of `SqliteStore` that change memories already stored: the setters of single
columns, reinforcement, the batched write, and the two sweeps that delete old memories.

Each setter is `Store.updateMemories` on its own column and condition.  SQLite's `datetime`,
SHA-256 and Unicode case mapping are third-party code: the parameters collected in `Platform`.
-/

namespace Spectral

open Spectral.Lib

/-- The functions of SQLite, SHA-256 and Unicode the store calls. -/
structure Platform where
  /-- SQLite's `datetime(text)`; `none` is `NULL`. -/
  datetime : String → Option String
  /-- `Sha256::digest`. -/
  sha256 : List UInt8 → Bytes32
  /-- `str::to_lowercase`. -/
  toLowercase : String → String

/-- The platform on ASCII text and on time stamps in SQLite's own format. -/
def Platform.plain : Platform where
  datetime t := some t
  sha256 _ := Vector.replicate 32 0
  toLowercase := String.toLower

/-! ## Reinforcement -/

/-- `MIN(1.0, signal_score + ?)`. -/
def reinforced (strength score : ℚ) : ℚ := min 1 (score + strength)

/-- One reinforcement of a row. -/
def MemoryRow.reinforce (strength : ℚ) (now : String) (r : MemoryRow) : MemoryRow :=
  { r with
    signalScore := reinforced strength r.signalScore
    lastReinforcedAt := some now
    updatedAt := now }

namespace Store

variable (s : Store)

/-- `reinforce_memory`: returns the wing of the memory. -/
def reinforceMemory (now key : String) (strength : ℚ) : Store × Option String :=
  (s.updateMemories (fun r => r.key = key) (MemoryRow.reinforce strength now) fun _ => ⟨rfl, rfl⟩,
    (s.memoryByKey key).bind MemoryRow.wing)

/-- The wings of the memories under some keys. -/
def wingsOf (keys : List String) : List String :=
  ((s.memories.rows.filter fun r => decide (r.key ∈ keys)).filterMap MemoryRow.wing).dedup

/-- One chunk of `reinforce_batch`: the store, the wings met so far, the rows updated. -/
def reinforceChunk (now : String) (strength : ℚ) (acc : Store × List String × ℕ)
    (chunk : List String) : Store × List String × ℕ :=
  (acc.1.updateMemories (fun r => decide (r.key ∈ chunk)) (MemoryRow.reinforce strength now)
      fun _ => ⟨rfl, rfl⟩,
    acc.2.1 ++ acc.1.wingsOf chunk,
    acc.2.2 + acc.1.memories.countWhere fun r => decide (r.key ∈ chunk))

/-- `reinforce_batch`, in chunks of 900 keys. -/
def reinforceBatch (now : String) (keys : List String) (strength : ℚ) :
    Store × List String × ℕ :=
  (keys.toChunks 900).foldl (reinforceChunk now strength) (s, [], 0)

/-! ## Setters -/

/-- `set_wing`. -/
def setWing (key wing : String) : Store :=
  s.updateMemories (fun r => r.key = key) (fun r => { r with wing := some wing })
    fun _ => ⟨rfl, rfl⟩

/-- `set_declarative_density`. -/
def setDeclarativeDensity (memoryId : String) (density : ℚ) : Store :=
  s.updateMemories (fun r => r.id = memoryId) (fun r => { r with declarativeDensity := some density })
    fun _ => ⟨rfl, rfl⟩

variable {s} in
theorem mem_memories_setDeclarativeDensity {memoryId : String} {density : ℚ} {r' : MemoryRow} :
    r' ∈ (s.setDeclarativeDensity memoryId density).memories ↔
      ∃ r ∈ s.memories, (if r.id = memoryId then { r with declarativeDensity := some density }
        else r) = r' := by
  unfold setDeclarativeDensity
  rw [mem_memories_updateMemories]
  simp

/-- `set_compaction_tier`. -/
def setCompactionTier (memoryId : String) (tier : CompactionTier) : Store :=
  s.updateMemories (fun r => r.id = memoryId) (fun r => { r with compactionTier := some tier })
    fun _ => ⟨rfl, rfl⟩

/-- `set_description`, at a clock reading. -/
def setDescription (id description generatedAt : String) : Except String Store :=
  if s.HasMemory id then
    .ok (s.updateMemories (fun r => r.id = id)
      (fun r => { r with
        description := some description
        descriptionGeneratedAt := some generatedAt }) fun _ => ⟨rfl, rfl⟩)
  else .error s!"memory not found: {id}"

/-- `invalidate_at`. -/
def invalidateAt (now key validTo : String) : Store :=
  s.updateMemories (fun r => r.key = key) (fun r => { r with validTo, updatedAt := now })
    fun _ => ⟨rfl, rfl⟩

/-- `set_valid_from`. -/
def setValidFrom (now key validFrom : String) : Store :=
  s.updateMemories (fun r => r.key = key)
    (fun r => { r with validFrom := some validFrom, updatedAt := now }) fun _ => ⟨rfl, rfl⟩

/-- `backfill_content_hashes`. -/
def backfillContentHashes (env : Env) : Store :=
  s.updateMemories (fun r => r.contentHash = none)
    (fun r => { r with contentHash := some (env.contentHash r.content) }) fun _ => ⟨rfl, rfl⟩

end Store

/-! ## Halls -/

/-- `str::rsplit_once`. -/
def rsplitOnce (c : Char) (text : String) : Option (String × String) :=
  match text.toList.reverse.span (· ≠ c) with
  | (_, []) => none
  | (after, _ :: before) => some (String.ofList before.reverse, String.ofList after.reverse)

/-- `TimeBucket::parse`, of which only the label is used: an unknown label is `unknown`. -/
def timeBucketLabel (text : String) : String :=
  if text ∈ ["same_day", "same_week", "same_month", "older", "unknown"] then text else "unknown"

namespace Platform

variable (pf : Platform)

/-- `make_fingerprint_hash`: the first eight bytes of the digest. -/
def makeFingerprintHash (anchorHall targetHall wing bucket : String) : String :=
  toHex ((pf.sha256 (utf8 (anchorHall ++ "|" ++ targetHall ++ "|" ++ wing ++ "|" ++ bucket))).toList.take
    8)

/-- A fingerprint when one of its memories has moved to another hall. -/
def rehall (id hall : String) (f : FingerprintRow) : FingerprintRow :=
  let wingBucket := f.wing ++ "|" ++ f.timeDeltaBucket
  let (wing, bucket) := (rsplitOnce '|' wingBucket).getD (wingBucket, "unknown")
  let (anchorHall, targetHall) :=
    if f.anchorMemoryId = id then (hall, f.targetHall) else (f.anchorHall, hall)
  { f with
    anchorHall
    targetHall
    hash := pf.makeFingerprintHash anchorHall targetHall wing (timeBucketLabel bucket) }

/-- `set_hall`: the memory, and every fingerprint it takes part in. -/
def setHall (s : Store) (id hall : String) : Store × Bool :=
  if s.HasMemory id then
    let moved := s.updateMemories (fun r => r.id = id) (fun r => { r with hall := some hall })
      fun _ => ⟨rfl, rfl⟩
    ({ moved with
      fingerprints := s.fingerprints.update
        (fun f => if f.anchorMemoryId = id ∨ f.targetMemoryId = id then pf.rehall id hall f else f)
        (by intro a b h; unfold SameKey at h ⊢; split at h <;> split at h <;> exact h) }, true)
  else (s, false)

/-! ## Sweeps -/

/-- `datetime(created_at) < datetime(?2)`: false when either is `NULL`. -/
def createdBefore (before : String) (r : MemoryRow) : Bool :=
  match pf.datetime r.createdAt, pf.datetime before with
  | some a, some b => decide (a < b)
  | _, _ => false

/-- `delete_wing_memories_before`. -/
def deleteWingMemoriesBefore (s : Store) (wing before : String) : Store × ℕ :=
  let old : MemoryRow → Bool := fun r => decide (r.wing = some wing) && pf.createdBefore before r
  (s.deleteMemories old, s.memories.countWhere old)

/-- The order of an `ORDER BY`, in which `NULL` comes first. -/
def nullsFirst : Option String → Option String → Bool
  | none, some _ => true
  | some a, some b => decide (a < b)
  | _, none => false

/-- `ORDER BY datetime(created_at) DESC, id DESC`. -/
def NewerFirst (a b : MemoryRow) : Prop :=
  nullsFirst (pf.datetime b.createdAt) (pf.datetime a.createdAt) = true ∨
    pf.datetime a.createdAt = pf.datetime b.createdAt ∧ b.id ≤ a.id

instance : DecidableRel pf.NewerFirst := fun a b =>
  inferInstanceAs (Decidable
    (nullsFirst (pf.datetime b.createdAt) (pf.datetime a.createdAt) = true ∨
      pf.datetime a.createdAt = pf.datetime b.createdAt ∧ b.id ≤ a.id))

/-- The memories of a wing that came from a source. -/
def fromSource (wing source : String) (r : MemoryRow) : Bool :=
  decide (r.wing = some wing) && decide (r.source = some source)

/-- The ids of the `keep` most recent memories of a wing and source. -/
def recentIds (s : Store) (wing : String) (keep : ℕ) (source : String) : List String :=
  (((s.memories.rows.filter (fromSource wing source)).insertionSort pf.NewerFirst).take keep).map
    MemoryRow.id

/-- The other memories of the wing and source. -/
def stale (s : Store) (wing : String) (keep : ℕ) (source : String) (r : MemoryRow) : Bool :=
  fromSource wing source r && decide (r.id ∉ pf.recentIds s wing keep source)

/-- The delete of `prune_wing_keeping_recent_per_source` for one source. -/
def pruneSource (wing : String) (keep : ℕ) (acc : Store × ℕ) (source : String) : Store × ℕ :=
  (acc.1.deleteMemories (pf.stale acc.1 wing keep source),
    acc.2 + acc.1.memories.countWhere (pf.stale acc.1 wing keep source))

/-- `SELECT DISTINCT source FROM memories WHERE wing = ?1 AND source IS NOT NULL`. -/
def sourcesOf (s : Store) (wing : String) : List String :=
  ((s.memories.rows.filter fun r => decide (r.wing = some wing)).filterMap MemoryRow.source).dedup

/-- `prune_wing_keeping_recent_per_source`. -/
def prune (s : Store) (wing : String) (keep : ℕ) : Store × ℕ :=
  (sourcesOf s wing).foldl (pf.pruneSource wing keep) (s, 0)

end Platform

/-! ## Listings -/

/-- `ORDER BY signal_score DESC, id`. -/
def MemoryRow.StrongerFirst (a b : MemoryRow) : Prop :=
  b.signalScore < a.signalScore ∨ a.signalScore = b.signalScore ∧ a.id ≤ b.id

instance : DecidableRel MemoryRow.StrongerFirst := fun a b =>
  inferInstanceAs (Decidable
    (b.signalScore < a.signalScore ∨ a.signalScore = b.signalScore ∧ a.id ≤ b.id))

/-- `LIMIT ?` of an `usize` bound as an `i64`: a negative limit is none. -/
def sqlLimit {α : Type} (limit : ℕ) (rows : List α) : List α :=
  if limit < 2 ^ 63 then rows.take limit else rows

theorem mem_of_mem_sqlLimit {α : Type} {limit : ℕ} {rows : List α} {a : α}
    (h : a ∈ sqlLimit limit rows) : a ∈ rows := by
  unfold sqlLimit at h
  split at h
  · exact List.mem_of_mem_take h
  · exact h

theorem length_sqlLimit_lt_iff {α : Type} (limit : ℕ) (rows : List α) :
    (sqlLimit limit rows).length < limit ↔ rows.length < limit := by
  unfold sqlLimit
  split
  · rw [List.length_take]
    omega
  · exact Iff.rfl

/-- A limit that is not reached cuts nothing off. -/
theorem sqlLimit_eq_self {α : Type} {limit : ℕ} {rows : List α} (h : rows.length < limit) :
    sqlLimit limit rows = rows := by
  unfold sqlLimit
  split
  · exact List.take_of_length_le h.le
  · rfl

/-- `list_memories_by_signal`. -/
def Store.listMemoriesBySignal (s : Store) (minSignal : ℚ) (limit : ℕ) : List MemoryRow :=
  sqlLimit limit ((s.memories.rows.filter fun r => decide (minSignal ≤ r.signalScore)).insertionSort
    MemoryRow.StrongerFirst)

theorem Store.mem_of_mem_listMemoriesBySignal {s : Store} {minSignal : ℚ} {limit : ℕ}
    {r : MemoryRow} (h : r ∈ s.listMemoriesBySignal minSignal limit) : r ∈ s.memories :=
  (List.mem_filter.1 ((List.mem_insertionSort _).1 (mem_of_mem_sqlLimit h))).1

theorem Store.length_listMemoriesBySignal_lt_iff {s : Store} {minSignal : ℚ} {limit : ℕ} :
    (s.listMemoriesBySignal minSignal limit).length < limit ↔
      (s.memories.countWhere fun r => decide (minSignal ≤ r.signalScore)) < limit := by
  rw [listMemoriesBySignal, length_sqlLimit_lt_iff, List.length_insertionSort,
    ← List.countP_eq_length_filter]
  rfl

/-- A listing that does not reach its limit has all memories of the strength. -/
theorem Store.mem_listMemoriesBySignal {s : Store} {minSignal : ℚ} {limit : ℕ} {r : MemoryRow}
    (h : (s.listMemoriesBySignal minSignal limit).length < limit) :
    r ∈ s.listMemoriesBySignal minSignal limit ↔ r ∈ s.memories ∧ minSignal ≤ r.signalScore := by
  unfold listMemoriesBySignal at h ⊢
  rw [sqlLimit_eq_self ((length_sqlLimit_lt_iff _ _).1 h), List.mem_insertionSort, List.mem_filter,
    decide_eq_true_iff]
  rfl

/-- An update of other columns leaves the order of the memories. -/
theorem Store.listMemoriesBySignal_updateMemories {s : Store} {p : MemoryRow → Bool}
    {g : MemoryRow → MemoryRow} {hg : ∀ r, (g r).id = r.id ∧ (g r).key = r.key}
    (hscore : ∀ r, (g r).signalScore = r.signalScore) (minSignal : ℚ) (limit : ℕ) :
    (s.updateMemories p g hg).listMemoriesBySignal minSignal limit =
      (s.listMemoriesBySignal minSignal limit).map fun r => if p r then g r else r := by
  have hid : ∀ r, (if p r then g r else r).id = r.id := by
    intro r
    split
    · exact (hg r).1
    · rfl
  have hsignal : ∀ r, (if p r then g r else r).signalScore = r.signalScore := by
    intro r
    split
    · exact hscore r
    · rfl
  have hlimit : ∀ rows : List MemoryRow, sqlLimit limit (rows.map fun r => if p r then g r else r) =
      (sqlLimit limit rows).map fun r => if p r then g r else r := by
    intro rows
    unfold sqlLimit
    split
    · exact List.map_take.symm
    · rfl
  unfold listMemoriesBySignal
  rw [← hlimit, List.map_insertionSort (r := MemoryRow.StrongerFirst)
    (s := MemoryRow.StrongerFirst)]
  · change sqlLimit limit (((s.memories.rows.map _).filter _).insertionSort _) = _
    rw [List.filter_map]
    simp only [Function.comp_def, hsignal]
  · intro a _ b _
    unfold MemoryRow.StrongerFirst
    rw [hid, hid, hsignal, hsignal]

/-! ## Batches -/

namespace Env

variable (env : Env)

/-- One item of `write_batch`: the store, the outcomes and the wings to pop. -/
def writeItem (now : String) (acc : Store × List WriteOutcome × List String)
    (item : Memory × List Fingerprint) :
    Except String (Store × List WriteOutcome × List String) := do
  let (s, outcome) ← env.writeMemoryInTx now acc.1 item.1 item.2
  return (s, acc.2.1 ++ [outcome], acc.2.2 ++ acc.1.invalidatedWings item.1 outcome)

/-- `write_batch`: one transaction.  Returns the outcomes and the wings to pop, sorted and
without repetition. -/
def writeBatch (now : String) (s : Store) (items : List (Memory × List Fingerprint)) :
    Except String (Store × List WriteOutcome × List String) := do
  let (s, outcomes, wings) ← items.foldlM (env.writeItem now) (s, [], [])
  return (s, outcomes, (wings.insertionSort (· ≤ ·)).dedup)

end Env

/-! ## The wings a statement touches -/

namespace Store

variable {s : Store} {wing : String}

/-- A reinforcement shows in the wings of the memories it reinforces. -/
theorem wingRows_reinforce {p : MemoryRow → Bool} {strength : ℚ} {now : String}
    (h : ∀ r ∈ s.memories, p r = true → r.wing ≠ some wing) :
    (s.updateMemories p (MemoryRow.reinforce strength now) fun _ => ⟨rfl, rfl⟩).wingRows wing =
      s.wingRows wing :=
  wingRows_updateMemories fun r hr hp => Or.inr ⟨h r hr hp, h r hr hp⟩

theorem mem_wingsOf {keys : List String} {w : String} :
    w ∈ s.wingsOf keys ↔ ∃ r ∈ s.memories, r.key ∈ keys ∧ r.wing = some w := by
  unfold wingsOf
  rw [List.mem_dedup, List.mem_filterMap]
  constructor
  · rintro ⟨r, hr, hw⟩
    obtain ⟨hmem, hk⟩ := List.mem_filter.1 hr
    exact ⟨r, hmem, of_decide_eq_true hk, hw⟩
  · rintro ⟨r, hr, hk, hw⟩
    exact ⟨r, List.mem_filter.2 ⟨hr, decide_eq_true hk⟩, hw⟩

theorem wingRows_reinforceMemory {now key : String} {strength : ℚ}
    (h : wing ∉ (s.reinforceMemory now key strength).2.toList) :
    (s.reinforceMemory now key strength).1.wingRows wing = s.wingRows wing := by
  refine wingRows_reinforce fun r hr hp hw => h ?_
  have hkey : s.memoryByKey key = some r := memoryByKey_eq_some.2 ⟨hr, by simpa using hp⟩
  simp [reinforceMemory, hkey, hw]

/-- A batch of reinforcements changes the rows of no wing but those it collects. -/
theorem wingRows_reinforceBatch {now : String} {keys : List String} {strength : ℚ}
    (h : wing ∉ (s.reinforceBatch now keys strength).2.1) :
    (s.reinforceBatch now keys strength).1.wingRows wing = s.wingRows wing := by
  unfold reinforceBatch at h ⊢
  generalize keys.toChunks 900 = chunks at h ⊢
  -- along the chunks, from the last one back: the wings are only added to
  induction chunks using List.reverseRecOn with
  | nil => rfl
  | append_singleton chunks chunk ih =>
    rw [List.foldl_append, List.foldl_cons, List.foldl_nil] at h ⊢
    have hpast := not_or.1 fun hw => h (List.mem_append.2 hw)
    rw [← ih hpast.1]
    exact wingRows_reinforce fun r hr hp hw =>
      hpast.2 (mem_wingsOf.2 ⟨r, hr, of_decide_eq_true hp, hw⟩)

end Store

/-- A sweep shows in the wing it sweeps. -/
theorem Platform.wingRows_deleteWingMemoriesBefore {pf : Platform} {s : Store}
    {wing swept before : String} (h : wing ≠ swept) :
    (pf.deleteWingMemoriesBefore s swept before).1.wingRows wing = s.wingRows wing := by
  refine Store.wingRows_deleteMemories fun r _ hp hw => h ?_
  have hswept := of_decide_eq_true (Bool.and_elim_left hp)
  exact Option.some.inj (hw.symm.trans hswept)

theorem Platform.wingRows_prune {pf : Platform} {s : Store} {wing swept : String} {keep : ℕ}
    (h : wing ≠ swept) : (pf.prune s swept keep).1.wingRows wing = s.wingRows wing := by
  unfold prune
  generalize sourcesOf s swept = sources
  induction sources using List.reverseRecOn with
  | nil => rfl
  | append_singleton sources source ih =>
    rw [List.foldl_append, List.foldl_cons, List.foldl_nil, ← ih]
    refine Store.wingRows_deleteMemories fun r _ hp hw => h ?_
    have hswept := of_decide_eq_true (Bool.and_elim_left (Bool.and_elim_left hp))
    exact Option.some.inj (hw.symm.trans hswept)

/-- The memories a prune selects: those of a source that are not among its most recent. -/
def Platform.pruned (pf : Platform) (s : Store) (wing : String) (keep : ℕ) (r : MemoryRow) : Bool :=
  r.source.any fun source => pf.stale s wing keep source r

theorem Platform.source_of_stale {pf : Platform} {s : Store} {wing source : String} {keep : ℕ}
    {r : MemoryRow} (h : pf.stale s wing keep source r = true) :
    r.wing = some wing ∧ r.source = some source := by
  have hfrom := Bool.and_elim_left h
  exact ⟨of_decide_eq_true (Bool.and_elim_left hfrom), of_decide_eq_true (Bool.and_elim_right hfrom)⟩

/-- The deletes for some sources leave the memories of another one. -/
theorem Platform.stale_deleteMemories {pf : Platform} {s : Store} {wing source : String} {keep : ℕ}
    {done : List String} (h : source ∉ done) (r : MemoryRow) :
    pf.stale (s.deleteMemories fun r => done.any fun src => pf.stale s wing keep src r)
      wing keep source r = pf.stale s wing keep source r := by
  have hrows : (s.deleteMemories fun r => done.any fun src =>
      pf.stale s wing keep src r).memories.rows.filter (fromSource wing source) =
        s.memories.rows.filter (fromSource wing source) := by
    rw [Store.memories_deleteMemories, Table.deleteWhere, List.filter_filter]
    refine List.filter_congr fun r _ => ?_
    cases hfrom : fromSource wing source r with
    | false => rfl
    | true =>
      have hnone : (done.any fun src => pf.stale s wing keep src r) = false := by
        rw [List.any_eq_false]
        intro src hsrc hstale
        have hsource := of_decide_eq_true (Bool.and_elim_right hfrom)
        rw [(Platform.source_of_stale hstale).2] at hsource
        exact h (Option.some.inj hsource ▸ hsrc)
      rw [hnone]
      rfl
  have hids : pf.recentIds (s.deleteMemories fun r => done.any fun src =>
      pf.stale s wing keep src r) wing keep source = pf.recentIds s wing keep source := by
    unfold recentIds
    rw [hrows]
  exact congrArg (fun ids => fromSource wing source r && decide (r.id ∉ ids)) hids

/-- **One prune** is one delete: the sources do not get in each other's way. -/
theorem Platform.prune_eq_deleteMemories (pf : Platform) (s : Store) (wing : String) (keep : ℕ) :
    (pf.prune s wing keep).1 = s.deleteMemories (pf.pruned s wing keep) := by
  have hfold : ∀ done : List String, done.Nodup →
      (done.foldl (pf.pruneSource wing keep) (s, 0)).1 =
        s.deleteMemories fun r => done.any fun src => pf.stale s wing keep src r := by
    intro done
    induction done using List.reverseRecOn with
    | nil => exact fun _ => (Store.deleteMemories_false s).symm
    | append_singleton done source ih =>
      intro hnodup
      obtain ⟨hdone, -, hdisjoint⟩ := List.nodup_append.1 hnodup
      have hnew : source ∉ done := fun h => hdisjoint source h source (by simp) rfl
      rw [List.foldl_append, List.foldl_cons, List.foldl_nil]
      have hpast := ih hdone
      generalize done.foldl (pf.pruneSource wing keep) (s, 0) = acc at hpast ⊢
      show acc.1.deleteMemories (pf.stale acc.1 wing keep source) = _
      rw [hpast, Store.deleteMemories_deleteMemories]
      refine Store.deleteMemories_congr s fun r _ => ?_
      rw [stale_deleteMemories hnew, List.any_append, List.any_cons, List.any_nil, Bool.or_false]
  unfold prune
  rw [hfold (sourcesOf s wing) (List.nodup_dedup _)]
  refine Store.deleteMemories_congr s fun r hr => ?_
  rw [Bool.eq_iff_iff, List.any_eq_true, pruned, Option.any_eq_true]
  constructor
  · rintro ⟨source, -, hstale⟩
    exact ⟨source, (Platform.source_of_stale hstale).2, hstale⟩
  · rintro ⟨source, hsource, hstale⟩
    refine ⟨source, List.mem_dedup.2 (List.mem_filterMap.2 ⟨r, List.mem_filter.2 ⟨hr, ?_⟩, hsource⟩),
      hstale⟩
    exact decide_eq_true (Platform.source_of_stale hstale).1

/-- A prune that deletes nothing leaves the memories as they were. -/
theorem Platform.memories_prune_of_zero {pf : Platform} {s : Store} {swept : String} {keep : ℕ}
    (h : (pf.prune s swept keep).2 = 0) : (pf.prune s swept keep).1.memories = s.memories := by
  unfold prune at h ⊢
  generalize sourcesOf s swept = sources at h ⊢
  induction sources using List.reverseRecOn with
  | nil => rfl
  | append_singleton sources source ih =>
    rw [List.foldl_append, List.foldl_cons, List.foldl_nil] at h ⊢
    obtain ⟨hpast, hnone⟩ := Nat.add_eq_zero_iff.1 h
    rw [← ih hpast]
    exact Table.deleteWhere_of_countWhere hnone

/-- A batch changes the rows of no wing but those it then pops. -/
theorem Env.wingRows_writeBatch {env : Env} {now : String} {s s' : Store}
    {items : List (Memory × List Fingerprint)} {outcomes : List WriteOutcome}
    {wings : List String} {wing : String}
    (h : env.writeBatch now s items = .ok (s', outcomes, wings)) (hwing : wing ∉ wings) :
    s'.wingRows wing = s.wingRows wing := by
  unfold writeBatch at h
  cases hfold : items.foldlM (env.writeItem now) (s, [], []) with
  | error e => rw [hfold] at h; cases h
  | ok acc =>
    obtain ⟨t, outs, ws⟩ := acc
    rw [hfold] at h
    cases h
    rw [List.mem_dedup, List.mem_insertionSort] at hwing
    -- each item adds to the wings those whose rows it changes
    have hrel := rel_of_foldlM_eq_ok
      (R := fun (a b : Store × List WriteOutcome × List String) =>
        wing ∉ b.2.2 → wing ∉ a.2.2 ∧ b.1.wingRows wing = a.1.wingRows wing)
      (fun _ hw => ⟨hw, rfl⟩)
      (fun _ _ _ hab hbc hw => by
        obtain ⟨hb, hbc'⟩ := hbc hw
        obtain ⟨ha, hab'⟩ := hab hb
        exact ⟨ha, hbc'.trans hab'⟩)
      (fun acc item acc' hitem hw => by
        unfold writeItem at hitem
        cases hwrite : env.writeMemoryInTx now acc.1 item.1 item.2 with
        | error e => rw [hwrite] at hitem; cases hitem
        | ok p =>
          rw [hwrite] at hitem
          cases hitem
          have hpast := not_or.1 fun h => hw (List.mem_append.2 h)
          exact ⟨hpast.1, Env.wingRows_writeMemoryInTx hwrite hpast.2⟩)
      hfold
    exact (hrel hwing).2

end Spectral
