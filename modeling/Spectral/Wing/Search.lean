import Spectral.Ingest.Write
import Spectral.Lib.Ranking
import Mathlib.Data.String.Basic

/-!
# Wing search

`wing_search` reads all rows of a wing, the strongest first, and ranks them by how many of
the query terms each mentions.

* `Store.wingRows` — the rows of a wing, as hits: what `wing_search` reads.
* `rankWing` — what it makes of them.

`wingRows` looks at the served columns only, so a statement changes it at most for the wings
of the rows it touches: `wingRows_updateMemories`, `wingRows_deleteMemories`,
`wingRows_insertMemory`, and for a whole write `wingRows_writeMemoryInTx`.
-/

namespace Spectral

open Spectral.Lib

/-- `MemoryHit`: a memory found by a recall. -/
structure MemoryHit where
  id : String
  key : String
  content : String
  wing : Option String
  hall : Option String
  signalScore : ℚ
  visibility : String
  hits : ℕ
  source : Option String
  deviceId : Option Bytes32
  confidence : ℚ
  createdAt : String
  lastReinforcedAt : Option String
  episodeId : Option String
  declarativeDensity : Option ℚ
  description : Option String
  sourceBrainId : Option Bytes32
  signature : Option (List UInt8)
  deriving DecidableEq

/-- `memory_hit_from_row`. -/
def memoryHitFromRow (hits : ℕ) (r : MemoryRow) : MemoryHit :=
  { id := r.id, key := r.key, content := r.content, wing := r.wing, hall := r.hall,
    signalScore := r.signalScore, visibility := r.visibility, hits, source := r.source,
    deviceId := r.deviceId, confidence := r.confidence, createdAt := r.createdAt,
    lastReinforcedAt := r.lastReinforcedAt, episodeId := r.episodeId,
    declarativeDensity := r.declarativeDensity, description := r.description,
    sourceBrainId := r.sourceBrainId, signature := r.signature }

/-- `WHERE wing = ?1`. -/
def MemoryHit.inWing (wing : String) (h : MemoryHit) : Bool := decide (h.wing = some wing)

theorem not_inWing {wing : String} {n : ℕ} {r : MemoryRow} (h : r.wing ≠ some wing) :
    ¬ (memoryHitFromRow n r).inWing wing = true := fun hw => h (of_decide_eq_true hw)

/-- `ORDER BY signal_score DESC, id`. -/
def MemoryHit.StrongerFirst (a b : MemoryHit) : Prop :=
  b.signalScore < a.signalScore ∨ a.signalScore = b.signalScore ∧ a.id ≤ b.id

instance : DecidableRel MemoryHit.StrongerFirst := fun a b =>
  inferInstanceAs (Decidable
    (b.signalScore < a.signalScore ∨ a.signalScore = b.signalScore ∧ a.id ≤ b.id))

instance : Std.Total MemoryHit.StrongerFirst :=
  Lib.total_then MemoryHit.signalScore (Lib.total_key MemoryHit.id)

instance : IsTrans MemoryHit MemoryHit.StrongerFirst :=
  Lib.isTrans_then MemoryHit.signalScore (Lib.isTrans_key MemoryHit.id)

/-- Hits that sort before each other have one id. -/
theorem MemoryHit.StrongerFirst.id_eq {a b : MemoryHit} (hab : a.StrongerFirst b)
    (hba : b.StrongerFirst a) : a.id = b.id := by
  rcases hab with hab | ⟨heq, hab⟩
  · rcases hba with hba | ⟨heq, -⟩
    · exact absurd hab (lt_asymm hba)
    · exact absurd heq (ne_of_lt hab)
  · rcases hba with hba | ⟨-, hba⟩
    · exact absurd heq (ne_of_lt hba)
    · exact le_antisymm hab hba

/-! ## Ranking -/

section

-- `str::to_lowercase`.
variable (toLowercase : String → String)

/-- `str::contains`. -/
def strContains (haystack needle : String) : Bool := decide (needle.toList <:+: haystack.toList)

/-- The query terms that count: those of more than one byte, in lower case. -/
def searchTerms (queryTerms : List String) : List String :=
  (queryTerms.filter fun t => decide (1 < t.utf8ByteSize)).map toLowercase

/-- How many of the terms a hit mentions, in its key or its content. -/
def termMatches (terms : List String) (hit : MemoryHit) : ℕ :=
  terms.countP fun t =>
    strContains (toLowercase hit.key ++ " " ++ toLowercase hit.content) t

/-- The stable re-rank by the number of terms mentioned. -/
def boostTerms (terms : List String) (rows : List MemoryHit) : List MemoryHit :=
  if terms = [] then rows
  else rows.insertionSort fun a b =>
    termMatches toLowercase terms b ≤ termMatches toLowercase terms a

/-- `wing_search` from the rows of the wing on: boost and truncate. -/
def rankWing (queryTerms : List String) (maxResults : ℕ) (rows : List MemoryHit) :
    List MemoryHit :=
  (boostTerms toLowercase (searchTerms toLowercase queryTerms) rows).take maxResults

end

/-! ## The rows of a wing -/

namespace Store

variable {s s' : Store}

/-- The rows of `memories` as they are served. -/
def servedRows (s : Store) : List MemoryHit := s.memories.rows.map (memoryHitFromRow 0)

/-- `SELECT ... FROM memories WHERE wing = ?1 ORDER BY signal_score DESC, id`. -/
def wingRows (s : Store) (wing : String) : List MemoryHit :=
  (s.servedRows.filter (MemoryHit.inWing wing)).insertionSort MemoryHit.StrongerFirst

theorem mem_wingRows {wing : String} {h : MemoryHit} :
    h ∈ s.wingRows wing ↔
      ∃ r ∈ s.memories, r.wing = some wing ∧ memoryHitFromRow 0 r = h := by
  unfold wingRows servedRows
  rw [List.mem_insertionSort, List.mem_filter, List.mem_map]
  constructor
  · rintro ⟨⟨r, hr, rfl⟩, hw⟩
    exact ⟨r, hr, of_decide_eq_true hw, rfl⟩
  · rintro ⟨r, hr, hw, rfl⟩
    exact ⟨⟨r, hr, rfl⟩, decide_eq_true hw⟩

theorem sorted_wingRows (s : Store) (wing : String) :
    (s.wingRows wing).Pairwise MemoryHit.StrongerFirst :=
  List.pairwise_insertionSort MemoryHit.StrongerFirst _

/-- A wing has one row with a given id. -/
theorem eq_of_id_of_mem_wingRows {wing : String} {a b : MemoryHit} (ha : a ∈ s.wingRows wing)
    (hb : b ∈ s.wingRows wing) (h : a.id = b.id) : a = b := by
  obtain ⟨r, hr, -, rfl⟩ := mem_wingRows.1 ha
  obtain ⟨r', hr', -, rfl⟩ := mem_wingRows.1 hb
  rw [eq_of_id hr hr' h]

theorem nodup_wingRows (s : Store) (wing : String) : (s.wingRows wing).Nodup := by
  refine (List.perm_insertionSort _ _).nodup_iff.2 (List.Nodup.filter _ ?_)
  refine List.pairwise_map.2 (s.memories.unique.imp fun h heq => h (Or.inl ?_))
  exact congrArg MemoryHit.id heq

/-- The rows of a wing are known from which rows they are. -/
theorem wingRows_ext {wing : String}
    (h : ∀ x, x ∈ s'.wingRows wing ↔ x ∈ s.wingRows wing) :
    s'.wingRows wing = s.wingRows wing := by
  refine List.Perm.eq_of_pairwise (fun a b ha hb hab hba => ?_) (sorted_wingRows s' wing)
    (sorted_wingRows s wing) ((List.perm_ext_iff_of_nodup (nodup_wingRows s' wing)
      (nodup_wingRows s wing)).2 h)
  exact eq_of_id_of_mem_wingRows ((h a).1 ha) hb (hab.id_eq hba)

theorem wingRows_of_memories_eq (h : s'.memories = s.memories) (wing : String) :
    s'.wingRows wing = s.wingRows wing := by
  unfold wingRows servedRows
  rw [h]

/-- An update shows in a wing only through rows that are in the wing before or after, and
only when it changes a served column. -/
theorem wingRows_updateMemories {p : MemoryRow → Bool} {g : MemoryRow → MemoryRow}
    {hg : ∀ r, (g r).id = r.id ∧ (g r).key = r.key} {wing : String}
    (h : ∀ r ∈ s.memories, p r = true → memoryHitFromRow 0 (g r) = memoryHitFromRow 0 r ∨
      r.wing ≠ some wing ∧ (g r).wing ≠ some wing) :
    (s.updateMemories p g hg).wingRows wing = s.wingRows wing := by
  unfold wingRows
  congr 1
  change ((s.memories.rows.map fun r => if p r then g r else r).map (memoryHitFromRow 0)).filter _ =
    (s.memories.rows.map (memoryHitFromRow 0)).filter _
  replace h : ∀ r ∈ s.memories.rows, p r = true → _ := h
  generalize s.memories.rows = rows at h ⊢
  induction rows with
  | nil => rfl
  | cons r rows ih =>
    have hrest := ih fun r' hr' => h r' (List.mem_cons_of_mem _ hr')
    rw [List.map_cons, List.map_cons, List.map_cons]
    by_cases hp : p r = true
    · rw [if_pos hp]
      rcases h r List.mem_cons_self hp with hsame | ⟨hbefore, hafter⟩
      · rw [hsame, List.filter_cons, List.filter_cons, hrest]
      · rw [List.filter_cons_of_neg (not_inWing hafter),
          List.filter_cons_of_neg (not_inWing hbefore), hrest]
    · rw [if_neg hp, List.filter_cons, List.filter_cons, hrest]

/-- A delete shows in the wings of the rows it deletes. -/
theorem wingRows_deleteMemories {p : MemoryRow → Bool} {wing : String}
    (h : ∀ r ∈ s.memories, p r = true → r.wing ≠ some wing) :
    (s.deleteMemories p).wingRows wing = s.wingRows wing := by
  unfold wingRows
  congr 1
  change ((s.memories.rows.filter fun r => !p r).map (memoryHitFromRow 0)).filter _ =
    (s.memories.rows.map (memoryHitFromRow 0)).filter _
  rw [List.filter_map, List.filter_map, List.filter_filter]
  congr 1
  refine List.filter_congr fun r hr => ?_
  cases hp : p r with
  | false => simp
  | true => simp [not_inWing (h r hr hp)]

/-- An insert shows in the wing of the new row. -/
theorem wingRows_insertMemory {row : MemoryRow} {wing : String}
    (h : s.insertMemory row = .ok s') (hwing : row.wing ≠ some wing) :
    s'.wingRows wing = s.wingRows wing := by
  unfold insertMemory at h
  split at h
  · cases h
  · rename_i hclash
    cases h
    unfold wingRows servedRows
    rw [Table.rows_insertOrIgnore_of_not_clashes hclash, List.map_append, List.filter_append,
      List.map_singleton, List.filter_cons_of_neg (not_inWing hwing),
      List.filter_nil, List.append_nil]

/-- The wings a write invalidates: the incoming one, and the stored one. -/
def invalidatedWings (s : Store) (memory : Memory) (outcome : WriteOutcome) : List String :=
  if outcome = .noOp then []
  else memory.wing.toList ++ ((s.memoryByKey memory.key).bind MemoryRow.wing).toList

end Store

/-- **A write and the wings.**  A write changes the rows of no wing but those it then
invalidates. -/
theorem Env.wingRows_writeMemoryInTx {env : Env} {now : String} {s s' : Store} {memory : Memory}
    {fps : List Fingerprint} {outcome : WriteOutcome} {wing : String}
    (h : env.writeMemoryInTx now s memory fps = .ok (s', outcome))
    (hwing : wing ∉ s.invalidatedWings memory outcome) : s'.wingRows wing = s.wingRows wing := by
  cases writes_of_writeMemoryInTx h with
  | inserted hnone ht hfps =>
    rw [Store.wingRows_of_memories_eq (Store.sameTables_foldlM_insertFingerprint hfps).memories]
    refine Store.wingRows_insertMemory ht fun hw => hwing ?_
    have hnew : memory.wing = some wing := hw
    simp [Store.invalidatedWings, hnew]
  | noOp hk hsame =>
    -- the content hash is not served
    exact Store.wingRows_updateMemories fun r _ _ => Or.inl rfl
  | @contentUpdated row _ hk hdiff hfps =>
    obtain ⟨hrow, hkey⟩ := Store.memoryByKey_eq_some.1 hk
    rw [Store.wingRows_of_memories_eq (Store.sameTables_foldlM_insertFingerprint hfps).memories]
    have hstored : row.wing ≠ some wing := by
      intro hw
      exact hwing (by simp [Store.invalidatedWings, hk, hw])
    have hupdate : (s.updateMemories (fun r => r.key = memory.key)
        (fun r => { r with
          content := memory.content
          contentHash := some (env.contentHash memory.content)
          updatedAt := now }) fun _ => ⟨rfl, rfl⟩).wingRows wing = s.wingRows wing := by
      refine Store.wingRows_updateMemories fun r hr hp => ?_
      rw [Store.eq_of_key hr hrow (by rw [hkey]; simpa using hp)]
      exact Or.inr ⟨hstored, hstored⟩
    exact hupdate

end Spectral
