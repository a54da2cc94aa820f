import Spectral.Lib.Table
import Spectral.Recognition.Score

/-!
# The recognition index

The index spreads a memory over five tables: its marker, its pair and gram fingerprints, its
shingle set and the bands that set is found by.  A sixth one queues the memories to be enrolled
again.

* `enroll` — idempotent for each id.
* `forget` — one transaction over the five tables.
* `recognize` — looks the fingerprints of a stimulus up and scores what they match.
* `Residue` — something of a memory is in the index.  `Marked` says that it then has its marker,
  which is what `is_enrolled` asks for; every operation keeps it.

The extraction of fingerprints is the parameter `Recognizer`.
-/

namespace Spectral

open Spectral.Lib

/-! ## Rows -/

/-- A row of `recognition_pairs` or `recognition_grams`; all of it is the primary key. -/
structure FeatureRow where
  hash : UInt64
  memoryId : String
  label : String
  deriving DecidableEq

/-- A row of `recognition_minhash_sig`. -/
structure MinhashSigRow where
  memoryId : String
  sig : List UInt64
  deriving DecidableEq

/-- A row of `recognition_minhash_bands`; all of it is the primary key. -/
structure MinhashBandRow where
  bandHash : UInt64
  memoryId : String
  deriving DecidableEq

/-- A row of `recognition_pending`. -/
structure PendingRow where
  memoryId : String
  failedAt : String
  deriving DecidableEq

/-- The state of a `SqliteRecognitionStore`. -/
structure RecognitionIndex where
  enrolled : Table String (SameKey fun id => id) := .empty
  pending : Table PendingRow (SameKey PendingRow.memoryId) := .empty
  pairs : Table FeatureRow (SameKey fun r => r) := .empty
  grams : Table FeatureRow (SameKey fun r => r) := .empty
  minhashSig : Table MinhashSigRow (SameKey MinhashSigRow.memoryId) := .empty
  minhashBands : Table MinhashBandRow (SameKey fun r => r) := .empty
  deriving DecidableEq

/-- The code that makes fingerprints of a text, and the `RecognitionConfig`. -/
structure Recognizer where
  numerics : Numerics
  /-- `fingerprint_stimulus_with`. -/
  fingerprintStimulus : String → StimulusPrints
  /-- `shingle_set`. -/
  shingleSet : String → List UInt64
  score : ScoreConfig := {}
  minhashWeight : ℚ := 3
  minSimilarity : ℚ := 15 / 100

/-! ## Containment -/

/-- One element of a merge: skip what is smaller, count an equal one, and go on with `rest`. -/
def mergeStep (rest : List UInt64 → ℕ) (a : UInt64) : List UInt64 → ℕ
  | [] => 0
  | b :: bs => if a < b then rest (b :: bs) else if a = b then rest bs + 1 else mergeStep rest a bs

/-- The merge-count of two sorted lists. -/
def mergeCount : List UInt64 → List UInt64 → ℕ
  | [] => fun _ => 0
  | a :: as => mergeStep (mergeCount as) a

/-- `containment`. -/
def containment (probeSet docSet : List UInt64) : ℚ :=
  if probeSet = [] then 0 else (mergeCount probeSet docSet : ℚ) / probeSet.length

/-! ## Operations -/

/-- Where an enrolment can fail.  The shingle set is best-effort: its failure is not reported. -/
inductive EnrollFault where
  | index (error : String)
  | minhash
  deriving DecidableEq

namespace RecognitionIndex

section

variable (rc : Recognizer) (ix : RecognitionIndex)

/-- `is_enrolled`. -/
def isEnrolled (id : String) : Bool := decide (id ∈ ix.enrolled)

/-- `enrolled_ids`. -/
def enrolledIds : List String := ix.enrolled.rows.insertionSort (· ≤ ·)

/-- `mark_pending`. -/
def markPending (now id : String) : RecognitionIndex :=
  { ix with pending := ix.pending.insertOrIgnore ⟨id, now⟩ }

/-- `ORDER BY failed_at, memory_id`. -/
def OlderFirst (a b : PendingRow) : Prop :=
  a.failedAt < b.failedAt ∨ a.failedAt = b.failedAt ∧ a.memoryId ≤ b.memoryId

instance : DecidableRel OlderFirst := fun a b => inferInstanceAs
  (Decidable (a.failedAt < b.failedAt ∨ a.failedAt = b.failedAt ∧ a.memoryId ≤ b.memoryId))

/-- `pending_ids`. -/
def pendingIds (limit : ℕ) : List String :=
  ((ix.pending.rows.insertionSort OlderFirst).take limit).map PendingRow.memoryId

/-- `clear_pending`. -/
def clearPending (id : String) : RecognitionIndex :=
  { ix with pending := ix.pending.deleteWhere fun p => p.memoryId = id }

/-- The inserts of some fingerprints. -/
def insertFeatures (id : String) (hashes : List (UInt64 × String))
    (t : Table FeatureRow (SameKey fun r => r)) : Table FeatureRow (SameKey fun r => r) :=
  hashes.foldl (fun t h => t.insertOrIgnore ⟨h.1, id, h.2⟩) t

/-- `index_memory`. -/
def indexMemory (id : String) (prints : StimulusPrints) : RecognitionIndex :=
  { ix with
    enrolled := ix.enrolled.insertOrIgnore id
    pairs := insertFeatures id prints.pairHashes ix.pairs
    grams := insertFeatures id prints.gramHashes ix.grams }

/-- `index_minhash`. -/
def indexMinhash (id : String) (signature bands : List UInt64) : RecognitionIndex :=
  { ix with
    minhashSig := (ix.minhashSig.deleteWhere fun r => r.memoryId = id).insertOrIgnore ⟨id, signature⟩
    minhashBands := bands.foldl (fun t b => t.insertOrIgnore ⟨b, id⟩) ix.minhashBands }

/-- `enroll`.  Returns the error it reports. -/
def enroll (fault : Option EnrollFault) (id content : String) :
    RecognitionIndex × Except String Unit :=
  match fault with
  | some (.index error) => (ix, .error error)
  | _ =>
    if ix.isEnrolled id then (ix, .ok ())
    else
      let indexed := ix.indexMemory id (rc.fingerprintStimulus content)
      if 0 < rc.minhashWeight ∧ fault = none then
        (indexed.indexMinhash id (rc.shingleSet content) (rc.shingleSet content), .ok ())
      else (indexed, .ok ())

/-- `forget_memory`.  Returns whether the memory was enrolled. -/
def forget (id : String) : RecognitionIndex × Bool :=
  ({ ix with
    enrolled := ix.enrolled.deleteWhere fun e => e = id
    pairs := ix.pairs.deleteWhere fun r => r.memoryId = id
    grams := ix.grams.deleteWhere fun r => r.memoryId = id
    minhashSig := ix.minhashSig.deleteWhere fun r => r.memoryId = id
    minhashBands := ix.minhashBands.deleteWhere fun r => r.memoryId = id }, ix.isEnrolled id)

/-- `lookup_table`. -/
def lookupTable (t : Table FeatureRow (SameKey fun r => r)) (hashes : List (UInt64 × String)) :
    List FeatureMatch :=
  hashes.flatMap fun h => (t.rows.filter fun r => r.hash = h.1).map fun r =>
    { hash := h.1, memoryId := r.memoryId, label := r.label,
      docFrequency := ((t.rows.filter fun d => d.hash = r.hash).map FeatureRow.memoryId).dedup.length }

/-- `lookup_minhash`: the memories that share a band, with their shingle sets. -/
def lookupMinhash (probeBands : List UInt64) : List (String × List UInt64) :=
  (((ix.minhashBands.rows.filter fun b => decide (b.bandHash ∈ probeBands)).map
    MinhashBandRow.memoryId).dedup).filterMap fun id =>
      (ix.minhashSig.find? fun r => r.memoryId = id).map fun r => (id, r.sig)

/-- The shingle channel of `recognize`. -/
def minhashMatches (stimulus : String) : List MinHashMatch :=
  if 0 < rc.minhashWeight then
    (ix.lookupMinhash (rc.shingleSet stimulus)).map fun c =>
      ⟨c.1, containment (rc.shingleSet stimulus) c.2⟩
  else []

/-- `recognize`. -/
def recognize (stimulus : String) : RecognitionResult :=
  let prints := rc.fingerprintStimulus stimulus
  scoreCandidates rc.numerics prints (lookupTable ix.pairs prints.pairHashes)
    (lookupTable ix.grams prints.gramHashes) (ix.minhashMatches rc stimulus) ix.enrolled.rows.length
    rc.score rc.minhashWeight rc.minSimilarity

/-- **Residue**: some row of the index is about the memory. -/
structure Residue (id : String) : Prop where
  row : id ∈ ix.enrolled ∨ (∃ r ∈ ix.pairs, r.memoryId = id) ∨ (∃ r ∈ ix.grams, r.memoryId = id) ∨
    (∃ r ∈ ix.minhashSig, r.memoryId = id) ∨ ∃ r ∈ ix.minhashBands, r.memoryId = id

/-- What is in the index has its marker. -/
structure Marked : Prop where
  enrolled : ∀ id, ix.Residue id → id ∈ ix.enrolled

end

/-! ## What the operations leave -/

variable {rc : Recognizer} {ix : RecognitionIndex} {id id' content : String}

/-- An enrolment reports no error but the one of the index. -/
theorem enroll_eq_error_iff {fault : Option EnrollFault} {error : String} :
    (ix.enroll rc fault id content).2 = .error error ↔ fault = some (.index error) := by
  unfold enroll
  split
  · simp
  · rename_i hnot
    refine iff_of_false ?_ (hnot error)
    split
    · exact nofun
    · dsimp only
      split <;> exact nofun

theorem mem_insertFeatures {hashes : List (UInt64 × String)}
    {t : Table FeatureRow (SameKey fun r => r)} {r : FeatureRow} :
    r ∈ insertFeatures id hashes t ↔ r ∈ t ∨ ∃ h ∈ hashes, (⟨h.1, id, h.2⟩ : FeatureRow) = r :=
  Table.mem_foldl_insertOrIgnore_row (fun h : UInt64 × String => (⟨h.1, id, h.2⟩ : FeatureRow)) hashes

theorem memoryId_of_mem_insertFeatures {hashes : List (UInt64 × String)}
    {t : Table FeatureRow (SameKey fun r => r)} {r : FeatureRow}
    (h : r ∈ insertFeatures id hashes t) : r ∈ t ∨ r.memoryId = id := by
  refine (mem_insertFeatures.1 h).imp_right ?_
  rintro ⟨h, -, rfl⟩
  rfl

theorem residue_indexMemory {prints : StimulusPrints} (h : (ix.indexMemory id prints).Residue id') :
    ix.Residue id' ∨ id' = id := by
  obtain ⟨h | ⟨r, hr, rfl⟩ | ⟨r, hr, rfl⟩ | h | h⟩ := h
  · rcases Table.mem_insertOrIgnore.1 h with h | ⟨rfl, -⟩
    · exact Or.inl ⟨Or.inl h⟩
    · exact Or.inr rfl
  · exact (memoryId_of_mem_insertFeatures hr).imp_left fun h => ⟨Or.inr (Or.inl ⟨r, h, rfl⟩)⟩
  · exact (memoryId_of_mem_insertFeatures hr).imp_left fun h => ⟨Or.inr (Or.inr (Or.inl ⟨r, h, rfl⟩))⟩
  · exact Or.inl ⟨Or.inr (Or.inr (Or.inr (Or.inl h)))⟩
  · exact Or.inl ⟨Or.inr (Or.inr (Or.inr (Or.inr h)))⟩

theorem residue_indexMinhash {signature bands : List UInt64}
    (h : (ix.indexMinhash id signature bands).Residue id') : ix.Residue id' ∨ id' = id := by
  obtain ⟨h | h | h | ⟨r, hr, rfl⟩ | ⟨r, hr, rfl⟩⟩ := h
  · exact Or.inl ⟨Or.inl h⟩
  · exact Or.inl ⟨Or.inr (Or.inl h)⟩
  · exact Or.inl ⟨Or.inr (Or.inr (Or.inl h))⟩
  · rcases Table.mem_insertOrIgnore.1 hr with hr | ⟨rfl, -⟩
    · exact Or.inl ⟨Or.inr (Or.inr (Or.inr (Or.inl ⟨r, (Table.mem_deleteWhere.1 hr).1, rfl⟩)))⟩
    · exact Or.inr rfl
  · have hbands : r ∈ ix.minhashBands ∨ r.memoryId = id := by
      refine ((Table.mem_foldl_insertOrIgnore_row _ bands).1 hr).imp_right ?_
      rintro ⟨b, -, rfl⟩
      rfl
    exact hbands.imp_left fun h => ⟨Or.inr (Or.inr (Or.inr (Or.inr ⟨r, h, rfl⟩)))⟩

/-- An enrolment that reports no error leaves the marker, and no other one. -/
theorem mem_enrolled_enroll {fault : Option EnrollFault} :
    id' ∈ (ix.enroll rc fault id content).1.enrolled ↔
      id' ∈ ix.enrolled ∨ (ix.enroll rc fault id content).2 = .ok () ∧ id' = id := by
  have hmark : ∀ t : RecognitionIndex, t.enrolled = ix.enrolled.insertOrIgnore id →
      (id' ∈ t.enrolled ↔ id' ∈ ix.enrolled ∨ id' = id) := by
    intro t ht
    rw [ht, Table.mem_insertOrIgnore_row]
  have hseen : ix.isEnrolled id = true → (id' ∈ ix.enrolled ↔ id' ∈ ix.enrolled ∨ id' = id) := by
    intro hid
    refine ⟨Or.inl, ?_⟩
    rintro (h | rfl)
    · exact h
    · exact of_decide_eq_true hid
  unfold enroll
  split
  · simp
  · split
    · rename_i hid
      simpa using hseen hid
    · dsimp only
      split <;> simpa using hmark _ rfl

theorem residue_enroll {fault : Option EnrollFault}
    (h : (ix.enroll rc fault id content).1.Residue id') :
    ix.Residue id' ∨ (ix.enroll rc fault id content).2 = .ok () ∧ id' = id := by
  unfold enroll at h ⊢
  split at h
  · exact Or.inl h
  · split at h
    · exact Or.inl h
    · rename_i hnew
      rw [if_neg hnew]
      dsimp only at h ⊢
      split at h
      · rename_i hminhash
        rw [if_pos hminhash]
        rcases residue_indexMinhash h with h | h
        · exact (residue_indexMemory h).imp_right fun h => ⟨rfl, h⟩
        · exact Or.inr ⟨rfl, h⟩
      · rename_i hminhash
        rw [if_neg hminhash]
        exact (residue_indexMemory h).imp_right fun h => ⟨rfl, h⟩

theorem mem_enrolled_forget :
    id' ∈ (ix.forget id).1.enrolled ↔ id' ∈ ix.enrolled ∧ id' ≠ id := by
  refine Table.mem_deleteWhere.trans ?_
  simp

/-- **A forget leaves nothing of the memory**, and all of the others. -/
theorem residue_forget : (ix.forget id).1.Residue id' ↔ ix.Residue id' ∧ id' ≠ id := by
  have hrows : ∀ {α : Type} {clash : α → α → Prop} [DecidableRel clash] [DecidableEq α]
      (t : Table α clash) (memoryId : α → String),
      (∃ r ∈ t.deleteWhere fun r => memoryId r = id, memoryId r = id') ↔
        (∃ r ∈ t, memoryId r = id') ∧ id' ≠ id := by
    intro α clash _ _ t memoryId
    constructor
    · rintro ⟨r, hr, rfl⟩
      obtain ⟨hr, hne⟩ := Table.mem_deleteWhere.1 hr
      exact ⟨⟨r, hr, rfl⟩, of_decide_eq_false hne⟩
    · rintro ⟨⟨r, hr, rfl⟩, hne⟩
      exact ⟨r, Table.mem_deleteWhere.2 ⟨hr, decide_eq_false hne⟩, rfl⟩
  have hpairs := hrows ix.pairs FeatureRow.memoryId
  have hgrams := hrows ix.grams FeatureRow.memoryId
  have hsig := hrows ix.minhashSig MinhashSigRow.memoryId
  have hbands := hrows ix.minhashBands MinhashBandRow.memoryId
  constructor
  · rintro ⟨h | h | h | h | h⟩
    · obtain ⟨h, hne⟩ := mem_enrolled_forget.1 h
      exact ⟨⟨Or.inl h⟩, hne⟩
    · obtain ⟨h, hne⟩ := hpairs.1 h
      exact ⟨⟨Or.inr (Or.inl h)⟩, hne⟩
    · obtain ⟨h, hne⟩ := hgrams.1 h
      exact ⟨⟨Or.inr (Or.inr (Or.inl h))⟩, hne⟩
    · obtain ⟨h, hne⟩ := hsig.1 h
      exact ⟨⟨Or.inr (Or.inr (Or.inr (Or.inl h)))⟩, hne⟩
    · obtain ⟨h, hne⟩ := hbands.1 h
      exact ⟨⟨Or.inr (Or.inr (Or.inr (Or.inr h)))⟩, hne⟩
  · rintro ⟨⟨h | h | h | h | h⟩, hne⟩
    · exact ⟨Or.inl (mem_enrolled_forget.2 ⟨h, hne⟩)⟩
    · exact ⟨Or.inr (Or.inl (hpairs.2 ⟨h, hne⟩))⟩
    · exact ⟨Or.inr (Or.inr (Or.inl (hgrams.2 ⟨h, hne⟩)))⟩
    · exact ⟨Or.inr (Or.inr (Or.inr (Or.inl (hsig.2 ⟨h, hne⟩))))⟩
    · exact ⟨Or.inr (Or.inr (Or.inr (Or.inr (hbands.2 ⟨h, hne⟩))))⟩

/-! ## Markers -/

theorem marked_empty : Marked {} := by
  refine ⟨fun id => ?_⟩
  rintro ⟨h | ⟨r, hr, -⟩ | ⟨r, hr, -⟩ | ⟨r, hr, -⟩ | ⟨r, hr, -⟩⟩
  · exact h
  all_goals exact absurd hr (Table.not_mem_empty r)

theorem Marked.residue_iff (h : ix.Marked) : ix.Residue id ↔ id ∈ ix.enrolled :=
  ⟨h.enrolled id, fun hid => ⟨Or.inl hid⟩⟩

theorem residue_of_isEnrolled (h : ix.isEnrolled id = true) : ix.Residue id :=
  ⟨Or.inl (of_decide_eq_true h)⟩

theorem marked_enroll (h : ix.Marked) (fault : Option EnrollFault) :
    (ix.enroll rc fault id content).1.Marked := by
  refine ⟨fun id' hres => mem_enrolled_enroll.2 ?_⟩
  exact (residue_enroll hres).imp_left (h.enrolled id')

theorem marked_forget (h : ix.Marked) : (ix.forget id).1.Marked := by
  refine ⟨fun id' hres => mem_enrolled_forget.2 ?_⟩
  obtain ⟨hres, hne⟩ := residue_forget.1 hres
  exact ⟨h.enrolled id' hres, hne⟩

theorem marked_of_pending {pending : Table PendingRow (SameKey PendingRow.memoryId)}
    (h : ix.Marked) : Marked { ix with pending } :=
  ⟨fun id hres => h.enrolled id ⟨hres.row⟩⟩

/-! ## Recognition -/

theorem memoryId_of_mem_lookupTable {t : Table FeatureRow (SameKey fun r => r)}
    {hashes : List (UInt64 × String)} {m : FeatureMatch} (h : m ∈ lookupTable t hashes) :
    ∃ r ∈ t, r.memoryId = m.memoryId := by
  obtain ⟨p, -, h⟩ := List.mem_flatMap.1 h
  obtain ⟨r, hr, rfl⟩ := List.mem_map.1 h
  exact ⟨r, (List.mem_filter.1 hr).1, rfl⟩

/-- **Recognition names what is in the index.** -/
theorem residue_of_names {stimulus : String} (h : (ix.recognize rc stimulus).Names id) :
    ix.Residue id := by
  rcases matched_of_names h with ⟨m, hm, rfl⟩ | ⟨m, hm, rfl⟩
  · rcases List.mem_append.1 hm with hm | hm
    · exact ⟨Or.inr (Or.inl (memoryId_of_mem_lookupTable hm))⟩
    · exact ⟨Or.inr (Or.inr (Or.inl (memoryId_of_mem_lookupTable hm)))⟩
  · unfold minhashMatches at hm
    split at hm
    · obtain ⟨c, hc, rfl⟩ := List.mem_map.1 hm
      obtain ⟨id, -, hsig⟩ := List.mem_filterMap.1 hc
      obtain ⟨r, hr, rfl⟩ := Option.map_eq_some_iff.1 hsig
      obtain ⟨hmem, hid⟩ := Table.mem_of_find?_eq_some hr
      exact ⟨Or.inr (Or.inr (Or.inr (Or.inl ⟨r, hmem, of_decide_eq_true hid⟩)))⟩
    · cases hm

end RecognitionIndex

end Spectral
