import Spectral.Brain.Forget
import Spectral.Brain.Signing
import Spectral.Ingest.Strongest

/-!
# The report on derived fields

`derivation_health` reports on the strongest memories up to a limit.  It counts every entry of the
recognition index that is not one of theirs as orphaned; `repair_derivations` only does so when its
scan took in all of them.

* `derivationHealth` — the report.
* `orphansOnly_iff` — it counts entries without a memory only, if and only if every memory with an
  entry is among the strongest.
* `Mends`, `mended_repairWalk` — what a repair does to a row, and along its walk.
* `derivationHealth_iff` — the report, on any brain and after a repair.
-/

namespace Spectral

open Spectral.Lib

/-- `DerivationHealthReport`. -/
structure DerivationHealthReport where
  scanned : ℕ
  missingContentHash : ℕ
  missingDeclarativeDensity : ℕ
  missingSignature : ℕ
  orphanedRecognitionEntries : ℕ
  missingRecognitionEnrollment : ℕ
  deriving DecidableEq

/-- `is_healthy`. -/
def DerivationHealthReport.isHealthy (report : DerivationHealthReport) : Prop :=
  report.missingContentHash = 0 ∧ report.missingDeclarativeDensity = 0 ∧
    report.missingSignature = 0 ∧ report.missingRecognitionEnrollment = 0 ∧
    report.orphanedRecognitionEntries = 0

namespace BrainState

variable {L : WingCache}

section

variable (faults : RecognitionFaults) (limit : ℕ) (b : BrainState L)

/-- `derivation_health`.  When the index cannot be read, no memory counts as enrolled, and no entry
as orphaned. -/
def derivationHealth : DerivationHealthReport :=
  let memories := b.cached.store.listMemoriesBySignal 0 limit
  { scanned := memories.length
    missingContentHash := memories.countP fun m => decide (m.contentHash = none)
    missingDeclarativeDensity := memories.countP fun m => decide (m.declarativeDensity = none)
    missingSignature := memories.countP fun m => decide (m.signature = none)
    orphanedRecognitionEntries :=
      if faults.enrolledIds = true then 0
      else b.index.enrolledIds.countP fun id => decide (id ∉ memories.map MemoryRow.id)
    missingRecognitionEnrollment := memories.countP fun m =>
      !(decide (faults.isEnrolled = none) && b.index.isEnrolled m.id) }

/-- **Orphans only**: no more entries are reported than there are without a memory. -/
def OrphansOnly : Prop :=
  (b.derivationHealth faults limit).orphanedRecognitionEntries ≤
    b.index.enrolledIds.countP fun id => decide (¬ b.cached.store.HasMemory id)

/-- The memory is among the first `limit`. -/
def Listed (r : MemoryRow) : Prop :=
  0 ≤ r.signalScore ∧ (2 ^ 63 ≤ limit ∨ b.cached.store.stronger r < limit)

/-- **The condition** for a report: every memory with an entry is listed, or the entries cannot
be. -/
def HealthCovers : Prop :=
  faults.enrolledIds = true ∨
    ∀ r ∈ b.cached.store.memories, r.id ∈ b.index.enrolled → Listed limit b r

end

/-- How many memories have a score that is listed at all. -/
def scoredCount (b : BrainState L) : ℕ :=
  b.cached.store.memories.countWhere fun r => decide (0 ≤ r.signalScore)

/-- The id of such a memory. -/
def Scored (b : BrainState L) (id : String) : Prop :=
  ∃ r ∈ b.cached.store.memories.rows, 0 ≤ r.signalScore ∧ r.id = id

instance (b : BrainState L) (id : String) : Decidable (Scored b id) :=
  inferInstanceAs (Decidable (∃ r ∈ b.cached.store.memories.rows, _))

/-- **The condition** after a repair: the report has room for all of these memories, the repair could
list and drop the other entries, and the report can read the index. -/
structure RepairCovers (repairFaults faults : RecognitionFaults) (limit : ℕ) (b : BrainState L) :
    Prop where
  enrolled : faults.isEnrolled = none ∨ limit = 0 ∨ scoredCount b = 0
  orphans : faults.enrolledIds = true ∨ (2 ^ 63 ≤ limit ∨ scoredCount b ≤ limit) ∧
    ∀ id ∈ b.index.enrolled, ¬ Scored b id →
      repairFaults.enrolledIds = false ∧ repairFaults.forget id = false

/-! ## The listing -/

variable {faults : RecognitionFaults} {limit : ℕ} {b : BrainState L} {r : MemoryRow}

theorem mem_listed_iff (hr : r ∈ b.cached.store.memories) :
    r ∈ b.cached.store.listMemoriesBySignal 0 limit ↔ Listed limit b r := by
  unfold Listed
  by_cases hsignal : 0 ≤ r.signalScore
  · rw [and_iff_right hsignal]
    rcases Nat.lt_or_ge limit (2 ^ 63) with hlimit | hlimit
    · rw [or_iff_right hlimit.not_ge]
      exact Store.mem_listMemoriesBySignal_iff hlimit hr hsignal
    · refine iff_of_true ?_ (Or.inl hlimit)
      rw [Store.listMemoriesBySignal, sqlLimit, if_neg hlimit.not_gt, List.mem_insertionSort,
        List.mem_filter]
      exact ⟨hr, decide_eq_true hsignal⟩
  · exact iff_of_false (fun h => hsignal (Store.signalScore_of_mem_listMemoriesBySignal h))
      fun h => hsignal h.1

theorem mem_listed_ids_iff {id : String} :
    id ∈ (b.cached.store.listMemoriesBySignal 0 limit).map MemoryRow.id ↔
      ∃ r ∈ b.cached.store.memories, r.id = id ∧ Listed limit b r := by
  rw [List.mem_map]
  constructor
  · rintro ⟨r, hr, rfl⟩
    have hmem := Store.mem_of_mem_listMemoriesBySignal hr
    exact ⟨r, hmem, rfl, (mem_listed_iff hmem).1 hr⟩
  · rintro ⟨r, hmem, rfl, hlisted⟩
    exact ⟨r, (mem_listed_iff hmem).2 hlisted, rfl⟩

theorem mem_enrolledIds_iff {id : String} : id ∈ b.index.enrolledIds ↔ id ∈ b.index.enrolled :=
  List.mem_insertionSort _

/-- **A report** counts entries without a memory only, if and only if it covers the others. -/
theorem orphansOnly_iff : OrphansOnly faults limit b ↔ HealthCovers faults limit b := by
  unfold OrphansOnly HealthCovers derivationHealth
  dsimp only
  by_cases hfault : faults.enrolledIds = true
  · rw [if_pos hfault]
    exact iff_of_true (Nat.zero_le _) (Or.inl hfault)
  rw [if_neg hfault, or_iff_right hfault]
  have hdead : ∀ id, ¬ b.cached.store.HasMemory id →
      id ∉ (b.cached.store.listMemoriesBySignal 0 limit).map MemoryRow.id := by
    intro id hgone hid
    obtain ⟨r, hr, hrid, -⟩ := mem_listed_ids_iff.1 hid
    exact hgone ⟨r, hr, hrid⟩
  have hcount : (b.index.enrolledIds.countP fun id => decide (¬ b.cached.store.HasMemory id)) =
      b.index.enrolledIds.countP fun id =>
        decide (id ∉ (b.cached.store.listMemoriesBySignal 0 limit).map MemoryRow.id) &&
          decide (¬ b.cached.store.HasMemory id) := by
    refine List.countP_congr fun id _ => ?_
    rw [Bool.and_eq_true, decide_eq_true_iff, decide_eq_true_iff]
    exact ⟨fun hgone => ⟨hdead id hgone, hgone⟩, And.right⟩
  have hle : (b.index.enrolledIds.countP fun id =>
      decide (id ∉ (b.cached.store.listMemoriesBySignal 0 limit).map MemoryRow.id) &&
        decide (¬ b.cached.store.HasMemory id)) ≤ b.index.enrolledIds.countP fun id =>
          decide (id ∉ (b.cached.store.listMemoriesBySignal 0 limit).map MemoryRow.id) :=
    List.countP_mono_left fun id _ h => Bool.and_elim_left h
  rw [hcount, hle.ge_iff_eq', countP_eq_countP_and_iff]
  constructor
  · intro hunlisted r hr hentry
    by_contra hnot
    refine of_decide_eq_true (hunlisted r.id (mem_enrolledIds_iff.2 hentry)
      (decide_eq_true fun hid => ?_)) ⟨r, hr, rfl⟩
    obtain ⟨r', hr', hid', hlisted⟩ := mem_listed_ids_iff.1 hid
    exact hnot (Store.eq_of_id hr' hr hid' ▸ hlisted)
  · intro hlisted id hid hmissing
    refine decide_eq_true fun hlive => ?_
    obtain ⟨r, hr, rfl⟩ := hlive
    exact of_decide_eq_true hmissing
      (mem_listed_ids_iff.2 ⟨r, hr, rfl, hlisted r hr (mem_enrolledIds_iff.1 hid)⟩)

/-! ## What a repair does to a row -/

/-- A row after a repair: what was there stays, and some memories have a density, some a
signature. -/
structure Mends (dense signed : List String) (r r' : MemoryRow) : Prop where
  id : r'.id = r.id
  signalScore : r'.signalScore = r.signalScore
  contentHash : r.contentHash ≠ none → r'.contentHash ≠ none
  density : r.declarativeDensity ≠ none ∨ r.id ∈ dense → r'.declarativeDensity ≠ none
  signature : r.signature ≠ none ∨ r.id ∈ signed → r'.signature ≠ none

/-- Every row is mended, and there is no other. -/
structure Mended (dense signed : List String) (s s' : Store) : Prop where
  forward : ∀ r ∈ s.memories, ∃ r' ∈ s'.memories, Mends dense signed r r'
  backward : ∀ r' ∈ s'.memories, ∃ r ∈ s.memories, Mends dense signed r r'

variable {S : BrainSetup} {now : String} {dense dense' signed signed' : List String}
  {s s' s'' : Store} {memory : MemoryRow} {memories : List MemoryRow}
  {report report' : DerivationRepairReport}

theorem Mends.trans {r' r'' : MemoryRow} (h : Mends dense signed r r')
    (h' : Mends dense' signed' r' r'') : Mends (dense ++ dense') (signed ++ signed') r r'' where
  id := h'.id.trans h.id
  signalScore := h'.signalScore.trans h.signalScore
  contentHash := fun hhash => h'.contentHash (h.contentHash hhash)
  density := by
    rw [List.mem_append, ← or_assoc]
    rintro (hearlier | hlater)
    · exact h'.density (Or.inl (h.density hearlier))
    · exact h'.density (Or.inr (h.id ▸ hlater))
  signature := by
    rw [List.mem_append, ← or_assoc]
    rintro (hearlier | hlater)
    · exact h'.signature (Or.inl (h.signature hearlier))
    · exact h'.signature (Or.inr (h.id ▸ hlater))

theorem Mended.trans (h : Mended dense signed s s') (h' : Mended dense' signed' s' s'') :
    Mended (dense ++ dense') (signed ++ signed') s s'' where
  forward r hr := by
    obtain ⟨r', hr', hrow⟩ := h.forward r hr
    obtain ⟨r'', hr'', hrow'⟩ := h'.forward r' hr'
    exact ⟨r'', hr'', hrow.trans hrow'⟩
  backward r'' hr'' := by
    obtain ⟨r', hr', hrow'⟩ := h'.backward r'' hr''
    obtain ⟨r, hr, hrow⟩ := h.backward r' hr'
    exact ⟨r, hr, hrow.trans hrow'⟩

/-- Nothing is to be done for rows that have what they should. -/
theorem Mended.of_self
    (hdense : ∀ r ∈ s.memories, r.id ∈ dense → r.declarativeDensity ≠ none)
    (hsigned : ∀ r ∈ s.memories, r.id ∈ signed → r.signature ≠ none) : Mended dense signed s s := by
  have hself : ∀ r ∈ s.memories, Mends dense signed r r := fun r hr =>
    ⟨rfl, rfl, id, fun h => h.elim id (hdense r hr), fun h => h.elim id (hsigned r hr)⟩
  exact ⟨fun r hr => ⟨r, hr, hself r hr⟩, fun r hr => ⟨r, hr, hself r hr⟩⟩

theorem mended_updateMemories {p : MemoryRow → Bool} {g : MemoryRow → MemoryRow}
    {hg : ∀ r, (g r).id = r.id ∧ (g r).key = r.key}
    (h : ∀ r, Mends dense signed r (if p r then g r else r)) :
    Mended dense signed s (s.updateMemories p g hg) where
  forward r hr := ⟨_, Store.mem_memories_updateMemories.2 ⟨r, hr, rfl⟩, h r⟩
  backward r' hr' := by
    obtain ⟨r, hr, rfl⟩ := Store.mem_memories_updateMemories.1 hr'
    exact ⟨r, hr, h r⟩

/-- What a scan says of a memory still holds of its row. -/
structure Current (memory : MemoryRow) (s : Store) : Prop where
  density : memory.declarativeDensity ≠ none →
    ∀ r ∈ s.memories, r.id = memory.id → r.declarativeDensity ≠ none
  signature : memory.signature ≠ none → ∀ r ∈ s.memories, r.id = memory.id → r.signature ≠ none

theorem Current.mended (h : Current memory s) (hmended : Mended dense signed s s') :
    Current memory s' where
  density hm r' hr' hid := by
    obtain ⟨r, hr, hrow⟩ := hmended.backward r' hr'
    exact hrow.density (Or.inl (h.density hm r hr (hrow.id.symm.trans hid)))
  signature hm r' hr' hid := by
    obtain ⟨r, hr, hrow⟩ := hmended.backward r' hr'
    exact hrow.signature (Or.inl (h.signature hm r hr (hrow.id.symm.trans hid)))

/-! ## Along the walk -/

theorem mended_repairDensity (h : Current memory b.cached.store) :
    Mended [memory.id] [] b.cached.store (b.repairDensity S now report memory).1.cached.store := by
  unfold repairDensity
  by_cases hdensity : memory.declarativeDensity = none
  · rw [if_pos hdensity]
    show Mended _ _ _ (b.cached.store.setDeclarativeDensity memory.id _)
    refine mended_updateMemories fun r => ?_
    by_cases hid : r.id = memory.id
    · rw [if_pos (decide_eq_true hid)]
      exact ⟨rfl, rfl, id, fun _ => nofun, fun h => h.elim id nofun⟩
    · rw [if_neg (by simpa using hid)]
      exact ⟨rfl, rfl, id, fun h => h.elim id fun hin => absurd (List.mem_singleton.1 hin) hid,
        fun h => h.elim id nofun⟩
  · rw [if_neg hdensity]
    exact .of_self (fun r hr hin => h.density hdensity r hr (List.mem_singleton.1 hin))
      fun r _ hin => absurd hin List.not_mem_nil

theorem mended_repairSignature (hhash : memory.contentHash ≠ none)
    (h : Current memory b.cached.store) : Mended [] [memory.id] b.cached.store
      (b.repairSignature S now report memory).1.cached.store := by
  obtain ⟨contentHash, hsome⟩ := Option.ne_none_iff_exists'.1 hhash
  unfold repairSignature MemoryRow.signedFields
  rw [hsome, Option.map_some]
  cases hsignature : memory.signature with
  | some signature =>
    exact .of_self (fun r _ hin => absurd hin List.not_mem_nil) fun r hr hin =>
      h.signature (by rw [hsignature]; nofun) r hr (List.mem_singleton.1 hin)
  | none =>
    dsimp only
    rw [store_signAs]
    refine mended_updateMemories fun r => ?_
    by_cases hid : r.id = memory.id
    · rw [if_pos (decide_eq_true hid)]
      exact ⟨rfl, rfl, id, fun h => h.elim id nofun, fun _ => nofun⟩
    · rw [if_neg (by simpa using hid)]
      exact ⟨rfl, rfl, id, fun h => h.elim id nofun,
        fun h => h.elim id fun hin => absurd (List.mem_singleton.1 hin) hid⟩

theorem index_repairSigned {memory : MemoryRow} :
    ((b.repairDensity S now report memory).1.repairSignature S now
      (b.repairDensity S now report memory).2 memory).1.index = b.index := by
  have hdense : (b.repairDensity S now report memory).1.index = b.index := by
    unfold repairDensity
    split <;> rfl
  rw [← hdense]
  generalize b.repairDensity S now report memory = step
  unfold repairSignature
  split <;> rfl

/-- **One memory** of the walk has a density, a signature and an entry afterwards. -/
theorem mended_repairOne {b' : BrainState L} {faults : RecognitionFaults}
    (hhash : memory.contentHash ≠ none) (h : Current memory b.cached.store)
    (hok : b.repairOne S now faults report memory = (b', .ok report')) :
    Mended [memory.id] [memory.id] b.cached.store b'.cached.store ∧
      ∀ id, id ∈ b'.index.enrolled ↔ id ∈ b.index.enrolled ∨ id = memory.id := by
  have hdense : Mended [memory.id] [] b.cached.store
      (b.repairDensity S now report memory).1.cached.store := mended_repairDensity h
  have hsigned : Mended [] [memory.id] (b.repairDensity S now report memory).1.cached.store
      ((b.repairDensity S now report memory).1.repairSignature S now
        (b.repairDensity S now report memory).2 memory).1.cached.store :=
    mended_repairSignature hhash (h.mended hdense)
  have hmended := hdense.trans hsigned
  have hindex := @index_repairSigned L b S now report memory
  unfold repairOne at hok
  dsimp only at hok
  generalize (b.repairDensity S now report memory).1.repairSignature S now
    (b.repairDensity S now report memory).2 memory = step at hok hmended hindex
  have hmarked := fun id => @RecognitionIndex.mem_enrolled_enroll S.rc step.1.index memory.id id
    memory.content (faults.enroll memory.id)
  split at hok
  · rename_i index _ henroll
    cases hok
    refine ⟨hmended, fun id => ?_⟩
    have hid := hmarked id
    rw [henroll, hindex] at hid
    simpa using hid
  · cases hok

/-- **A walk** that ends well. -/
theorem mended_repairWalk {b' : BrainState L} {faults : RecognitionFaults}
    (hhash : ∀ memory ∈ memories, memory.contentHash ≠ none)
    (h : ∀ memory ∈ memories, Current memory b.cached.store)
    (hok : b.repairWalk S now faults report memories = (b', .ok report')) :
    Mended (memories.map MemoryRow.id) (memories.map MemoryRow.id) b.cached.store
        b'.cached.store ∧
      ∀ id, id ∈ b'.index.enrolled ↔ id ∈ b.index.enrolled ∨ id ∈ memories.map MemoryRow.id := by
  induction memories generalizing b report with
  | nil =>
    cases hok
    exact ⟨.of_self (fun _ _ => nofun) fun _ _ => nofun, by simp⟩
  | cons memory memories ih =>
    unfold repairWalk at hok
    obtain ⟨hfirst, hrest⟩ := List.forall_mem_cons.1 hhash
    obtain ⟨hcurrent, hcurrent'⟩ := List.forall_mem_cons.1 h
    split at hok
    · rename_i b₁ report₁ hone
      obtain ⟨hmended, hindex⟩ := mended_repairOne hfirst hcurrent hone
      obtain ⟨hmended', hindex'⟩ := ih hrest (fun m hm => (hcurrent' m hm).mended hmended) hok
      refine ⟨hmended.trans hmended', fun id => ?_⟩
      rw [hindex', hindex, List.map_cons, List.mem_cons, or_assoc]
    · cases hok

/-! ## After a repair -/

variable {b' : BrainState L}

theorem mended_backfillContentHashes (env : Env) : Mended [] [] s (s.backfillContentHashes env) := by
  refine mended_updateMemories fun r => ?_
  split
  · exact ⟨rfl, rfl, fun _ => nofun, fun h => h.elim id nofun, fun h => h.elim id nofun⟩
  · exact ⟨rfl, rfl, id, fun h => h.elim id nofun, fun h => h.elim id nofun⟩

theorem contentHash_backfillContentHashes (env : Env) :
    ∀ r ∈ (s.backfillContentHashes env).memories, r.contentHash ≠ none := by
  intro r' hr'
  obtain ⟨r, -, rfl⟩ := Store.mem_memories_updateMemories.1 hr'
  split
  · exact nofun
  · rename_i h
    simpa using h

/-- What a repair leaves that went through and scanned all memories. -/
structure Repaired (repairFaults : RecognitionFaults) (b b' : BrainState L) : Prop where
  hashes : ∀ r ∈ b'.cached.store.memories, r.contentHash ≠ none
  densities : ∀ r ∈ b'.cached.store.memories, 0 ≤ r.signalScore → r.declarativeDensity ≠ none
  signatures : ∀ r ∈ b'.cached.store.memories, 0 ≤ r.signalScore → r.signature ≠ none
  scored : ∀ id, Scored b' id ↔ Scored b id
  entries : ∀ id, id ∈ b'.index.enrolled ↔ Scored b id ∨ id ∈ b.index.enrolled ∧
    (repairFaults.enrolledIds = true ∨ repairFaults.forget id = true)

theorem scored_of_mended (h : Mended dense signed b.cached.store b'.cached.store) (id : String) :
    Scored b' id ↔ Scored b id := by
  constructor
  · rintro ⟨r', hr', hscore, rfl⟩
    obtain ⟨r, hr, hrow⟩ := h.backward r' hr'
    exact ⟨r, hr, hrow.signalScore ▸ hscore, hrow.id.symm⟩
  · rintro ⟨r, hr, hscore, rfl⟩
    obtain ⟨r', hr', hrow⟩ := h.forward r hr
    exact ⟨r', hr', hrow.signalScore.symm ▸ hscore, hrow.id⟩

section

variable {m : ℕ} (hm : b.cached.store.memories.rows.length < m)

include hm

theorem length_repairScan : (b.repairScan S now m).length < m := by
  rw [repairScan_eq, List.length_map, Store.length_listMemoriesBySignal_lt_iff]
  exact List.countP_le_length.trans_lt hm

/-- A limit above the number of memories leaves none out. -/
theorem mem_repairScan_iff {r : MemoryRow} : r ∈ b.repairScan S now m ↔
    r ∈ (b.cached.store.backfillContentHashes S.env).memories ∧ 0 ≤ r.signalScore :=
  Store.mem_listMemoriesBySignal (length_repairScan hm)

theorem mem_map_id_repairScan_iff (id : String) :
    id ∈ (b.repairScan S now m).map MemoryRow.id ↔ Scored b id := by
  have hmended : Mended [] [] b.cached.store
      (b.applyStore S ⟨.backfillContentHashes, now⟩).cached.store := mended_backfillContentHashes S.env
  rw [← scored_of_mended hmended, List.mem_map]
  constructor
  · rintro ⟨r, hr, rfl⟩
    obtain ⟨hr, hscore⟩ := (mem_repairScan_iff hm).1 hr
    exact ⟨r, hr, hscore, rfl⟩
  · rintro ⟨r, hr, hscore, rfl⟩
    exact ⟨r, (mem_repairScan_iff hm).2 ⟨hr, hscore⟩, rfl⟩

theorem current_of_mem_repairScan {memory : MemoryRow} (hmemory : memory ∈ b.repairScan S now m) :
    Current memory (b.cached.store.backfillContentHashes S.env) := by
  have hrow : ∀ r ∈ (b.cached.store.backfillContentHashes S.env).memories, r.id = memory.id →
      r = memory :=
    fun r hr hid => Store.eq_of_id hr ((mem_repairScan_iff hm).1 hmemory).1 hid
  exact ⟨fun hm r hr hid => hrow r hr hid ▸ hm, fun hm r hr hid => hrow r hr hid ▸ hm⟩

end

theorem repaired_of_ok {repairFaults : RecognitionFaults} {m : ℕ}
    (hm : b.cached.store.memories.rows.length < m)
    (hok : (b.repairDerivations S now repairFaults m).2 = .ok report) :
    Repaired repairFaults b (b.repairDerivations S now repairFaults m).1 := by
  set hashed := b.applyStore S ⟨.backfillContentHashes, now⟩ with hhashed
  have hmended : Mended [] [] b.cached.store hashed.cached.store := mended_backfillContentHashes S.env
  have hhashes : ∀ r ∈ hashed.cached.store.memories, r.contentHash ≠ none :=
    contentHash_backfillContentHashes S.env
  unfold repairDerivations at hok ⊢
  dsimp only at hok ⊢
  rw [← hhashed] at hok ⊢
  split at hok
  · cases hok
  · rename_i b₁ report₁ hwalk
    obtain ⟨hwalked, hindex⟩ := mended_repairWalk
      (fun memory hmemory => hhashes memory ((mem_repairScan_iff hm).1 hmemory).1)
      (fun _ => current_of_mem_repairScan hm) hwalk
    have hscanned : report₁.scanned < m := (scanned_repairWalk hwalk).trans_lt (length_repairScan hm)
    rw [if_pos hscanned]
    have hall := hmended.trans hwalked
    have hmissing : ∀ r' ∈ b₁.cached.store.memories, 0 ≤ r'.signalScore →
        r'.declarativeDensity ≠ none ∧ r'.signature ≠ none := by
      intro r' hr' hscore
      obtain ⟨r, hr, hrow⟩ := hall.backward r' hr'
      have hid : r.id ∈ (b.repairScan S now m).map MemoryRow.id :=
        (mem_map_id_repairScan_iff hm r.id).2 ⟨r, hr, hrow.signalScore ▸ hscore, rfl⟩
      exact ⟨hrow.density (Or.inr hid), hrow.signature (Or.inr hid)⟩
    refine ⟨?_, ?_, ?_, ?_, fun id => ?_⟩
    · rw [store_pruneOrphans]
      intro r' hr'
      obtain ⟨r, hr, hrow⟩ := hwalked.backward r' hr'
      exact hrow.contentHash (hhashes r hr)
    · rw [store_pruneOrphans]
      exact fun r' hr' hscore => (hmissing r' hr' hscore).1
    · rw [store_pruneOrphans]
      exact fun r' hr' hscore => (hmissing r' hr' hscore).2
    · unfold Scored
      rw [store_pruneOrphans]
      exact scored_of_mended hall
    · rw [mem_enrolled_pruneOrphans_iff, hindex, mem_map_id_repairScan_iff hm]
      have hhashedIndex : hashed.index = b.index := rfl
      rw [hhashedIndex]
      tauto

/-- The memories that score have ids of their own. -/
theorem scoredCount_eq_of_iff (h : ∀ id, Scored b' id ↔ Scored b id) : scoredCount b' = scoredCount b := by
  have hids : ∀ b : BrainState L, ∃ ids : List String, ids.Nodup ∧ (∀ id, id ∈ ids ↔ Scored b id) ∧
      ids.length = scoredCount b := by
    intro b
    refine ⟨(b.cached.store.memories.rows.filter fun r => decide (0 ≤ r.signalScore)).map
      MemoryRow.id, ?_, fun id => ?_, ?_⟩
    · exact List.Pairwise.map _ (fun _ _ h => h) (b.cached.store.pairwise_ids.filter _)
    · simp [Scored, and_assoc]
    · rw [List.length_map, ← List.countP_eq_length_filter]
      rfl
  obtain ⟨ids, hnodup, hmem, hlength⟩ := hids b
  obtain ⟨ids', hnodup', hmem', hlength'⟩ := hids b'
  have hperm : ids'.Perm ids := (List.perm_ext_iff_of_nodup hnodup' hnodup).2 fun id =>
    (hmem' id).trans ((h id).trans (hmem id).symm)
  rw [← hlength, ← hlength', hperm.length_eq]

/-- No memory is reported without an entry, when the index can be read. -/
theorem Repaired.unenrolled_eq_zero_iff {repairFaults : RecognitionFaults}
    (h : Repaired repairFaults b b')
    (hentries : ∀ r ∈ b'.cached.store.listMemoriesBySignal 0 limit, r.id ∈ b'.index.enrolled) :
    ((b'.cached.store.listMemoriesBySignal 0 limit).countP fun m =>
      !(decide (faults.isEnrolled = none) && b'.index.isEnrolled m.id)) = 0 ↔
      faults.isEnrolled = none ∨ limit = 0 ∨ scoredCount b = 0 := by
  have hempty : b'.cached.store.listMemoriesBySignal 0 limit = [] ↔ limit = 0 ∨ scoredCount b = 0 := by
    rw [← scoredCount_eq_of_iff h.scored, scoredCount, Table.countWhere,
      List.countP_eq_length_filter, List.length_eq_zero_iff]
    generalize hrows : b'.cached.store.memories.rows.filter (fun r => decide (0 ≤ r.signalScore)) =
      rows
    rw [Store.listMemoriesBySignal, hrows, sqlLimit]
    have hsort : rows.insertionSort MemoryRow.StrongerFirst = [] ↔ rows = [] := by
      rw [← List.length_eq_zero_iff, List.length_insertionSort, List.length_eq_zero_iff]
    split
    · rw [List.take_eq_nil_iff, hsort]
    · rename_i hlimit
      rw [hsort, or_iff_right (by omega)]
  rw [List.countP_eq_zero]
  cases hfault : faults.isEnrolled with
  | none =>
    refine iff_of_true (fun r hr => ?_) (Or.inl rfl)
    have hentry : b'.index.isEnrolled r.id = true := decide_eq_true (hentries r hr)
    simp [hentry]
  | some e =>
    rw [or_iff_right (Option.some_ne_none e), ← hempty, List.eq_nil_iff_forall_not_mem]
    exact forall₂_congr fun r _ => by simp

/-- No entry is reported as orphaned, when there is room for the memories that score, and nothing is
left of the others. -/
theorem Repaired.orphans_iff {repairFaults : RecognitionFaults} (h : Repaired repairFaults b b') :
    (if faults.enrolledIds = true then 0 else b'.index.enrolledIds.countP fun id =>
      decide (id ∉ (b'.cached.store.listMemoriesBySignal 0 limit).map MemoryRow.id)) = 0 ↔
      faults.enrolledIds = true ∨ (2 ^ 63 ≤ limit ∨ scoredCount b ≤ limit) ∧
        ∀ id ∈ b.index.enrolled, ¬ Scored b id →
          repairFaults.enrolledIds = false ∧ repairFaults.forget id = false := by
  by_cases hfault : faults.enrolledIds = true
  · rw [if_pos hfault]
    exact iff_of_true rfl (Or.inl hfault)
  rw [if_neg hfault, or_iff_right hfault, List.countP_eq_zero, ← scoredCount_eq_of_iff h.scored]
  have hroom := @Store.forall_mem_listMemoriesBySignal_iff b'.cached.store 0 limit
  unfold scoredCount
  rw [← hroom]
  constructor
  · intro hall
    have hlisted : ∀ id, id ∈ b'.index.enrolled →
        id ∈ (b'.cached.store.listMemoriesBySignal 0 limit).map MemoryRow.id := by
      intro id hid
      simpa using hall id (mem_enrolledIds_iff.2 hid)
    refine ⟨fun r hr hscore => ?_, fun id hid hnot => ?_⟩
    · have hscored : Scored b r.id := (h.scored r.id).1 ⟨r, hr, hscore, rfl⟩
      obtain ⟨r', hr', hid⟩ := List.mem_map.1 (hlisted r.id ((h.entries r.id).2 (Or.inl hscored)))
      exact Store.eq_of_id (Store.mem_of_mem_listMemoriesBySignal hr') hr hid ▸ hr'
    · by_contra hleft
      have hfaulty : repairFaults.enrolledIds = true ∨ repairFaults.forget id = true := by
        by_contra hnone
        rw [not_or, Bool.not_eq_true, Bool.not_eq_true] at hnone
        exact hleft hnone
      obtain ⟨r', hr', rfl⟩ := List.mem_map.1 (hlisted id ((h.entries id).2 (Or.inr ⟨hid, hfaulty⟩)))
      exact hnot ((h.scored r'.id).1 ⟨r', Store.mem_of_mem_listMemoriesBySignal hr',
        Store.signalScore_of_mem_listMemoriesBySignal hr', rfl⟩)
  · rintro ⟨hlisted, hdropped⟩ id hid
    have hin : id ∈ (b'.cached.store.listMemoriesBySignal 0 limit).map MemoryRow.id := by
      rcases (h.entries id).1 (mem_enrolledIds_iff.1 hid) with hscored | ⟨hold, hfaulty⟩
      · obtain ⟨r, hr, hscore, rfl⟩ := (h.scored id).2 hscored
        exact List.mem_map_of_mem (hlisted r hr hscore)
      · by_cases hscored : Scored b id
        · obtain ⟨r, hr, hscore, rfl⟩ := (h.scored id).2 hscored
          exact List.mem_map_of_mem (hlisted r hr hscore)
        · obtain ⟨hlist, hforget⟩ := hdropped id hold hscored
          simp [hlist, hforget] at hfaulty
    simpa using hin

/-- **A report after a repair** finds nothing, if and only if it covers what the repair left. -/
theorem Repaired.isHealthy_iff {repairFaults : RecognitionFaults} (h : Repaired repairFaults b b') :
    (b'.derivationHealth faults limit).isHealthy ↔ RepairCovers repairFaults faults limit b := by
  set listed := b'.cached.store.listMemoriesBySignal 0 limit with hlisted
  have hmem : ∀ r ∈ listed, r ∈ b'.cached.store.memories ∧ 0 ≤ r.signalScore := fun r hr =>
    ⟨Store.mem_of_mem_listMemoriesBySignal hr, Store.signalScore_of_mem_listMemoriesBySignal hr⟩
  have hhashes : listed.countP (fun m => decide (m.contentHash = none)) = 0 :=
    List.countP_eq_zero.2 fun r hr => by simpa using h.hashes r (hmem r hr).1
  have hdensities : listed.countP (fun m => decide (m.declarativeDensity = none)) = 0 :=
    List.countP_eq_zero.2 fun r hr => by simpa using h.densities r (hmem r hr).1 (hmem r hr).2
  have hsignatures : listed.countP (fun m => decide (m.signature = none)) = 0 :=
    List.countP_eq_zero.2 fun r hr => by simpa using h.signatures r (hmem r hr).1 (hmem r hr).2
  have hentries : ∀ r ∈ listed, r.id ∈ b'.index.enrolled := fun r hr =>
    (h.entries r.id).2 (Or.inl ((h.scored r.id).1 ⟨r, (hmem r hr).1, (hmem r hr).2, rfl⟩))
  unfold derivationHealth DerivationHealthReport.isHealthy
  dsimp only
  rw [← hlisted, hhashes, hdensities, hsignatures]
  simp only [true_and]
  refine (and_congr (h.unenrolled_eq_zero_iff hentries) (h.orphans_iff)).trans ⟨?_, ?_⟩
  · rintro ⟨henrolled, horphans⟩
    exact ⟨henrolled, horphans⟩
  · rintro ⟨henrolled, horphans⟩
    exact ⟨henrolled, horphans⟩

/-- **Every brain**, before a repair and after it. -/
theorem derivationHealth_iff (S : BrainSetup) (now : String) (repairFaults faults : RecognitionFaults)
    (b : BrainState L) (limit : ℕ) :
    (OrphansOnly faults limit b ↔ HealthCovers faults limit b) ∧
    ∀ m report, b.cached.store.memories.rows.length < m →
      (b.repairDerivations S now repairFaults m).2 = .ok report →
        (((b.repairDerivations S now repairFaults m).1.derivationHealth faults limit).isHealthy ↔
          RepairCovers repairFaults faults limit b) :=
  ⟨orphansOnly_iff, fun _ _ hm hok => (repaired_of_ok hm hok).isHealthy_iff⟩

/-! ## Two notes, and a report on one -/

/-- The brain of the author with two notes. -/
def twoNotes : BrainState wingCache :=
  (((opened wingCache).remember diaryBrain "2026-01-02 09:00:00" "2026-01-02 08:30:00" {} "note"
    note.content {} []).1.remember diaryBrain "2026-01-02 09:05:00" "2026-01-02 08:35:00" {} "note 2"
    editedNote.content {} []).1

/-- A report on all of them, after a repair, is healthy. -/
theorem healthy_after_repair : OrphansOnly {} 10 twoNotes ∧
    ((twoNotes.repairDerivations diaryBrain "2026-01-03 09:00:00" {} 10).1.derivationHealth {}
      10).isHealthy := by
  obtain ⟨horphans, hrepair⟩ :=
    derivationHealth_iff diaryBrain "2026-01-03 09:00:00" {} {} twoNotes 10
  have hlisted : ∀ r ∈ twoNotes.cached.store.memories.rows, 0 ≤ r.signalScore ∧
      (2 ^ 63 ≤ 10 ∨ twoNotes.cached.store.stronger r < 10) := by decide +kernel
  have hscored : scoredCount twoNotes ≤ 10 := by decide +kernel
  have hentries : ∀ id ∈ twoNotes.index.enrolled.rows, Scored twoNotes id := by decide +kernel
  have hroom : twoNotes.cached.store.memories.rows.length < 10 := by decide +kernel
  have hok : (twoNotes.repairDerivations diaryBrain "2026-01-03 09:00:00" {} 10).2.isOk = true := by
    decide +kernel
  refine ⟨horphans.2 (Or.inr fun r hr _ => hlisted r hr), ?_⟩
  cases hrepaired : (twoNotes.repairDerivations diaryBrain "2026-01-03 09:00:00" {} 10).2 with
  | error e =>
    rw [hrepaired] at hok
    cases hok
  | ok report =>
    exact (hrepair 10 report hroom hrepaired).2 ⟨Or.inl rfl, Or.inr ⟨Or.inr hscored,
      fun id hid hnot => absurd (hentries id hid) hnot⟩⟩

/-- **A report on one of them** counts the other one as orphaned, before a repair and after it. -/
theorem other_note_orphaned :
    (twoNotes.derivationHealth {} 1).orphanedRecognitionEntries = 1 ∧ ¬ OrphansOnly {} 1 twoNotes ∧
      ((twoNotes.repairDerivations diaryBrain "2026-01-03 09:00:00" {} 10).1.derivationHealth {}
        1).orphanedRecognitionEntries = 1 := by
  have horphaned : (twoNotes.derivationHealth {} 1).orphanedRecognitionEntries = 1 := by
    decide +kernel
  have hnone : (twoNotes.index.enrolledIds.countP fun id =>
      decide (¬ twoNotes.cached.store.HasMemory id)) = 0 := by decide +kernel
  refine ⟨horphaned, fun h => ?_, by decide +kernel⟩
  unfold OrphansOnly at h
  rw [horphaned, hnone] at h
  exact absurd h (by decide)

end BrainState

end Spectral
