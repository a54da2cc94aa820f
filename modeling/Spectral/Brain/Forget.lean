import Spectral.Brain.Repair
import Spectral.Federation.Relay

/-!
# Verified forgetting

`Brain::forget` deletes the row under a key, deletes what the recognition index has under
`key_to_id(key)`, and probes recall and recognition for the content it found under that id.

* `ForgetsFully` — a report that says so is right: nothing of the row is left in the index, and
  no recall and no recognition returns it.
* `Verifiable` — the condition: what the index has of the row it has under `key_to_id(key)` and
  the delete goes through, or else the probes run and do not come out clear.
* `forgetsFully_iff_verifiable` — in every reachable brain the one holds exactly with the other.
* `imported_note_stays_enrolled` — a row imported from a peer has another id, under which a
  repair has enrolled it.
-/

namespace Spectral

open Spectral.Lib

/-- `VerificationStatus`. -/
inductive VerificationStatus where
  | verifiedClear
  | residualFound
  | verificationFailed (error : String)
  deriving DecidableEq

/-- `ForgetReport`. -/
structure ForgetReport where
  store : ForgetReceipt
  recognitionRemoved : Bool
  recallClear : Bool
  recognizeClear : Bool
  recallVerification : VerificationStatus
  recognitionVerification : VerificationStatus
  deriving DecidableEq

/-- `fully_forgotten`. -/
def ForgetReport.fullyForgotten (report : ForgetReport) : Bool :=
  report.store.existed && decide (report.recallVerification = .verifiedClear) &&
    decide (report.recognitionVerification = .verifiedClear)

namespace BrainState

variable {L : WingCache}

section

variable (S : BrainSetup) (now : String) (faults : RecognitionFaults)
  (recallFault : Option String) (b : BrainState L)

/-- The content `forget` finds to probe for. -/
def probeContent (key : String) : String :=
  ((b.getMemory (S.env.keyToId key)).map MemoryRow.content).getD ""

/-- The brain without the row and without what the index has under the id of the key. -/
def erase (key : String) : BrainState L :=
  let deleted := b.applyStore S ⟨.deleteMemoryByKey key, now⟩
  if faults.forget (S.env.keyToId key) = true then deleted
  else { deleted with index := (deleted.index.forget (S.env.keyToId key)).1 }

/-- The recall probe, with the default configuration in a private context. -/
def probeRecall (key content : String) : BrainState L × VerificationStatus :=
  match recallFault with
  | some e => (b, .verificationFailed e)
  | none =>
    let recalled := b.recallTopkFts S content 40 3 .priv
    (recalled.1, if recalled.2.any fun h => h.key = key then .residualFound else .verifiedClear)

/-- The recognition probe: the verdict, and then the marker. -/
def probeRecognition (memoryId content : String) : VerificationStatus :=
  match faults.recognize with
  | some e => .verificationFailed e
  | none =>
    if (b.index.recognize S.rc content).verdict = .recognized memoryId then .residualFound
    else match faults.isEnrolled with
      | some e => .verificationFailed e
      | none => if b.index.isEnrolled memoryId then .residualFound else .verifiedClear

/-- `forget`.  Without a row or without content there is nothing to probe for. -/
def forget (key : String) : BrainState L × ForgetReport :=
  let memoryId := S.env.keyToId key
  let content := b.probeContent S key
  let receipt := (b.cached.store.deleteMemoryByKey now key).2
  let erased := b.erase S now faults key
  let removed := !faults.forget memoryId && b.index.isEnrolled memoryId
  if receipt.existed = false ∨ content = "" then
    (erased, { store := receipt, recognitionRemoved := removed, recallClear := true,
               recognizeClear := true, recallVerification := .verifiedClear,
               recognitionVerification := .verifiedClear })
  else
    let probed := erased.probeRecall S recallFault key content
    let recognition := probed.1.probeRecognition S faults memoryId content
    (probed.1, { store := receipt, recognitionRemoved := removed,
                 recallClear := decide (probed.2 = .verifiedClear),
                 recognizeClear := decide (recognition = .verifiedClear),
                 recallVerification := probed.2, recognitionVerification := recognition })

/-- **A report that says so is right.** -/
def ForgetsFully (key : String) : Prop :=
  (b.forget S now faults recallFault key).2.fullyForgotten = true →
    ∀ r ∈ b.cached.store.memories, r.key = key →
      (¬ (b.forget S now faults recallFault key).1.index.Residue r.id ∧
        ¬ (b.forget S now faults recallFault key).1.index.Residue (S.env.keyToId key)) ∧
      ∀ q, ¬ (b.forget S now faults recallFault key).1.Returns S r q

/-- What the index has of the row it has under the id of the key, and the delete goes through. -/
def ErasesIndex (key : String) (r : MemoryRow) : Prop :=
  (b.index.Residue r.id → r.id = S.env.keyToId key ∧ faults.forget (S.env.keyToId key) = false) ∧
    (b.index.Residue (S.env.keyToId key) → faults.forget (S.env.keyToId key) = false)

/-- The probes run, and one of them fails or meets what a failed delete has left. -/
def Reports (key : String) : Prop :=
  b.probeContent S key ≠ "" ∧
    (recallFault ≠ none ∨ faults.recognize ≠ none ∨ faults.isEnrolled ≠ none ∨
      faults.forget (S.env.keyToId key) = true ∧ b.index.Residue (S.env.keyToId key))

/-- **The condition.**  The index is rid of the row, or the report says that it may not be. -/
def Verifiable (key : String) : Prop :=
  ∀ r ∈ b.cached.store.memories, r.key = key →
    b.ErasesIndex S faults key r ∨ b.Reports S faults recallFault key

end

/-! ## What a forget leaves -/

variable {S : BrainSetup} {now : String} {faults : RecognitionFaults}
  {recallFault : Option String} {b : BrainState L} {key : String}

theorem moves_erase : Moves S b (b.erase S now faults key) := by
  have hdeleted : Moves S b (b.applyStore S ⟨.deleteMemoryByKey key, now⟩) :=
    .single (.applyStore _)
  unfold erase
  dsimp only
  split
  · exact hdeleted
  · exact hdeleted.tail (.forget _)

theorem moves_recallTopkFts {query : String} {k fetchMult : ℕ} {visibility : Visibility} :
    Moves S b (b.recallTopkFts S query k fetchMult visibility).1 := by
  unfold recallTopkFts
  dsimp only
  split
  · exact .refl
  · split <;> exact .single (.withStore _)

theorem moves_probeRecall {content : String} :
    Moves S b (b.probeRecall S recallFault key content).1 := by
  unfold probeRecall
  split
  · exact .refl
  · exact moves_recallTopkFts

/-- **One forget** is a sequence of moves. -/
theorem moves_forget : Moves S b (b.forget S now faults recallFault key).1 := by
  unfold forget
  dsimp only
  split
  · exact moves_erase
  · exact moves_erase.trans moves_probeRecall

theorem store_erase :
    (b.erase S now faults key).cached.store = (b.cached.store.deleteMemoryByKey now key).1 := by
  unfold erase applyStore CachedStore.apply
  dsimp only
  split <;> split <;> rfl

theorem index_erase : (b.erase S now faults key).index =
    if faults.forget (S.env.keyToId key) = true then b.index
    else (b.index.forget (S.env.keyToId key)).1 := by
  unfold erase applyStore
  dsimp only
  split <;> rfl

theorem recallTopkFts_spares {query : String} {k fetchMult : ℕ} {visibility : Visibility} :
    (b.recallTopkFts S query k fetchMult visibility).1.cached.store.memories =
        b.cached.store.memories ∧
      (b.recallTopkFts S query k fetchMult visibility).1.index = b.index := by
  unfold recallTopkFts
  dsimp only
  split
  · exact ⟨rfl, rfl⟩
  · split <;> exact ⟨rfl, rfl⟩

theorem probeRecall_spares {content : String} :
    (b.probeRecall S recallFault key content).1.cached.store.memories = b.cached.store.memories ∧
      (b.probeRecall S recallFault key content).1.index = b.index := by
  unfold probeRecall
  split
  · exact ⟨rfl, rfl⟩
  · exact recallTopkFts_spares

/-- The probes leave the memories and the index as they are. -/
theorem forget_spares :
    (b.forget S now faults recallFault key).1.cached.store.memories =
        (b.cached.store.deleteMemoryByKey now key).1.memories ∧
      (b.forget S now faults recallFault key).1.index = (b.erase S now faults key).index := by
  have herased : (b.erase S now faults key).cached.store.memories =
      (b.cached.store.deleteMemoryByKey now key).1.memories := by rw [store_erase]
  unfold forget
  dsimp only
  split
  · exact ⟨herased, rfl⟩
  · obtain ⟨hmem, hindex⟩ := probeRecall_spares (S := S) (b := b.erase S now faults key)
    exact ⟨hmem.trans herased, hindex⟩

/-- The index afterwards: what it had, the entry under the id of the key excepted. -/
theorem residue_erase {id : String} :
    (b.erase S now faults key).index.Residue id ↔
      b.index.Residue id ∧
        (faults.forget (S.env.keyToId key) = false → id ≠ S.env.keyToId key) := by
  rw [index_erase]
  split
  · rename_i hfault
    rw [hfault]
    simp
  · rename_i hfault
    rw [RecognitionIndex.residue_forget]
    simp [hfault]

variable (now recallFault) in
/-- The delete erases the row from the index. -/
theorem erasesIndex_iff {r : MemoryRow} :
    b.ErasesIndex S faults key r ↔
      ¬ (b.forget S now faults recallFault key).1.index.Residue r.id ∧
        ¬ (b.forget S now faults recallFault key).1.index.Residue (S.env.keyToId key) := by
  unfold ErasesIndex
  rw [forget_spares.2, residue_erase, residue_erase]
  cases faults.forget (S.env.keyToId key) <;> simp

/-! ## What a forget reports -/

/-- A delete that finds its row clears the cache. -/
theorem coherent_erase (h : (b.cached.store.deleteMemoryByKey now key).2.existed = true) :
    (b.erase S now faults key).cached.Coherent := by
  have hcleared : (b.applyStore S ⟨.deleteMemoryByKey key, now⟩).cached.Coherent := by
    unfold applyStore CachedStore.apply
    dsimp only
    rw [if_pos h]
    exact CachedStore.coherent_cleared
  unfold erase
  dsimp only
  split <;> exact hcleared

theorem coherent_probeRecall {content : String} (h : b.cached.Coherent) :
    (b.probeRecall S recallFault key content).1.cached.Coherent := by
  have hlogged : ∀ json : String,
      (b.withStore (b.cached.store.logRetrievalEvent json)).cached.Coherent := by
    intro json
    exact CachedStore.coherent_kept h fun wing => Store.wingRows_of_memories_eq rfl wing
  unfold probeRecall
  split
  · exact h
  · unfold recallTopkFts
    dsimp only
    split
    · exact h
    · split <;> exact hlogged _

theorem coherent_forget (h : (b.cached.store.deleteMemoryByKey now key).2.existed = true) :
    (b.forget S now faults recallFault key).1.cached.Coherent := by
  unfold forget
  dsimp only
  split
  · exact coherent_erase h
  · exact coherent_probeRecall (coherent_erase h)

/-- The recall probe is clear once the row is deleted, when it runs. -/
theorem probeRecall_erase {content : String} :
    ((b.erase S now faults key).probeRecall S recallFault key content).2 = .verifiedClear ↔
      recallFault = none := by
  unfold probeRecall
  cases recallFault with
  | some e => exact iff_of_false nofun nofun
  | none =>
    have hclear : ∀ hit ∈ ((b.erase S now faults key).recallTopkFts S content 40 3 .priv).2,
        hit.key ≠ key := by
      intro hit hhit hkey
      obtain ⟨r, hr, -, hsame⟩ := stored_of_mem_recallTopkFts hhit
      rw [store_erase, Store.mem_memories_deleteMemoryByKey] at hr
      exact hr.2 (hsame.symm.trans hkey)
    refine iff_of_true (if_neg ?_) rfl
    simpa using hclear

/-- The recognition probe is clear when it runs and finds nothing. -/
theorem probeRecognition_eq {memoryId content : String} (h : b.index.Marked) :
    b.probeRecognition S faults memoryId content = .verifiedClear ↔
      faults.recognize = none ∧ faults.isEnrolled = none ∧ ¬ b.index.Residue memoryId := by
  have hverdict : (b.index.recognize S.rc content).verdict = .recognized memoryId →
      b.index.Residue memoryId := by
    intro hverdict
    exact RecognitionIndex.residue_of_names (Or.inr (Or.inr hverdict))
  unfold probeRecognition
  rw [h.residue_iff] at hverdict ⊢
  cases faults.recognize with
  | some e => simp
  | none =>
    cases faults.isEnrolled with
    | some e =>
      dsimp only
      split <;> simp
    | none =>
      dsimp only
      split
      · rename_i hrecognized
        simp [hverdict hrecognized]
      · simp [RecognitionIndex.isEnrolled]

/-- **The report is good** when there is a row and nothing to probe for, or the probes run and
the index has nothing under the id of the key. -/
theorem fullyForgotten_iff (h : b.index.Marked) :
    (b.forget S now faults recallFault key).2.fullyForgotten = true ↔
      (b.cached.store.deleteMemoryByKey now key).2.existed = true ∧
        ¬ b.Reports S faults recallFault key := by
  have hmarked : (b.erase S now faults key).index.Marked := marked_moves h moves_erase
  have hprobed : ((b.erase S now faults key).probeRecall S recallFault key
      (b.probeContent S key)).1.index = (b.erase S now faults key).index := probeRecall_spares.2
  unfold Reports forget ForgetReport.fullyForgotten
  dsimp only
  split
  · rename_i hnone
    rcases hnone with hnone | hnone
    · simp [hnone]
    · simp [hnone]
  · rename_i hsome
    rw [not_or, Bool.not_eq_false] at hsome
    obtain ⟨hexisted, hcontent⟩ := hsome
    rw [← hprobed] at hmarked
    dsimp only
    rw [Bool.and_eq_true, Bool.and_eq_true, decide_eq_true_iff, decide_eq_true_iff,
      probeRecall_erase, probeRecognition_eq hmarked, hprobed, residue_erase]
    cases faults.forget (S.env.keyToId key) <;> simp [hexisted, hcontent]

/-! ## Runs -/

end BrainState

/-- The operations of a brain.  `store` is any operation of its store, an import among them. -/
inductive BrainOp where
  | remember (key content since : String) (opts : RememberOpts) (fingerprints : List Fingerprint)
  | store (op : CachedOp)
  | recallTopkFts (query : String) (k fetchMult : ℕ) (visibility : Visibility)
  | repairDerivations (limit : ℕ)
  | forget (key : String) (recallFault : Option String)

/-- An operation, the time it is made at and what fails in it. -/
structure BrainCall where
  op : BrainOp
  now : String
  faults : RecognitionFaults := {}

namespace BrainState

/-- A new brain. -/
def opened (L : WingCache) : BrainState L where
  cached := { store := {}, cache := L.empty }

/-- What one call leaves. -/
def apply (S : BrainSetup) (b : BrainState L) (call : BrainCall) : BrainState L :=
  match call.op with
  | .remember key content since opts fingerprints =>
    (b.remember S call.now since call.faults key content opts fingerprints).1
  | .store op => b.applyStore S ⟨op, call.now⟩
  | .recallTopkFts query k fetchMult visibility =>
    (b.recallTopkFts S query k fetchMult visibility).1
  | .repairDerivations limit => (b.repairDerivations S call.now call.faults limit).1
  | .forget key recallFault => (b.forget S call.now call.faults recallFault key).1

theorem moves_apply (S : BrainSetup) (b : BrainState L) (call : BrainCall) :
    Moves S b (b.apply S call) := by
  obtain ⟨op, callNow, callFaults⟩ := call
  cases op with
  | remember key content since opts fingerprints => exact moves_remember
  | store op => exact .single (.applyStore _)
  | recallTopkFts query k fetchMult visibility => exact moves_recallTopkFts
  | repairDerivations limit => exact moves_repairDerivations
  | forget key recallFault => exact moves_forget

/-- In every reachable brain what is in the index has its marker. -/
theorem marked_run (S : BrainSetup) (calls : List BrainCall) :
    (run (apply S) (opened L) calls).index.Marked := by
  have hstep : ∀ (b : BrainState L) call, b.index.Marked → (b.apply S call).index.Marked :=
    fun b call h => marked_moves h (moves_apply S b call)
  exact run_invariant (I := fun b : BrainState L => b.index.Marked) hstep
    RecognitionIndex.marked_empty

/-- **A forget is verified exactly under the condition**, in every reachable brain. -/
theorem forgetsFully_iff_verifiable (S : BrainSetup) (L : WingCache) (calls : List BrainCall)
    (now : String) (faults : RecognitionFaults) (recallFault : Option String) (key : String) :
    (run (apply S) (opened L) calls).ForgetsFully S now faults recallFault key ↔
      (run (apply S) (opened L) calls).Verifiable S faults recallFault key := by
  have hmarked : (run (apply S) (opened L) calls).index.Marked := marked_run S calls
  generalize run (apply S) (opened L) calls = b at hmarked ⊢
  unfold ForgetsFully Verifiable
  rw [fullyForgotten_iff hmarked]
  constructor
  · intro h r hr hkey
    by_cases hreports : b.Reports S faults recallFault key
    · exact Or.inr hreports
    · have hexisted : (b.cached.store.deleteMemoryByKey now key).2.existed = true :=
        hkey ▸ Store.existed_deleteMemoryByKey hr
      exact Or.inl ((erasesIndex_iff now recallFault).2 (h ⟨hexisted, hreports⟩ r hr hkey).1)
  · rintro h ⟨hexisted, hreports⟩ r hr hkey
    have herased := (erasesIndex_iff now recallFault).1 ((h r hr hkey).resolve_right hreports)
    refine ⟨herased, not_returns_of_gone (coherent_forget hexisted) ?_ herased.1⟩
    intro r' hr'
    rw [forget_spares.1, Store.mem_memories_deleteMemoryByKey, ← hkey] at hr'
    exact ⟨fun hid => hr'.2 (congrArg MemoryRow.key (Store.eq_of_id hr'.1 hr hid)), hr'.2⟩

/-! ## An imported note -/

end BrainState

/-- The public key of the peer that imports the note. -/
def peerKey : VerifyingKey :=
  ⟨Env.bytesOf 32 0x29acbae141bccaf0b22e1a94d34d0bc7361e526d0bfe12c89794bc9322966dd7⟩

/-- The name of the peer: the digest of its key. -/
def peerId : Bytes32 :=
  Env.bytesOf 32 0x39833a149ece5611324ec9c48233dbfa47ae2f0cb3bef3760d9763227d5fe523

/-- The key the peer stores the note under. -/
def importedKey : String := "98ba8530::note::73bd5666b388a80d"

/-- The peer's signature over the row it stores. -/
def peerSig : Signature :=
  Env.bytesOf 64 (0x4eda56aa315528c2a6e2d03609ebdef46a59189625a96342c74554072869e7c9 * 256 ^ 32 +
    0xb49674b73acd5680276569c06f09f5b0e901e4a09b706c6546e523eb8fa5dd0e)

/-- The digests that occur. -/
def peerEnv : Env := .ofRecords
  [(utf8 note.content, 0x057df659c1e192df60dbeac39dec966fdceaa8f5e06f90581adb07ff8ec84bd1),
    (authorKey.bytes.toList, 0x98ba85304ac639f0f55daab01ad6d592be44a125d9b3b65e1efca5b96960baec),
    (peerKey.bytes.toList, 0x39833a149ece5611324ec9c48233dbfa47ae2f0cb3bef3760d9763227d5fe523),
    (objectPreimage signedNote, signedHash),
    (objectPreimage { signedNote with authorId := some peerId },
      0xc45345f45724bac868b6a1421b8379137cd178e6e0cdeccff497e391e4fa197d),
    (utf8 importedKey, 0x94ad6104eea7d246b4e449b28dfe9d000e20cc00c9b8a8c638ac91d723449ee6)]
  [(authorKey, federationObjectSigningPayload (toHex (Env.bytesOf 32 signedHash).toList), noteSig)]

/-- The fingerprints of the note and of the edited one: a pair of landmarks, no run, two
shingles. -/
def noteRecognizer : Recognizer where
  numerics := { ln := fun _ => 0, twoDecimals := fun _ => "0.00" }
  fingerprintStimulus text :=
    if text = note.content then
      { peaks := [⟨"ship", 0, false⟩, ⟨"monday", 2, false⟩]
        pairHashes := [(0x04a1d05a6eb3b248, "pair: monday~ship")] }
    else if text = editedNote.content then
      { peaks := [⟨"ship", 0, false⟩, ⟨"tuesday", 2, false⟩]
        pairHashes := [(0xcb6d2bfc1b0f29b5, "pair: ship~tuesday")] }
    else {}
  shingleSet text :=
    if text = note.content then [0x16cd5f39372beb55, 0x2c5c8120ca54efa6]
    else if text = editedNote.content then [0x16cd5f39372beb55, 0x7b68df033815359a]
    else []

/-- The peer. -/
def peer : BrainSetup where
  env := peerEnv
  pf := .plain
  en := RecallPath.wordEngine
  rc := noteRecognizer
  identity := { verifyingKey := peerKey, sign := fun _ => peerSig }
  declarativeDensity _ := 0
  ftsQueryWords query := query.splitOn " "
  rerank hits _ := hits.zipIdx.map fun p => (p.2, p.1.signalScore)

/-- The peer imports the signed note, and repairs its derivations. -/
def importedAndRepaired : List BrainCall :=
  [⟨.store (.importPack { wingId := "team", objects := [signedNote] } (.requireSigned keyring)),
      "2026-01-02 10:00:00", {}⟩,
    ⟨.repairDerivations 100, "2026-01-02 11:00:00", {}⟩]

namespace BrainState

/-- **An imported note** is forgotten by its key: the report says that it is fully forgotten, and
it is still enrolled. -/
theorem imported_note_stays_enrolled :
    let b := run (apply peer) (opened wingCache) importedAndRepaired
    let forgotten := b.forget peer "2026-01-02 12:00:00" {} none importedKey
    (∃ r ∈ b.cached.store.memories.rows, r.key = importedKey ∧ r.content = note.content ∧
        forgotten.1.index.isEnrolled r.id = true) ∧
      forgotten.2.fullyForgotten = true ∧
      ¬ b.ForgetsFully peer "2026-01-02 12:00:00" {} none importedKey := by
  intro b forgotten
  have hrow : ∃ r ∈ b.cached.store.memories.rows, r.key = importedKey ∧ r.content = note.content ∧
      forgotten.1.index.isEnrolled r.id = true := by decide +kernel
  have hfull : forgotten.2.fullyForgotten = true := by decide +kernel
  clear_value b
  refine ⟨hrow, hfull, fun h => ?_⟩
  obtain ⟨r, hr, hkey, -, henrolled⟩ := hrow
  exact (h hfull r hr hkey).1.1 (RecognitionIndex.residue_of_isEnrolled henrolled)

end BrainState

end Spectral
