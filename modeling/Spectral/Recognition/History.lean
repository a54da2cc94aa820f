import Spectral.Recognition.Holdings

/-!
# Recognition does not remember its history

What the engine recognizes depends on which memories are enrolled with which text, and on nothing
else: not on the order of the enrolments, not on what was enrolled and forgotten in between, and
not on the orders in which maps and tables are run through.

* `enrolledContent` — the pairs of id and text a history leaves enrolled.
* `FaithfulStore` — a store is determined by these pairs, as far as its lookups go.  Both stores
  are faithful.
* `recognize_history_independent` — two histories that leave the same pairs enrolled recognize
  every stimulus alike.
-/

namespace Spectral

open Spectral.Lib

/-! ## Histories -/

/-- A call on the engine. -/
inductive EngineCall where
  | enroll (id content : String)
  | forget (id : String)
  deriving DecidableEq

/-- The pairs of id and text that are enrolled, in the order of their enrolment. -/
abbrev Enrolment := List (String × String)

/-- What a call leaves enrolled: an id that is enrolled keeps its text. -/
def EngineCall.enrolment (e : Enrolment) : EngineCall → Enrolment
  | .enroll id content => if id ∈ e.map Prod.fst then e else e ++ [(id, content)]
  | .forget id => e.filter fun p => p.1 ≠ id

/-- What a history leaves enrolled. -/
def enrolledContent (calls : List EngineCall) : Enrolment := calls.foldl EngineCall.enrolment []

section

variable {σ : Type} [RecognitionStore σ] (rc : Recognizer)

/-- A call on the engine over a store. -/
def EngineCall.perform (store : σ) : EngineCall → σ
  | .enroll id content => RecognitionEngine.enroll rc store id content
  | .forget id => (RecognitionEngine.forget store id).1

variable (σ)

/-- The store after a history. -/
def storeAfter (calls : List EngineCall) : σ :=
  calls.foldl (EngineCall.perform rc) RecognitionStore.fresh

/-! ## Faithful stores -/

/-- `Holds store e` says that the store is one of the pairs `e`; stores of the same pairs answer
every lookup alike, up to the order of the answers. -/
class FaithfulStore where
  Holds : σ → Enrolment → Prop
  fresh : Holds RecognitionStore.fresh []
  isEnrolled : ∀ {store e}, Holds store e →
    ∀ id, RecognitionStore.isEnrolled store id = true ↔ id ∈ e.map Prod.fst
  enroll : ∀ {store e}, Holds store e → ∀ {id}, id ∉ e.map Prod.fst → ∀ content,
    Holds (RecognitionEngine.enroll rc store id content) (e ++ [(id, content)])
  forget : ∀ {store e}, Holds store e → ∀ id,
    Holds (RecognitionStore.forgetMemory store id).1 (e.filter fun p => p.1 ≠ id)
  enrolledCount : ∀ {store e}, Holds store e → RecognitionStore.enrolledCount store = e.length
  lookupPairs : ∀ {store store' e e'}, Holds store e → Holds store' e' → e.Perm e' → ∀ hashes,
    (RecognitionStore.lookupPairs store hashes).Perm (RecognitionStore.lookupPairs store' hashes)
  lookupGrams : ∀ {store store' e e'}, Holds store e → Holds store' e' → e.Perm e' → ∀ hashes,
    (RecognitionStore.lookupGrams store hashes).Perm (RecognitionStore.lookupGrams store' hashes)
  lookupMinhash : ∀ {store store' e e'}, Holds store e → Holds store' e' → e.Perm e' → ∀ bands,
    (RecognitionStore.lookupMinhash store bands).Perm (RecognitionStore.lookupMinhash store' bands)

end

/-! ## What both stores keep -/

/-- No id is enrolled with two texts. -/
theorem nodup_enrolment {e : Enrolment} (h : (e.map Prod.fst).Nodup) (call : EngineCall) :
    ((call.enrolment e).map Prod.fst).Nodup := by
  cases call with
  | enroll id content =>
    show ((if id ∈ e.map Prod.fst then e else e ++ [(id, content)]).map Prod.fst).Nodup
    split
    · exact h
    · rename_i hid
      exact nodup_concat_id h hid
  | forget id => exact h.sublist (List.filter_sublist.map Prod.fst)

theorem nodup_enrolledContent (calls : List EngineCall) :
    ((enrolledContent calls).map Prod.fst).Nodup := by
  induction calls using List.reverseRecOn with
  | nil => exact List.nodup_nil
  | append_singleton calls call ih =>
    rw [enrolledContent, List.foldl_append, List.foldl_cons, List.foldl_nil]
    exact nodup_enrolment ih call

/-- The same pairs come in some order. -/
theorem perm_enrolledContent {calls calls' : List EngineCall}
    (h : ∀ p, p ∈ enrolledContent calls ↔ p ∈ enrolledContent calls') :
    (enrolledContent calls).Perm (enrolledContent calls') :=
  (List.perm_ext_iff_of_nodup (nodup_enrolledContent calls).of_map
    (nodup_enrolledContent calls').of_map).2 h

namespace FaithfulStore

variable {σ : Type} [RecognitionStore σ] {rc : Recognizer} [FaithfulStore σ rc]

/-- The store after a history holds what the history leaves enrolled. -/
theorem holds_storeAfter (calls : List EngineCall) :
    Holds rc (storeAfter σ rc calls) (enrolledContent calls) := by
  induction calls using List.reverseRecOn with
  | nil => exact fresh
  | append_singleton calls call ih =>
    rw [storeAfter, enrolledContent, List.foldl_append, List.foldl_append]
    cases call with
    | enroll id content =>
      show Holds rc (RecognitionEngine.enroll rc (storeAfter σ rc calls) id content)
        (if id ∈ (enrolledContent calls).map Prod.fst then enrolledContent calls
          else enrolledContent calls ++ [(id, content)])
      split
      · rename_i hid
        rw [RecognitionEngine.enroll, if_pos ((isEnrolled ih id).2 hid)]
        exact ih
      · rename_i hid
        exact enroll ih hid content
    | forget id => exact forget ih id

/-- Stores of the same pairs recognize alike. -/
theorem recognize_eq {store store' : σ} {e e' : Enrolment} (h : Holds rc store e)
    (h' : Holds rc store' e') (hperm : e.Perm e') (o o' : RecognitionOrders) (stimulus : String) :
    RecognitionEngine.recognize rc o store stimulus =
      RecognitionEngine.recognize rc o' store' stimulus := by
  have hcount : RecognitionStore.enrolledCount store = RecognitionStore.enrolledCount store' := by
    rw [enrolledCount h, enrolledCount h', hperm.length_eq]
  exact RecognitionEngine.recognize_eq_of_perm o o' (lookupPairs h h' hperm _)
    (lookupGrams h h' hperm _) ((lookupMinhash h h' hperm _).map _) hcount

end FaithfulStore

/-! ## The store in memory is faithful -/

/-- The multi-map has the hashes of the enrolled texts, in the order of the enrolments. -/
def FeaturesOf (hashesOf : String → List (UInt64 × String)) (e : Enrolment) (index : FeatureMap) :
    Prop :=
  ∀ h, (index.get? h).getD [] =
    e.flatMap fun p => ((hashesOf p.2).filter fun f => f.1 = h).map fun f => (p.1, f.2)

namespace InMemoryRecognitionStore

variable {rc : Recognizer} {s s' : InMemoryRecognitionStore} {e e' : Enrolment}

/-- The store is one of the enrolled pairs. -/
structure Holds (rc : Recognizer) (s : InMemoryRecognitionStore) (e : Enrolment) : Prop where
  nodup : (e.map Prod.fst).Nodup
  enrolled : ∀ id, id ∈ s.enrolled ↔ id ∈ e.map Prod.fst
  pairs : FeaturesOf (fun c => (rc.fingerprintStimulus c).pairHashes) e s.pairs
  grams : FeaturesOf (fun c => (rc.fingerprintStimulus c).gramHashes) e s.grams
  minhashSig : ∀ id sig, s.minhashSig.get? id = some sig ↔
    0 < rc.minhashWeight ∧ ∃ p ∈ e, p.1 = id ∧ rc.shingleSet p.2 = sig
  minhashBands : ∀ b id, id ∈ (s.minhashBands.get? b).getD [] ↔
    0 < rc.minhashWeight ∧ ∃ p ∈ e, p.1 = id ∧ b ∈ rc.shingleSet p.2

theorem holds_iff : Holds rc s e ↔ HoldsAll rc.fingerprinter (0 < rc.minhashWeight) s e := by
  constructor
  · rintro ⟨hnodup, henrolled, hpairs, hgrams, hsig, hbands⟩
    exact ⟨hnodup, henrolled, hpairs, hgrams, hsig, hbands⟩
  · rintro ⟨hnodup, henrolled, hpairs, hgrams, hsig, hbands⟩
    exact ⟨hnodup, henrolled, hpairs, hgrams, hsig, hbands⟩

theorem holds_enroll (h : Holds rc s e) {id : String} (hid : id ∉ e.map Prod.fst)
    (content : String) :
    Holds rc (RecognitionEngine.enroll rc s id content) (e ++ [(id, content)]) := by
  have hall : HoldingStore.HoldsAll rc.fingerprinter (0 < rc.minhashWeight) s e := holds_iff.1 h
  exact holds_iff.2 (HoldingStore.enroll hall hid content)

/-- Stores of the same texts have the same candidates. -/
theorem lookupMinhash_perm (h : Holds rc s e) (h' : Holds rc s' e') (hperm : e.Perm e')
    (bands : List UInt64) : (s.lookupMinhash bands).Perm (s'.lookupMinhash bands) := by
  have hall : HoldingStore.HoldsAll rc.fingerprinter (0 < rc.minhashWeight) s e := holds_iff.1 h
  have hall' : HoldingStore.HoldsAll rc.fingerprinter (0 < rc.minhashWeight) s' e' := holds_iff.1 h'
  exact HoldingStore.lookupMinhash_perm hall hall' hperm bands

instance : FaithfulStore InMemoryRecognitionStore rc where
  Holds := Holds rc
  fresh := holds_iff.2 holdsAll_fresh
  isEnrolled h id := decide_eq_true_iff.trans (h.enrolled id)
  enroll h _ hid content := holds_enroll h hid content
  forget h id := holds_iff.2 ((holds_iff.1 h).forget id)
  enrolledCount h := (holds_iff.1 h).enrolledCount
  lookupPairs h h' hperm hashes :=
    (holds_iff.1 h).pairs.lookup_perm (holds_iff.1 h').pairs hperm hashes
  lookupGrams h h' hperm hashes :=
    (holds_iff.1 h).grams.lookup_perm (holds_iff.1 h').grams hperm hashes
  lookupMinhash h h' hperm bands := lookupMinhash_perm h h' hperm bands

end InMemoryRecognitionStore

/-! ## The store in SQLite is faithful -/

namespace RecognitionIndex

variable {rc : Recognizer} {ix ix' : RecognitionIndex} {e e' : Enrolment}

/-- The table has the hashes of the enrolled texts. -/
def RowsOf (hashesOf : String → List (UInt64 × String)) (e : Enrolment)
    (t : Table FeatureRow (SameKey fun r => r)) : Prop :=
  ∀ r, r ∈ t ↔ ∃ p ∈ e, p.1 = r.memoryId ∧ (r.hash, r.label) ∈ hashesOf p.2

/-- The index is one of the enrolled pairs. -/
structure Holds (rc : Recognizer) (ix : RecognitionIndex) (e : Enrolment) : Prop where
  nodup : (e.map Prod.fst).Nodup
  enrolled : ∀ id, id ∈ ix.enrolled ↔ id ∈ e.map Prod.fst
  pairs : RowsOf (fun c => (rc.fingerprintStimulus c).pairHashes) e ix.pairs
  grams : RowsOf (fun c => (rc.fingerprintStimulus c).gramHashes) e ix.grams
  minhashSig : ∀ r, r ∈ ix.minhashSig ↔
    0 < rc.minhashWeight ∧ ∃ p ∈ e, p.1 = r.memoryId ∧ rc.shingleSet p.2 = r.sig
  minhashBands : ∀ r, r ∈ ix.minhashBands ↔
    0 < rc.minhashWeight ∧ ∃ p ∈ e, p.1 = r.memoryId ∧ r.bandHash ∈ rc.shingleSet p.2

theorem holds_iff : Holds rc ix e ↔ HoldsAll rc.fingerprinter (0 < rc.minhashWeight) ix e := by
  constructor
  · rintro ⟨hnodup, henrolled, hpairs, hgrams, hsig, hbands⟩
    exact ⟨hnodup, henrolled, hpairs, hgrams, hsig, hbands⟩
  · rintro ⟨hnodup, henrolled, hpairs, hgrams, hsig, hbands⟩
    exact ⟨hnodup, henrolled, hpairs, hgrams, hsig, hbands⟩

theorem holds_enroll (h : Holds rc ix e) {id : String} (hid : id ∉ e.map Prod.fst)
    (content : String) :
    Holds rc (RecognitionEngine.enroll rc ix id content) (e ++ [(id, content)]) := by
  have hall : HoldingStore.HoldsAll rc.fingerprinter (0 < rc.minhashWeight) ix e := holds_iff.1 h
  exact holds_iff.2 (HoldingStore.enroll hall hid content)

theorem holds_forget (h : Holds rc ix e) (id : String) :
    Holds rc (ix.forget id).1 (e.filter fun p => p.1 ≠ id) :=
  holds_iff.2 ((holds_iff.1 h).forget id)

theorem lookupMinhash_perm (h : Holds rc ix e) (h' : Holds rc ix' e') (hperm : e.Perm e')
    (bands : List UInt64) : (ix.lookupMinhash bands).Perm (ix'.lookupMinhash bands) := by
  have hall : HoldingStore.HoldsAll rc.fingerprinter (0 < rc.minhashWeight) ix e := holds_iff.1 h
  have hall' : HoldingStore.HoldsAll rc.fingerprinter (0 < rc.minhashWeight) ix' e' := holds_iff.1 h'
  exact HoldingStore.lookupMinhash_perm hall hall' hperm bands

theorem holds_fresh : Holds rc {} [] := holds_iff.2 holdsAll_fresh

instance : FaithfulStore RecognitionIndex rc where
  Holds := Holds rc
  fresh := holds_fresh
  isEnrolled h id := decide_eq_true_iff.trans (h.enrolled id)
  enroll h _ hid content := holds_enroll h hid content
  forget h id := holds_forget h id
  enrolledCount h := (holds_iff.1 h).enrolledCount
  lookupPairs h h' hperm hashes :=
    (holds_iff.1 h).pairs.lookup_perm (holds_iff.1 h').pairs hperm hashes
  lookupGrams h h' hperm hashes :=
    (holds_iff.1 h).grams.lookup_perm (holds_iff.1 h').grams hperm hashes
  lookupMinhash h h' hperm bands := lookupMinhash_perm h h' hperm bands

end RecognitionIndex

/-! ## History independence -/

/-- **Recognition does not remember its history.**  Two histories that leave the same pairs of id
and text enrolled recognize every stimulus alike, over either store and whatever the orders of the
iterations.  An enrolment of an id that is enrolled already does nothing, so the histories are
arbitrary. -/
theorem recognize_history_independent (rc : Recognizer) {calls calls' : List EngineCall}
    (h : ∀ p, p ∈ enrolledContent calls ↔ p ∈ enrolledContent calls') (o o' : RecognitionOrders)
    (stimulus : String) :
    RecognitionEngine.recognize rc o (storeAfter InMemoryRecognitionStore rc calls) stimulus =
        RecognitionEngine.recognize rc o' (storeAfter InMemoryRecognitionStore rc calls') stimulus ∧
      RecognitionEngine.recognize rc o (storeAfter RecognitionIndex rc calls) stimulus =
        RecognitionEngine.recognize rc o' (storeAfter RecognitionIndex rc calls') stimulus :=
  ⟨FaithfulStore.recognize_eq (FaithfulStore.holds_storeAfter calls)
      (FaithfulStore.holds_storeAfter calls') (perm_enrolledContent h) o o' stimulus,
    FaithfulStore.recognize_eq (FaithfulStore.holds_storeAfter calls)
      (FaithfulStore.holds_storeAfter calls') (perm_enrolledContent h) o o' stimulus⟩

/-- What two texts of one word have: a landmark, and the word as their only shingle. -/
def oneWordRecognizer : Recognizer where
  numerics := { ln := fun _ => 0, twoDecimals := fun _ => "1.00" }
  fingerprintStimulus text := { peaks := [⟨text, 0, false⟩] }
  shingleSet text :=
    if text = "deploy" then [0xe77c32afef84049b] else if text = "reindex" then [0xceed822f555d2914] else []

/-- A memory that was enrolled and forgotten is not recognized differently from one that never
was, and no other memory is. -/
theorem recognize_forgotten_deploy :
    RecognitionEngine.recognize oneWordRecognizer {}
        (storeAfter InMemoryRecognitionStore oneWordRecognizer
          [.enroll "m1" "deploy", .enroll "m2" "reindex", .forget "m1"]) "reindex" =
      RecognitionEngine.recognize oneWordRecognizer
        { traces := .backwards, evidence := .backwards, weights := .backwards,
          matched := .backwards, candidates := .backwards }
        (storeAfter InMemoryRecognitionStore oneWordRecognizer [.enroll "m2" "reindex"])
        "reindex" :=
  (recognize_history_independent oneWordRecognizer (fun _ => Iff.rfl) _ _ _).1

end Spectral
