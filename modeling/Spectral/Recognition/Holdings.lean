import Spectral.Recognition.Stores

/-!
# What a recognition store holds

A store is filled with memories, each under its id, with the fingerprints and the shingles that are
derived from something of it: from a text, or from several.  This file says what either store then
has, and what its lookups find.

* `Fingerprinter` — what is derived.
* `InMemoryRecognitionStore.HoldsAll`, `RecognitionIndex.HoldsAll` — the store has what is derived
  from the memories of a list, and nothing else; indexing and forgetting keep it so.
* `HoldingStore` — what both stores have in common.
-/

namespace Spectral

open Spectral.Lib

/-- What is derived from an `α` when it is enrolled: the fingerprints, and the shingles in the order
in which they are stored. -/
structure Fingerprinter (α : Type) where
  prints : α → StimulusPrints
  shingles : α → List UInt64

/-- The writes of an enrolment. -/
def RecognitionStore.indexWhole {σ : Type} [RecognitionStore σ] (on : Prop) [Decidable on] (store : σ)
    (id : String) (prints : StimulusPrints) (shingles : List UInt64) : σ :=
  let indexed := indexMemory store id prints
  if on then indexMinhash indexed id shingles shingles else indexed

/-- What is derived of a text. -/
def Recognizer.fingerprinter (rc : Recognizer) : Fingerprinter String where
  prints := rc.fingerprintStimulus
  shingles := rc.shingleSet

/-- Stores with the same matches and candidates recognize alike. -/
theorem RecognitionEngine.recognize_eq_of_perm {σ τ : Type} [RecognitionStore σ]
    [RecognitionStore τ] {rc : Recognizer} {store : σ} {store' : τ} {stimulus : String}
    (o o' : RecognitionOrders)
    (hpairs : (RecognitionStore.lookupPairs store (rc.fingerprintStimulus stimulus).pairHashes).Perm
      (RecognitionStore.lookupPairs store' (rc.fingerprintStimulus stimulus).pairHashes))
    (hgrams : (RecognitionStore.lookupGrams store (rc.fingerprintStimulus stimulus).gramHashes).Perm
      (RecognitionStore.lookupGrams store' (rc.fingerprintStimulus stimulus).gramHashes))
    (hminhash : ((RecognitionStore.lookupMinhash store (rc.shingleSet stimulus)).map fun c =>
        { memoryId := c.1, similarity := containment (rc.shingleSet stimulus) c.2 : MinHashMatch }).Perm
      ((RecognitionStore.lookupMinhash store' (rc.shingleSet stimulus)).map fun c =>
        { memoryId := c.1, similarity := containment (rc.shingleSet stimulus) c.2 : MinHashMatch }))
    (hcount : RecognitionStore.enrolledCount store = RecognitionStore.enrolledCount store') :
    recognize rc o store stimulus = recognize rc o' store' stimulus := by
  unfold recognize
  rw [scoreCandidatesIn_eq, scoreCandidatesIn_eq, hcount]
  refine scoreCandidates_perm _ _ _ _ _ _
    ((o.matched.perm _).trans (hpairs.trans (o'.matched.perm _).symm))
    ((o.matched.perm _).trans (hgrams.trans (o'.matched.perm _).symm)) ?_
  split
  · exact ((o.candidates.perm _).map _).trans (hminhash.trans ((o'.candidates.perm _).map _).symm)
  · exact .rfl

variable {α : Type}

/-! ## Ids and what is held of them -/

section Pairs

variable {e : List (String × α)} {P : String × α → Prop} {id id' : String}

/-- Something of an enrolled pair, after an enrolment. -/
theorem exists_enrolled_iff {q : String × α} :
    (∃ p ∈ e ++ [q], p.1 = id' ∧ P p) ↔ (∃ p ∈ e, p.1 = id' ∧ P p) ∨ q.1 = id' ∧ P q := by
  simp [or_and_right, exists_or]

/-- Something of an enrolled pair, after a forget. -/
theorem exists_kept_iff : (∃ p ∈ e.filter fun p => p.1 ≠ id, p.1 = id' ∧ P p) ↔
    (∃ p ∈ e, p.1 = id' ∧ P p) ∧ id' ≠ id := by
  simp only [List.mem_filter, decide_eq_true_eq]
  constructor
  · rintro ⟨p, ⟨hp, hne⟩, rfl, hP⟩
    exact ⟨⟨p, hp, rfl, hP⟩, hne⟩
  · rintro ⟨⟨p, hp, rfl, hP⟩, hne⟩
    exact ⟨p, ⟨hp, hne⟩, rfl, hP⟩

theorem mem_ids_kept : id' ∈ (e.filter fun p => p.1 ≠ id).map Prod.fst ↔
    id' ∈ e.map Prod.fst ∧ id' ≠ id := by
  have h : (∃ p ∈ e.filter fun p => p.1 ≠ id, p.1 = id' ∧ True) ↔
      (∃ p ∈ e, p.1 = id' ∧ True) ∧ id' ≠ id := exists_kept_iff
  simpa only [List.mem_map, and_true] using h

theorem nodup_concat_id {x : α} (h : (e.map Prod.fst).Nodup) (hid : id ∉ e.map Prod.fst) :
    ((e ++ [(id, x)]).map Prod.fst).Nodup := by
  rw [List.map_append, List.map_singleton, ← List.concat_eq_append]
  exact h.concat hid

end Pairs

/-! ## The store in memory -/

/-- What the memories have under a hash, in the order of the enrolments. -/
def entriesOf (hashesOf : α → List (UInt64 × String)) (e : List (String × α)) (h : UInt64) :
    List (String × String) :=
  e.flatMap fun p => ((hashesOf p.2).filter fun f => f.1 = h).map fun f => (p.1, f.2)

theorem mem_entriesOf {hashesOf : α → List (UInt64 × String)} {e : List (String × α)} {h : UInt64}
    {entry : String × String} :
    entry ∈ entriesOf hashesOf e h ↔ ∃ p ∈ e, p.1 = entry.1 ∧ (h, entry.2) ∈ hashesOf p.2 := by
  simp only [entriesOf, List.mem_flatMap, List.mem_map, List.mem_filter, decide_eq_true_eq]
  constructor
  · rintro ⟨p, hp, f, ⟨hf, rfl⟩, rfl⟩
    exact ⟨p, hp, rfl, hf⟩
  · rintro ⟨p, hp, hid, hf⟩
    exact ⟨p, hp, (h, entry.2), ⟨hf, rfl⟩, by rw [hid]⟩

/-- No memory is twice under a hash when none has it twice. -/
theorem nodup_ids_entriesOf {hashesOf : α → List (UInt64 × String)} {e : List (String × α)}
    (he : (e.map Prod.fst).Nodup) (h : UInt64) :
    ((entriesOf hashesOf e h).map Prod.fst).Nodup ↔
      ∀ p ∈ e, ((hashesOf p.2).filter fun f => f.1 = h).length ≤ 1 := by
  have hids : (entriesOf hashesOf e h).map Prod.fst = e.flatMap fun p =>
      List.replicate ((hashesOf p.2).filter fun f => f.1 = h).length p.1 := by
    rw [entriesOf, List.map_flatMap]
    refine List.flatMap_congr fun p _ => ?_
    rw [List.map_map]
    exact List.map_const'
  rw [hids, List.nodup_flatMap]
  refine ⟨fun hnodup p hp => List.nodup_replicate.1 (hnodup.1 p hp), fun honce => ⟨fun p hp =>
    List.nodup_replicate.2 (honce p hp), ?_⟩⟩
  refine (List.pairwise_map.1 he).imp fun {p q} hne => ?_
  intro id hid hid'
  exact hne ((List.eq_of_mem_replicate hid).symm.trans (List.eq_of_mem_replicate hid'))

/-- The multi-map has the hashes of what is held. -/
def HasFeatures (hashesOf : α → List (UInt64 × String)) (e : List (String × α))
    (index : FeatureMap) : Prop := ∀ h, (index.get? h).getD [] = entriesOf hashesOf e h

section Features

open InMemoryRecognitionStore

variable {hashesOf : α → List (UInt64 × String)} {e e' : List (String × α)}
  {index index' : FeatureMap}

theorem get?_pushFeatures (id : String) (hashes : List (UInt64 × String)) (h : UInt64) :
    ((pushFeatures id hashes index).get? h).getD [] =
      (index.get? h).getD [] ++ (hashes.filter fun f => f.1 = h).map fun f => (id, f.2) := by
  induction hashes using List.reverseRecOn with
  | nil => simp [pushFeatures]
  | append_singleton hashes f ih =>
    have hstep : pushFeatures id (hashes ++ [f]) index =
        (pushFeatures id hashes index).entry f.1 [] fun entries => entries ++ [(id, f.2)] := by
      rw [pushFeatures, List.foldl_append]
      rfl
    rw [hstep, HashMap.get?_entry]
    by_cases hf : h = f.1
    · subst hf
      rw [if_pos rfl, Option.getD_some, ih]
      simp [List.filter_append]
    · have hne : ¬ f.1 = h := fun heq => hf heq.symm
      rw [if_neg hf, ih]
      simp [List.filter_append, hne]

theorem HasFeatures.push (h : HasFeatures hashesOf e index) (id : String) (x : α) :
    HasFeatures hashesOf (e ++ [(id, x)]) (pushFeatures id (hashesOf x) index) := by
  intro hash
  rw [get?_pushFeatures, h hash, entriesOf, entriesOf, List.flatMap_append, List.flatMap_singleton]

theorem HasFeatures.drop (h : HasFeatures hashesOf e index) (id : String) :
    HasFeatures hashesOf (e.filter fun p => p.1 ≠ id) (dropFeatures id index) := by
  intro hash
  rw [dropFeatures, HashMap.getD_get?_filtered, h hash, entriesOf, entriesOf]
  clear h
  induction e with
  | nil => rfl
  | cons p e ih =>
    rw [List.flatMap_cons, List.filter_append, ih]
    by_cases hp : p.1 = id <;> simp [hp]

theorem lookup_eq (index : FeatureMap) (hashes : List (UInt64 × String)) :
    lookup index hashes = hashes.flatMap fun h => ((index.get? h.1).getD []).map fun entry =>
      { hash := h.1, memoryId := entry.1, label := entry.2,
        docFrequency := ((index.get? h.1).getD []).length } := by
  unfold lookup
  refine List.flatMap_congr fun h _ => ?_
  cases index.get? h.1 <;> rfl

theorem HasFeatures.lookup_perm (h : HasFeatures hashesOf e index) (h' : HasFeatures hashesOf e' index')
    (hperm : e.Perm e') (hashes : List (UInt64 × String)) :
    (lookup index hashes).Perm (lookup index' hashes) := by
  rw [lookup_eq, lookup_eq]
  refine List.Perm.flatMap_left _ fun f _ => ?_
  have hentries : ((index.get? f.1).getD []).Perm ((index'.get? f.1).getD []) := by
    rw [h f.1, h' f.1]
    exact hperm.flatMap_right _
  rw [hentries.length_eq]
  exact hentries.map _

end Features


namespace InMemoryRecognitionStore

variable {fp : Fingerprinter α} {on : Prop} {s s' : InMemoryRecognitionStore}
  {e e' : List (String × α)}

/-- The store is one of the pairs `e`. -/
structure HoldsAll (fp : Fingerprinter α) (on : Prop) (s : InMemoryRecognitionStore)
    (e : List (String × α)) : Prop where
  nodup : (e.map Prod.fst).Nodup
  enrolled : ∀ id, id ∈ s.enrolled ↔ id ∈ e.map Prod.fst
  pairs : HasFeatures (fun x => (fp.prints x).pairHashes) e s.pairs
  grams : HasFeatures (fun x => (fp.prints x).gramHashes) e s.grams
  minhashSig : ∀ id sig, s.minhashSig.get? id = some sig ↔
    on ∧ ∃ p ∈ e, p.1 = id ∧ fp.shingles p.2 = sig
  minhashBands : ∀ b id, id ∈ (s.minhashBands.get? b).getD [] ↔
    on ∧ ∃ p ∈ e, p.1 = id ∧ b ∈ fp.shingles p.2

theorem holdsAll_fresh : HoldsAll fp on {} [] where
  nodup := List.nodup_nil
  enrolled id := by simp
  pairs h := rfl
  grams h := rfl
  minhashSig id sig := by simp
  minhashBands b id := by simp

theorem mem_foldl_pushBand (bandsOf : HashMap UInt64 (List String)) (id : String)
    (bands : List UInt64) (b : UInt64) (id' : String) :
    id' ∈ ((bands.foldl (pushBand id) bandsOf).get? b).getD [] ↔
      id' ∈ (bandsOf.get? b).getD [] ∨ b ∈ bands ∧ id' = id := by
  have hpush : ∀ ids : List String,
      id' ∈ (if id ∈ ids then ids else ids ++ [id]) ↔ id' ∈ ids ∨ id' = id := by
    intro ids
    split <;> simp_all
  induction bands using List.reverseRecOn with
  | nil => simp
  | append_singleton bands b' ih =>
    rw [List.foldl_append, List.foldl_cons, List.foldl_nil, pushBand, HashMap.get?_entry]
    by_cases hb : b = b'
    · subst hb
      rw [if_pos rfl, Option.getD_some, hpush]
      simp [ih]
      tauto
    · rw [if_neg hb]
      simp [ih, hb]

/-- The marker and the features, and the shingle set when its channel is on. -/
theorem HoldsAll.index [Decidable on] (h : HoldsAll fp on s e) {id : String}
    (hid : id ∉ e.map Prod.fst) (x : α) :
    HoldsAll fp on (RecognitionStore.indexWhole on s id (fp.prints x) (fp.shingles x))
      (e ++ [(id, x)]) := by
  have henrolled : ∀ id', id' ∈ insert id s.enrolled ↔ id' ∈ (e ++ [(id, x)]).map Prod.fst := by
    intro id'
    rw [Finset.mem_insert, h.enrolled, List.map_append, List.mem_append, or_comm]
    simp
  have hother : ∀ p ∈ e, p.1 ≠ id := fun p hp heq => hid (heq ▸ List.mem_map_of_mem hp)
  unfold RecognitionStore.indexWhole
  dsimp only
  split
  · rename_i hon
    refine ⟨nodup_concat_id h.nodup hid, henrolled, h.pairs.push id x, h.grams.push id x, ?_, ?_⟩
    · intro id' sig
      show (s.minhashSig.insert id (fp.shingles x)).get? id' = some sig ↔ _
      rw [HashMap.get?_insert, exists_enrolled_iff]
      by_cases heq : id' = id
      · subst heq
        have hnone : ¬ ∃ p ∈ e, p.1 = id' ∧ fp.shingles p.2 = sig := by
          rintro ⟨p, hp, hpid, -⟩
          exact hother p hp hpid
        simp [hon, hnone]
      · rw [if_neg heq, h.minhashSig]
        simp [hon, Ne.symm heq]
    · intro b id'
      refine (mem_foldl_pushBand s.minhashBands id _ b id').trans ?_
      rw [h.minhashBands, exists_enrolled_iff]
      simp [hon, and_comm, eq_comm]
  · rename_i hoff
    refine ⟨nodup_concat_id h.nodup hid, henrolled, h.pairs.push id x, h.grams.push id x, ?_, ?_⟩
    · intro id' sig
      refine (h.minhashSig id' sig).trans ?_
      simp [hoff]
    · intro b id'
      refine (h.minhashBands b id').trans ?_
      simp [hoff]

theorem HoldsAll.forget (h : HoldsAll fp on s e) (id : String) :
    HoldsAll fp on (s.forgetMemory id).1 (e.filter fun p => p.1 ≠ id) where
  nodup := h.nodup.sublist (List.filter_sublist.map Prod.fst)
  enrolled id' := by
    show id' ∈ s.enrolled.erase id ↔ _
    rw [Finset.mem_erase, h.enrolled, mem_ids_kept, and_comm]
  pairs := h.pairs.drop id
  grams := h.grams.drop id
  minhashSig id' sig := by
    show (s.minhashSig.remove id).get? id' = some sig ↔ _
    rw [HashMap.get?_remove, exists_kept_iff]
    by_cases heq : id' = id
    · simp [heq]
    · rw [if_neg heq, h.minhashSig]
      simp [heq]
  minhashBands b id' := by
    show id' ∈ (((s.minhashBands.mapValues fun ids => ids.filter fun i => i ≠ id).retain
        fun _ ids => decide (ids ≠ [])).get? b).getD [] ↔ _
    rw [HashMap.getD_get?_filtered, List.mem_filter, h.minhashBands, exists_kept_iff,
      decide_eq_true_eq, and_assoc]

theorem HoldsAll.enrolledCount (h : HoldsAll fp on s e) : s.enrolled.card = e.length := by
  have henrolled : s.enrolled = (e.map Prod.fst).toFinset := by
    ext id
    rw [h.enrolled, List.mem_toFinset]
  rw [henrolled, List.toFinset_card_of_nodup h.nodup, List.length_map]

/-- The loop over the candidates collects each one that has a signature, once. -/
theorem foldl_collectCandidate (ids : List String) :
    ((ids.foldl s.collectCandidate ([], [])).2.map Prod.fst).Nodup ∧
      (∀ id, id ∈ (ids.foldl s.collectCandidate ([], [])).1 ↔ id ∈ ids) ∧
        ∀ c, c ∈ (ids.foldl s.collectCandidate ([], [])).2 ↔
          c.1 ∈ ids ∧ s.minhashSig.get? c.1 = some c.2 := by
  induction ids using List.reverseRecOn with
  | nil => simp
  | append_singleton ids id ih =>
    obtain ⟨hnodup, hseen, hout⟩ := ih
    rw [List.foldl_append, List.foldl_cons, List.foldl_nil]
    generalize ids.foldl s.collectCandidate ([], []) = acc at hnodup hseen hout ⊢
    unfold collectCandidate
    by_cases hid : id ∈ ids
    · rw [if_pos ((hseen id).2 hid)]
      refine ⟨hnodup, fun id' => ?_, fun c => ?_⟩
      · rw [hseen]
        grind
      · rw [hout]
        grind
    · rw [if_neg fun hmem => hid ((hseen id).1 hmem)]
      cases hsig : s.minhashSig.get? id with
      | none =>
        refine ⟨hnodup, fun id' => ?_, fun c => ?_⟩
        · grind
        · rw [hout]
          grind
      | some sig =>
        refine ⟨?_, fun id' => ?_, fun c => ?_⟩
        · rw [List.map_append, List.map_singleton, ← List.concat_eq_append]
          refine hnodup.concat fun hmem => ?_
          obtain ⟨c, hc, rfl⟩ := List.mem_map.1 hmem
          exact hid ((hout c).1 hc).1
        · grind
        · rw [List.mem_append, hout]
          grind

theorem nodup_lookupMinhash (bands : List UInt64) : (s.lookupMinhash bands).Nodup :=
  (s.foldl_collectCandidate _).1.of_map

/-- The candidates are what shares a band, with its shingles. -/
theorem HoldsAll.mem_lookupMinhash (h : HoldsAll fp on s e) {bands : List UInt64}
    {c : String × List UInt64} : c ∈ s.lookupMinhash bands ↔
      on ∧ ∃ p ∈ e, p.1 = c.1 ∧ fp.shingles p.2 = c.2 ∧ ∃ b ∈ bands, b ∈ fp.shingles p.2 := by
  refine ((s.foldl_collectCandidate _).2.2 c).trans ?_
  simp only [List.mem_flatMap, h.minhashBands, h.minhashSig]
  constructor
  · rintro ⟨⟨b, hb, -, q, hq, hqid, hbq⟩, hon, p, hp, hpid, hsig⟩
    have hsame : q = p := List.inj_on_of_nodup_map h.nodup hq hp (hqid.trans hpid.symm)
    subst hsame
    exact ⟨hon, q, hq, hqid, hsig, b, hb, hbq⟩
  · rintro ⟨hon, p, hp, hpid, hsig, b, hb, hbp⟩
    exact ⟨⟨b, hb, hon, p, hp, hpid, hbp⟩, hon, p, hp, hpid, hsig⟩

end InMemoryRecognitionStore

/-! ## The store in SQLite -/

namespace RecognitionIndex

/-- The table has the hashes of what is held. -/
def HasRows (hashesOf : α → List (UInt64 × String)) (e : List (String × α))
    (t : Table FeatureRow (SameKey fun r => r)) : Prop :=
  ∀ r, r ∈ t ↔ ∃ p ∈ e, p.1 = r.memoryId ∧ (r.hash, r.label) ∈ hashesOf p.2

variable {fp : Fingerprinter α} {on : Prop} {ix ix' : RecognitionIndex} {e e' : List (String × α)}

section Rows

variable {hashesOf : α → List (UInt64 × String)} {t t' : Table FeatureRow (SameKey fun r => r)}

theorem HasRows.insert (h : HasRows hashesOf e t) (id : String) (x : α) :
    HasRows hashesOf (e ++ [(id, x)]) (insertFeatures id (hashesOf x) t) := by
  intro r
  rw [mem_insertFeatures, h r, exists_enrolled_iff]
  refine or_congr_right ⟨?_, ?_⟩
  · rintro ⟨f, hf, rfl⟩
    exact ⟨rfl, hf⟩
  · rintro ⟨hid, hf⟩
    obtain rfl : id = r.memoryId := hid
    exact ⟨(r.hash, r.label), hf, rfl⟩

theorem HasRows.delete (h : HasRows hashesOf e t) (id : String) :
    HasRows hashesOf (e.filter fun p => p.1 ≠ id) (t.deleteWhere fun r => r.memoryId = id) := by
  intro r
  rw [Table.mem_deleteWhere, h r, exists_kept_iff, decide_eq_false_iff_not]

theorem HasRows.lookup_perm (h : HasRows hashesOf e t) (h' : HasRows hashesOf e' t')
    (hperm : e.Perm e') (hashes : List (UInt64 × String)) :
    (lookupTable t hashes).Perm (lookupTable t' hashes) := by
  have hrows : t.rows.Perm t'.rows := Table.perm_rows fun r => by
    rw [h r, h' r]
    simp only [hperm.mem_iff]
  have hdf : ∀ hash : UInt64,
      ((t.rows.filter fun d => d.hash = hash).map FeatureRow.memoryId).dedup.length =
        ((t'.rows.filter fun d => d.hash = hash).map FeatureRow.memoryId).dedup.length :=
    fun hash => ((hrows.filter _).map _).dedup.length_eq
  unfold lookupTable
  refine List.Perm.flatMap_left _ fun f _ => ?_
  simp only [hdf]
  exact (hrows.filter _).map _

/-- Under a hash the table has what the memories have, once. -/
theorem HasRows.rows_perm (ht : HasRows hashesOf e t) (h : UInt64) :
    ((t.rows.filter fun r => r.hash = h).map fun r => (r.memoryId, r.label)).Perm
      (entriesOf hashesOf e h).dedup := by
  have hnodup : ((t.rows.filter fun r => r.hash = h).map fun r => (r.memoryId, r.label)).Nodup := by
    refine List.Nodup.map_on ?_ (t.nodup_rows.filter _)
    rintro ⟨hash, id, l⟩ hr ⟨hash', id', l'⟩ hr' heq
    simp only [List.mem_filter, decide_eq_true_eq] at hr hr'
    simp_all
  refine (List.perm_ext_iff_of_nodup hnodup (List.nodup_dedup _)).2 fun entry => ?_
  rw [List.mem_dedup, mem_entriesOf, List.mem_map]
  constructor
  · rintro ⟨r, hr, rfl⟩
    obtain ⟨hr, hhash⟩ := List.mem_filter.1 hr
    obtain ⟨p, hp, hid, hl⟩ := (ht r).1 hr
    exact ⟨p, hp, hid, of_decide_eq_true hhash ▸ hl⟩
  · intro hentry
    exact ⟨⟨h, entry.1, entry.2⟩, List.mem_filter.2 ⟨(ht _).2 hentry, by simp⟩, rfl⟩

/-- The document frequency is that of the distinct memories. -/
theorem HasRows.docFrequency_eq (ht : HasRows hashesOf e t) (h : UInt64) :
    ((t.rows.filter fun d => d.hash = h).map FeatureRow.memoryId).dedup.length =
      ((entriesOf hashesOf e h).map Prod.fst).dedup.length := by
  have hids := (ht.rows_perm h).map Prod.fst
  rw [List.map_map] at hids
  refine (List.perm_ext_iff_of_nodup (List.nodup_dedup _) (List.nodup_dedup _)).2 (fun id => ?_)
    |>.length_eq
  have hmem := hids.mem_iff (a := id)
  simp only [List.mem_map, List.mem_dedup] at hmem ⊢
  exact hmem

end Rows

/-- The index is one of the pairs `e`. -/
structure HoldsAll (fp : Fingerprinter α) (on : Prop) (ix : RecognitionIndex)
    (e : List (String × α)) : Prop where
  nodup : (e.map Prod.fst).Nodup
  enrolled : ∀ id, id ∈ ix.enrolled ↔ id ∈ e.map Prod.fst
  pairs : HasRows (fun x => (fp.prints x).pairHashes) e ix.pairs
  grams : HasRows (fun x => (fp.prints x).gramHashes) e ix.grams
  minhashSig : ∀ r, r ∈ ix.minhashSig ↔ on ∧ ∃ p ∈ e, p.1 = r.memoryId ∧ fp.shingles p.2 = r.sig
  minhashBands : ∀ r, r ∈ ix.minhashBands ↔
    on ∧ ∃ p ∈ e, p.1 = r.memoryId ∧ r.bandHash ∈ fp.shingles p.2

theorem holdsAll_fresh : HoldsAll fp on {} [] where
  nodup := List.nodup_nil
  enrolled id := by simp
  pairs r := by simp
  grams r := by simp
  minhashSig r := by simp
  minhashBands r := by simp

/-- The marker and the features, and the shingle set when its channel is on. -/
theorem HoldsAll.index [Decidable on] (h : HoldsAll fp on ix e) {id : String}
    (hid : id ∉ e.map Prod.fst) (x : α) :
    HoldsAll fp on (RecognitionStore.indexWhole on ix id (fp.prints x) (fp.shingles x))
      (e ++ [(id, x)]) := by
  have henrolled : ∀ id', id' ∈ ix.enrolled.insertOrIgnore id ↔
      id' ∈ (e ++ [(id, x)]).map Prod.fst := by
    intro id'
    rw [Table.mem_insertOrIgnore_row, h.enrolled, List.map_append, List.mem_append]
    simp
  have hother : ∀ p ∈ e, p.1 ≠ id := fun p hp heq => hid (heq ▸ List.mem_map_of_mem hp)
  unfold RecognitionStore.indexWhole
  dsimp only
  split
  · rename_i hon
    refine ⟨nodup_concat_id h.nodup hid, henrolled, h.pairs.insert id x, h.grams.insert id x, ?_, ?_⟩
    · intro r
      show r ∈ (ix.minhashSig.deleteWhere fun r => r.memoryId = id).insertOrIgnore
        ⟨id, fp.shingles x⟩ ↔ _
      have hfree : ¬ (ix.minhashSig.deleteWhere fun r => r.memoryId = id).Clashes
          ⟨id, fp.shingles x⟩ := by
        rintro ⟨r, hr, hclash⟩
        exact of_decide_eq_false (Table.mem_deleteWhere.1 hr).2 hclash
      have hold : r ∈ ix.minhashSig → r.memoryId ≠ id := by
        rintro hr heq
        obtain ⟨-, p, hp, hid, -⟩ := (h.minhashSig r).1 hr
        exact hother p hp (hid.trans heq)
      rw [Table.mem_insertOrIgnore, Table.mem_deleteWhere, exists_enrolled_iff]
      have hrow : r = ⟨id, fp.shingles x⟩ ↔ id = r.memoryId ∧ fp.shingles x = r.sig := by
        cases r
        simp [eq_comm]
      have := h.minhashSig r
      simp only [hon, true_and] at this
      simp only [hfree, not_false_eq_true, and_true, hrow, hon, true_and, ← this]
      grind
    · intro r
      refine (Table.mem_foldl_insertOrIgnore_row _ _).trans ?_
      have hband := h.minhashBands r
      rw [exists_enrolled_iff]
      simp only [hon, true_and] at hband ⊢
      refine (or_congr_left hband).trans (or_congr_right ⟨?_, ?_⟩)
      · rintro ⟨b, hb, rfl⟩
        exact ⟨rfl, hb⟩
      · rintro ⟨hid, hb⟩
        exact ⟨r.bandHash, hb, by rw [hid]⟩
  · rename_i hoff
    refine ⟨nodup_concat_id h.nodup hid, henrolled, h.pairs.insert id x, h.grams.insert id x, ?_, ?_⟩
    · intro r
      refine (h.minhashSig r).trans ?_
      simp [hoff]
    · intro r
      refine (h.minhashBands r).trans ?_
      simp [hoff]

theorem HoldsAll.forget (h : HoldsAll fp on ix e) (id : String) :
    HoldsAll fp on (ix.forget id).1 (e.filter fun p => p.1 ≠ id) where
  nodup := h.nodup.sublist (List.filter_sublist.map Prod.fst)
  enrolled id' := by
    rw [mem_enrolled_forget, h.enrolled, mem_ids_kept]
  pairs := h.pairs.delete id
  grams := h.grams.delete id
  minhashSig r := by
    refine Table.mem_deleteWhere.trans ?_
    rw [h.minhashSig r, exists_kept_iff, decide_eq_false_iff_not, and_assoc]
  minhashBands r := by
    refine Table.mem_deleteWhere.trans ?_
    rw [h.minhashBands r, exists_kept_iff, decide_eq_false_iff_not, and_assoc]

theorem HoldsAll.enrolledCount (h : HoldsAll fp on ix e) : ix.enrolled.rows.length = e.length := by
  have hperm : ix.enrolled.rows.Perm (e.map Prod.fst) :=
    (List.perm_ext_iff_of_nodup ix.enrolled.nodup_rows h.nodup).2 h.enrolled
  rw [hperm.length_eq, List.length_map]

theorem nodup_lookupMinhash (bands : List UInt64) : (ix.lookupMinhash bands).Nodup := by
  refine List.Nodup.filterMap ?_ (List.nodup_dedup _)
  intro id id' c hid hid'
  obtain ⟨r, -, rfl⟩ := Option.map_eq_some_iff.1 hid
  obtain ⟨r', -, heq⟩ := Option.map_eq_some_iff.1 hid'
  exact (congrArg Prod.fst heq).symm

/-- The candidates are what shares a band, with its shingles. -/
theorem HoldsAll.mem_lookupMinhash (h : HoldsAll fp on ix e) {bands : List UInt64}
    {c : String × List UInt64} : c ∈ ix.lookupMinhash bands ↔
      on ∧ ∃ p ∈ e, p.1 = c.1 ∧ fp.shingles p.2 = c.2 ∧ ∃ b ∈ bands, b ∈ fp.shingles p.2 := by
  unfold lookupMinhash
  simp only [List.mem_filterMap, List.mem_dedup, List.mem_map, List.mem_filter, Table.mem_rows,
    decide_eq_true_eq, Option.map_eq_some_iff, Table.find?_key_eq_some, h.minhashBands, h.minhashSig]
  constructor
  · rintro ⟨-, ⟨b, ⟨⟨-, q, hq, hqid, hbq⟩, hb⟩, rfl⟩, r, ⟨⟨hon, p, hp, hpid, hsig⟩, hrid⟩, rfl⟩
    have hsame : q = p :=
      List.inj_on_of_nodup_map h.nodup hq hp (hqid.trans (hrid.symm.trans hpid.symm))
    subst hsame
    exact ⟨hon, q, hq, hqid, hsig, b.bandHash, hb, hbq⟩
  · rintro ⟨hon, p, hp, hpid, hsig, b, hb, hbp⟩
    exact ⟨c.1, ⟨⟨b, c.1⟩, ⟨⟨hon, p, hp, hpid, hbp⟩, hb⟩, rfl⟩, ⟨c.1, c.2⟩,
      ⟨⟨hon, p, hp, hpid, hsig⟩, rfl⟩, rfl⟩

end RecognitionIndex

/-! ## Any store -/

/-- `HoldsAll fp on store e` says that the store is one of the pairs `e`: the fingerprints are those
of `fp`, and the shingles too when their channel is `on`. -/
class HoldingStore (σ : Type) [RecognitionStore σ] where
  HoldsAll : ∀ {α : Type}, Fingerprinter α → Prop → σ → List (String × α) → Prop
  nodup : ∀ {α : Type} {fp : Fingerprinter α} {on : Prop} {store : σ} {e : List (String × α)},
    HoldsAll fp on store e → (e.map Prod.fst).Nodup
  fresh : ∀ {α : Type} {fp : Fingerprinter α} {on : Prop}, HoldsAll fp on RecognitionStore.fresh []
  isEnrolled : ∀ {α : Type} {fp : Fingerprinter α} {on : Prop} {store : σ} {e : List (String × α)},
    HoldsAll fp on store e → ∀ id, RecognitionStore.isEnrolled store id = true ↔ id ∈ e.map Prod.fst
  index : ∀ {α : Type} {fp : Fingerprinter α} {on : Prop} [Decidable on] {store : σ}
    {e : List (String × α)}, HoldsAll fp on store e → ∀ {id}, id ∉ e.map Prod.fst → ∀ x : α,
    HoldsAll fp on (RecognitionStore.indexWhole on store id (fp.prints x) (fp.shingles x))
      (e ++ [(id, x)])
  forget : ∀ {α : Type} {fp : Fingerprinter α} {on : Prop} {store : σ} {e : List (String × α)},
    HoldsAll fp on store e → ∀ id,
    HoldsAll fp on (RecognitionStore.forgetMemory store id).1 (e.filter fun p => p.1 ≠ id)
  enrolledCount : ∀ {α : Type} {fp : Fingerprinter α} {on : Prop} {store : σ}
    {e : List (String × α)}, HoldsAll fp on store e → RecognitionStore.enrolledCount store = e.length
  mem_lookupPairs : ∀ {α : Type} {fp : Fingerprinter α} {on : Prop} {store : σ}
    {e : List (String × α)}, HoldsAll fp on store e → ∀ {hashes : List (UInt64 × String)} {id h l},
    (∃ m ∈ RecognitionStore.lookupPairs store hashes,
      m.memoryId = id ∧ m.hash = h ∧ m.label = l) ↔
    h ∈ hashes.map Prod.fst ∧ ∃ p ∈ e, p.1 = id ∧ (h, l) ∈ (fp.prints p.2).pairHashes
  mem_lookupGrams : ∀ {α : Type} {fp : Fingerprinter α} {on : Prop} {store : σ}
    {e : List (String × α)}, HoldsAll fp on store e → ∀ {hashes : List (UInt64 × String)} {id h l},
    (∃ m ∈ RecognitionStore.lookupGrams store hashes,
      m.memoryId = id ∧ m.hash = h ∧ m.label = l) ↔
    h ∈ hashes.map Prod.fst ∧ ∃ p ∈ e, p.1 = id ∧ (h, l) ∈ (fp.prints p.2).gramHashes
  nodup_lookupMinhash : ∀ (store : σ) (bands : List UInt64),
    (RecognitionStore.lookupMinhash store bands).Nodup
  mem_lookupMinhash : ∀ {α : Type} {fp : Fingerprinter α} {on : Prop} {store : σ}
    {e : List (String × α)}, HoldsAll fp on store e → ∀ {bands : List UInt64}
    {c : String × List UInt64}, c ∈ RecognitionStore.lookupMinhash store bands ↔
      on ∧ ∃ p ∈ e, p.1 = c.1 ∧ fp.shingles p.2 = c.2 ∧ ∃ b ∈ bands, b ∈ fp.shingles p.2

section

variable {hashesOf : α → List (UInt64 × String)} {e : List (String × α)}
  {hashes : List (UInt64 × String)} {id l : String} {h : UInt64}

/-- A match is a hash that the stimulus and a memory have. -/
theorem HasFeatures.mem_lookup {index : FeatureMap} (hindex : HasFeatures hashesOf e index) :
    (∃ m ∈ InMemoryRecognitionStore.lookup index hashes,
      m.memoryId = id ∧ m.hash = h ∧ m.label = l) ↔
    h ∈ hashes.map Prod.fst ∧ ∃ p ∈ e, p.1 = id ∧ (h, l) ∈ hashesOf p.2 := by
  rw [lookup_eq]
  simp only [hindex _, List.mem_flatMap, List.mem_map, mem_entriesOf]
  constructor
  · rintro ⟨-, ⟨f, hf, entry, ⟨p, hp, hid, hl⟩, rfl⟩, rfl, rfl, rfl⟩
    exact ⟨⟨f, hf, rfl⟩, p, hp, hid, hl⟩
  · rintro ⟨⟨f, hf, rfl⟩, p, hp, rfl, hl⟩
    exact ⟨_, ⟨f, hf, (p.1, l), ⟨p, hp, rfl, hl⟩, rfl⟩, rfl, rfl, rfl⟩

theorem RecognitionIndex.HasRows.mem_lookup {t : Table FeatureRow (SameKey fun r => r)}
    (ht : HasRows hashesOf e t) :
    (∃ m ∈ RecognitionIndex.lookupTable t hashes,
      m.memoryId = id ∧ m.hash = h ∧ m.label = l) ↔
    h ∈ hashes.map Prod.fst ∧ ∃ p ∈ e, p.1 = id ∧ (h, l) ∈ hashesOf p.2 := by
  unfold RecognitionIndex.lookupTable
  simp only [List.mem_flatMap, List.mem_map, List.mem_filter, decide_eq_true_eq, Table.mem_rows]
  constructor
  · rintro ⟨-, ⟨f, hf, r, ⟨hr, heq⟩, rfl⟩, rfl, rfl, rfl⟩
    obtain ⟨p, hp, hid, hl⟩ := (ht r).1 hr
    exact ⟨⟨f, hf, rfl⟩, p, hp, hid, heq ▸ hl⟩
  · rintro ⟨⟨f, hf, rfl⟩, p, hp, rfl, hl⟩
    exact ⟨_, ⟨f, hf, ⟨f.1, p.1, l⟩, ⟨(ht _).2 ⟨p, hp, rfl, hl⟩, rfl⟩, rfl⟩, rfl, rfl, rfl⟩

end

section

variable {hashesOf : α → List (UInt64 × String)} {e : List (String × α)} {index : FeatureMap}
  {t : Table FeatureRow (SameKey fun r => r)} {hashes : List (UInt64 × String)}

/-- **Where the stores agree.**  They find the same for some hashes exactly when no memory is twice
under any of them. -/
theorem lookup_perm_lookupTable_iff (hindex : HasFeatures hashesOf e index)
    (ht : RecognitionIndex.HasRows hashesOf e t) :
    (InMemoryRecognitionStore.lookup index hashes).Perm (RecognitionIndex.lookupTable t hashes) ↔
      ∀ h ∈ hashes.map Prod.fst, ((entriesOf hashesOf e h).map Prod.fst).Nodup := by
  rw [lookup_eq]
  unfold RecognitionIndex.lookupTable
  simp only [hindex _]
  constructor
  · intro hperm h hh
    -- the frequency of an entry is the number of the entries here, and that of the memories there
    cases hentries : entriesOf hashesOf e h with
    | nil => exact List.nodup_nil
    | cons entry rest =>
      rw [← hentries]
      obtain ⟨f, hf, rfl⟩ := List.mem_map.1 hh
      have hmatch : (⟨f.1, entry.1, entry.2, (entriesOf hashesOf e f.1).length⟩ : FeatureMatch) ∈
          hashes.flatMap fun h => (entriesOf hashesOf e h.1).map fun entry =>
            ⟨h.1, entry.1, entry.2, (entriesOf hashesOf e h.1).length⟩ :=
        List.mem_flatMap.2 ⟨f, hf, List.mem_map.2 ⟨entry, hentries ▸ List.mem_cons_self, rfl⟩⟩
      obtain ⟨f', -, hrow⟩ := List.mem_flatMap.1 (hperm.mem_iff.1 hmatch)
      obtain ⟨r, hr, heq⟩ := List.mem_map.1 hrow
      simp only [FeatureMatch.mk.injEq] at heq
      obtain ⟨hhash, -, -, hdf⟩ := heq
      rw [of_decide_eq_true (List.mem_filter.1 hr).2, hhash, ht.docFrequency_eq] at hdf
      refine List.dedup_eq_self.1 ((List.dedup_sublist _).eq_of_length ?_)
      rw [hdf, List.length_map]
  · intro hnodup
    refine List.Perm.flatMap_left _ fun f hf => ?_
    have hids := hnodup f.1 (List.mem_map_of_mem hf)
    have hrows := ht.rows_perm f.1
    rw [List.dedup_eq_self.2 hids.of_map] at hrows
    have hdf := ht.docFrequency_eq f.1
    rw [List.dedup_eq_self.2 hids, List.length_map] at hdf
    have hmatches := (hrows.map fun entry => (⟨f.1, entry.1, entry.2,
      (entriesOf hashesOf e f.1).length⟩ : FeatureMatch)).symm
    rw [List.map_map] at hmatches
    refine hmatches.trans (List.Perm.of_eq (List.map_congr_left fun r hr => ?_))
    rw [of_decide_eq_true (List.mem_filter.1 hr).2, hdf]
    rfl

end

instance : HoldingStore InMemoryRecognitionStore where
  HoldsAll := InMemoryRecognitionStore.HoldsAll
  nodup h := h.nodup
  fresh := InMemoryRecognitionStore.holdsAll_fresh
  isEnrolled h id := decide_eq_true_iff.trans (h.enrolled id)
  index h _ hid x := h.index hid x
  forget h id := h.forget id
  enrolledCount h := h.enrolledCount
  mem_lookupPairs h := h.pairs.mem_lookup
  mem_lookupGrams h := h.grams.mem_lookup
  nodup_lookupMinhash _ bands := InMemoryRecognitionStore.nodup_lookupMinhash bands
  mem_lookupMinhash h := h.mem_lookupMinhash

instance : HoldingStore RecognitionIndex where
  HoldsAll := RecognitionIndex.HoldsAll
  nodup h := h.nodup
  fresh := RecognitionIndex.holdsAll_fresh
  isEnrolled h id := decide_eq_true_iff.trans (h.enrolled id)
  index h _ hid x := h.index hid x
  forget h id := h.forget id
  enrolledCount h := h.enrolledCount
  mem_lookupPairs h := h.pairs.mem_lookup
  mem_lookupGrams h := h.grams.mem_lookup
  nodup_lookupMinhash _ bands := RecognitionIndex.nodup_lookupMinhash bands
  mem_lookupMinhash h := h.mem_lookupMinhash

namespace HoldingStore

variable {σ τ : Type} [RecognitionStore σ] [HoldingStore σ] [RecognitionStore τ] [HoldingStore τ]
  {fp : Fingerprinter α} {on : Prop} {e e' : List (String × α)} {store : σ} {store' : τ}

/-- Stores of the same pairs have the same candidates. -/
theorem lookupMinhash_perm (h : HoldsAll fp on store e) (h' : HoldsAll fp on store' e')
    (hperm : e.Perm e') (bands : List UInt64) :
    (RecognitionStore.lookupMinhash store bands).Perm (RecognitionStore.lookupMinhash store' bands) := by
  refine (List.perm_ext_iff_of_nodup (nodup_lookupMinhash _ _) (nodup_lookupMinhash _ _)).2 fun c => ?_
  rw [mem_lookupMinhash h, mem_lookupMinhash h']
  simp only [hperm.mem_iff]

/-- The engine's enrolment of a text. -/
theorem enroll {rc : Recognizer} {e : List (String × String)}
    (h : HoldsAll rc.fingerprinter (0 < rc.minhashWeight) store e) {id : String}
    (hid : id ∉ e.map Prod.fst) (content : String) :
    HoldsAll rc.fingerprinter (0 < rc.minhashWeight) (RecognitionEngine.enroll rc store id content)
      (e ++ [(id, content)]) := by
  rw [RecognitionEngine.enroll, if_neg fun hold => hid ((isEnrolled h id).1 hold)]
  exact index h hid content

end HoldingStore

end Spectral
