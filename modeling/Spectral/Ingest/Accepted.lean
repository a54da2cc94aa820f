import Spectral.Ingest.Fingerprints

/-!
# Writes that go through

A write fails on a new key whose id is in use, and on a fingerprint that is not ignored and links a
memory that is not there.

* `Takes`, `Accepts` — the rest, read off the store before the write, or the ingest.
* `isOk_writeMemoryInTx_iff`, `isOk_ingest_iff` — these are the ones that go through.
-/

namespace Spectral

open Spectral.Lib

/-- The fingerprints can be inserted one by one: each has an id that is in use by then, and is
ignored, or links memories that are there. -/
def Takes (there : String → Prop) : List String → List Fingerprint → Prop
  | _, [] => True
  | used, fp :: fps =>
    (fp.id ∈ used ∨ there fp.anchorMemoryId ∧ there fp.targetMemoryId) ∧
      Takes there (fp.id :: used) fps

instance decidableTakes (there : String → Prop) [DecidablePred there] :
    ∀ used fps, Decidable (Takes there used fps)
  | _, [] => isTrue trivial
  | used, fp :: fps =>
    have := decidableTakes there (fp.id :: used) fps
    inferInstanceAs (Decidable (_ ∧ Takes there (fp.id :: used) fps))

/-- **The condition.**  A new key comes with a new id, and its memory can be linked; under a key that
is there, the text is the same, or the memory is linked anew. -/
def Env.Accepts (env : Env) (s : Store) (memory : Memory) (fps : List Fingerprint) : Prop :=
  match s.memoryByKey memory.key with
  | none => ¬ s.HasMemory memory.id ∧ Takes (fun id => s.HasMemory id ∨ memory.id = id)
      (s.fingerprints.rows.map FingerprintRow.id) fps
  | some row => env.effectiveHash row = env.contentHash memory.content ∨
      Takes s.HasMemory ((s.fingerprints.rows.filter fun f => ¬ f.Names row.id).map
        FingerprintRow.id) fps

instance (env : Env) (s : Store) (memory : Memory) (fps : List Fingerprint) :
    Decidable (env.Accepts s memory fps) := by
  unfold Env.Accepts
  split <;> infer_instance

/-- The same of the memory an ingest prepares. -/
def Pipeline.Accepts (p : Pipeline) (now since : String) (s : Store)
    (id key content category visibility : String) (opts : IngestOpts) : Prop :=
  let memory := (p.prepare now since s id key content category visibility opts).2
  p.env.Accepts s memory (p.generateFingerprints s memory)

instance (p : Pipeline) (now since : String) (s : Store)
    (id key content category visibility : String) (opts : IngestOpts) :
    Decidable (p.Accepts now since s id key content category visibility opts) :=
  inferInstanceAs (Decidable (p.env.Accepts _ _ _))

/-! ## Inserts -/

theorem takes_congr {there there' : String → Prop} {used used' : List String}
    {fps : List Fingerprint} (hthere : ∀ id, there id ↔ there' id)
    (hused : ∀ id, id ∈ used ↔ id ∈ used') :
    Takes there used fps ↔ Takes there' used' fps := by
  induction fps generalizing used used' with
  | nil => exact Iff.rfl
  | cons fp fps ih =>
    unfold Takes
    rw [hthere, hthere, hused]
    refine and_congr_right' (ih fun id => ?_)
    rw [List.mem_cons, List.mem_cons, hused]

theorem takes_of_forall {there : String → Prop} {used : List String} {fps : List Fingerprint}
    (h : ∀ fp ∈ fps, there fp.anchorMemoryId ∧ there fp.targetMemoryId) : Takes there used fps := by
  induction fps generalizing used with
  | nil => exact trivial
  | cons fp fps ih =>
    exact ⟨Or.inr (h fp List.mem_cons_self), ih fun fp' hfp' => h fp' (List.mem_cons_of_mem _ hfp')⟩

namespace Store

variable {s : Store} {now : String}

/-- An update of other columns leaves the ids. -/
theorem hasMemory_of_updateMemories {s' : Store} {q : MemoryRow → Bool} {g : MemoryRow → MemoryRow}
    (hg : ∀ r, (g r).id = r.id ∧ (g r).key = r.key)
    (h : s'.memories = (s.updateMemories q g hg).memories) (id : String) :
    s'.HasMemory id ↔ s.HasMemory id := by
  have hid : ∀ r, (if q r then g r else r).id = r.id := by
    intro r
    split
    · exact (hg r).1
    · rfl
  unfold HasMemory
  rw [h]
  constructor
  · rintro ⟨r', hr', rfl⟩
    obtain ⟨r, hr, rfl⟩ := mem_memories_updateMemories.1 hr'
    exact ⟨r, hr, (hid r).symm⟩
  · rintro ⟨r, hr, rfl⟩
    exact ⟨_, mem_memories_updateMemories.2 ⟨r, hr, rfl⟩, hid r⟩

theorem clashes_row_iff {fp : Fingerprint} :
    s.fingerprints.Clashes (fp.row now) ↔ fp.id ∈ s.fingerprints.rows.map FingerprintRow.id :=
  List.mem_map.symm

/-- **The loop** that inserts fingerprints. -/
theorem isOk_foldlM_insertFingerprint_iff {fps : List Fingerprint} :
    (fps.foldlM (insertFingerprint now) s).isOk = true ↔
      Takes s.HasMemory (s.fingerprints.rows.map FingerprintRow.id) fps := by
  induction fps generalizing s with
  | nil => exact iff_of_true rfl trivial
  | cons fp fps ih =>
    rw [List.foldlM_cons]
    unfold insertFingerprint Takes
    by_cases hused : s.fingerprints.Clashes (fp.row now)
    · -- the id is in use already
      have hin := clashes_row_iff.1 hused
      rw [if_pos hused, and_iff_right (Or.inl hin)]
      refine ih.trans (takes_congr (fun _ => Iff.rfl) fun id => ?_)
      rw [List.mem_cons]
      exact (or_iff_right_of_imp fun h => h ▸ hin).symm
    · rw [if_neg hused]
      by_cases hends : s.HasMemory fp.anchorMemoryId ∧ s.HasMemory fp.targetMemoryId
      · rw [if_pos hends, and_iff_right (Or.inr hends)]
        refine ih.trans (takes_congr (fun _ => Iff.rfl) fun id => ?_)
        dsimp only
        rw [Table.rows_insertOrIgnore_of_not_clashes hused, List.map_append, List.mem_append,
          List.mem_cons, or_comm]
        exact or_congr_left List.mem_singleton
      · rw [if_neg hends]
        refine iff_of_false nofun fun h => h.1.elim (fun hin => hused (clashes_row_iff.2 hin)) hends

end Store

/-! ## Writes -/

namespace Env

variable {env : Env} {s : Store} {memory : Memory} {fps : List Fingerprint}

/-- **A write** goes through exactly when it is one that the store accepts. -/
theorem isOk_writeMemoryInTx_iff (now : String) :
    (env.writeMemoryInTx now s memory fps).isOk = true ↔ env.Accepts s memory fps := by
  have hok : ∀ {e : Except String Store} {out : WriteOutcome},
      (e.bind fun t => .ok (t, out)).isOk = e.isOk := by
    intro e out
    cases e <;> rfl
  unfold writeMemoryInTx Accepts
  dsimp only
  cases hk : s.memoryByKey memory.key with
  | none =>
    dsimp only
    unfold Store.insertMemory
    have hclash : s.memories.Clashes (env.newRow now memory) ↔ s.HasMemory memory.id := by
      constructor
      · rintro ⟨r, hr, hid | hkey⟩
        · exact ⟨r, hr, hid⟩
        · exact absurd hkey (Store.memoryByKey_eq_none.1 hk r hr)
      · rintro ⟨r, hr, hid⟩
        exact ⟨r, hr, Or.inl hid⟩
    by_cases hid : s.HasMemory memory.id
    · rw [if_pos (hclash.2 hid)]
      exact iff_of_false nofun fun h => h.1 hid
    · rw [if_neg fun h => hid (hclash.1 h), and_iff_right hid]
      refine (Bool.eq_iff_iff.1 hok).trans
        (Store.isOk_foldlM_insertFingerprint_iff.trans (takes_congr (fun id => ?_) fun _ => Iff.rfl))
      constructor
      · rintro ⟨r, hr, rfl⟩
        rcases Table.mem_insertOrIgnore.1 hr with hr | ⟨rfl, -⟩
        · exact Or.inl ⟨r, hr, rfl⟩
        · exact Or.inr rfl
      · rintro (⟨r, hr, rfl⟩ | rfl)
        · exact ⟨r, Table.mem_insertOrIgnore_of_mem hr, rfl⟩
        · exact ⟨_, Table.mem_insertOrIgnore.2 (Or.inr ⟨rfl, fun h => hid (hclash.1 h)⟩), rfl⟩
  | some row =>
    dsimp only
    by_cases hsame : env.effectiveHash row = env.contentHash memory.content
    · rw [if_pos hsame]
      exact iff_of_true rfl (Or.inl hsame)
    · rw [if_neg hsame, or_iff_right hsame]
      refine (Bool.eq_iff_iff.1 hok).trans
        (Store.isOk_foldlM_insertFingerprint_iff.trans
          (takes_congr (Store.hasMemory_of_updateMemories (by exact fun _ => ⟨rfl, rfl⟩) rfl)
            fun id => ?_))
      have hkept : ∀ f : FingerprintRow,
          (!(decide (f.anchorMemoryId = row.id) || decide (f.targetMemoryId = row.id))) =
            decide (¬ f.Names row.id) := by
        intro f
        simp [FingerprintRow.Names]
      exact Iff.of_eq (congrArg (fun rows => id ∈ List.map FingerprintRow.id rows)
        (List.filter_congr fun f _ => hkept f))

end Env

/-! ## Ingests -/

namespace Pipeline

variable {p : Pipeline} {s : Store}

/-- A memory whose key and id are new can be written, with the fingerprints generated for it. -/
theorem accepts_of_new {memory : Memory} (hkey : s.memoryByKey memory.key = none)
    (hid : ¬ s.HasMemory memory.id) :
    p.env.Accepts s memory (p.generateFingerprints s memory) := by
  unfold Env.Accepts
  rw [hkey]
  refine ⟨hid, takes_of_forall fun fp hfp => ?_⟩
  obtain ⟨peer, hpeer, rfl⟩ := List.mem_map.1 hfp
  exact ⟨Or.inl ⟨peer, (peer_of_mem_linked hpeer).1, rfl⟩, Or.inr rfl⟩

/-- **An ingest** goes through exactly when it is one that the store accepts. -/
theorem isOk_ingest_iff (p : Pipeline) (now since : String) (s : Store)
    (id key content category visibility : String) (opts : IngestOpts) :
    (p.ingest now since s id key content category visibility opts).2.isOk = true ↔
      p.Accepts now since s id key content category visibility opts := by
  obtain ⟨hmem, hfps, -, -⟩ :=
    @prepare_spares p s now since id key content category visibility opts
  have hingest : (p.ingest now since s id key content category visibility opts).2.isOk =
      (p.env.writeMemoryInTx now (p.prepare now since s id key content category visibility opts).1
        (p.prepare now since s id key content category visibility opts).2
        (p.generateFingerprints (p.prepare now since s id key content category visibility opts).1
          (p.prepare now since s id key content category visibility opts).2)).isOk := by
    have hfold : p.env.prepareIngest p.isWhitespace now since s id key content category visibility
        opts = p.prepare now since s id key content category visibility opts := rfl
    unfold ingest Env.ingestWith
    dsimp only
    rw [hfold]
    generalize p.env.writeMemoryInTx now _ _ _ = written
    cases written <;> rfl
  rw [hingest, Env.isOk_writeMemoryInTx_iff]
  unfold Accepts
  generalize p.prepare now since s id key content category visibility opts = prepared at *
  have hgenerated : p.generateFingerprints prepared.1 prepared.2 =
      p.generateFingerprints s prepared.2 := by
    unfold generateFingerprints linked peers Store.listWingMemoriesCapped Store.listWingMemories
    rw [hmem]
  unfold Env.Accepts Store.memoryByKey Store.HasMemory
  rw [hgenerated, hmem, hfps]

end Pipeline

end Spectral
