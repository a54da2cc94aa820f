import Spectral.Federation.Recall

/-!
# Single and batched provenance

`provenance` looks one key up: it takes the first manifest row of the key.  `provenance_batch` looks
up a list of keys in chunks, and what it scans later overwrites what it scanned before: of the wings
of a key, the greatest stays.

* `exists_foldl_update` — of the rows of a key, the last one of a sorted scan stays.
* `provenanceBatch_resolves` — the two agree on which keys are private and on the authors of the
  others, and on the wing exactly if the first manifest row of the key is in the greatest of its
  wings.
* `two_wings_note` — a memory shared into two wings, in their order, has two provenances.
-/

namespace Spectral

open Spectral.Lib

/-! ## Rows that overwrite each other -/

section Overwrite

variable {ρ κ ν : Type} [DecidableEq κ] {key : ρ → κ} {value : ρ → ν} {rows : List ρ}
  {out : κ → Option ν} {k : κ}

/-- An entry no row is about keeps its value. -/
theorem foldl_update_of_forall_ne (h : ∀ m ∈ rows, key m ≠ k) :
    rows.foldl (fun out m => Function.update out (key m) (some (value m))) out k = out k := by
  induction rows using List.reverseRecOn with
  | nil => rfl
  | append_singleton rows m ih =>
    rw [List.foldl_append, List.foldl_cons, List.foldl_nil,
      Function.update_of_ne (h m (by simp)).symm]
    exact ih fun m' hm' => h m' (List.mem_append_left _ hm')

/-- Of the rows that are about an entry, the last one stays. -/
theorem exists_foldl_update {r : ρ → ρ → Prop} (hrefl : ∀ m, r m m) (hsorted : rows.Pairwise r)
    (h : ∃ m ∈ rows, key m = k) :
    ∃ last ∈ rows, key last = k ∧ (∀ m ∈ rows, key m = k → r m last) ∧
      rows.foldl (fun out m => Function.update out (key m) (some (value m))) out k =
        some (value last) := by
  induction rows using List.reverseRecOn with
  | nil =>
    obtain ⟨m, hm, -⟩ := h
    exact absurd hm List.not_mem_nil
  | append_singleton rows m ih =>
    obtain ⟨hpast, -, hbefore⟩ := List.pairwise_append.1 hsorted
    rw [List.foldl_append, List.foldl_cons, List.foldl_nil]
    by_cases hk : key m = k
    · refine ⟨m, by simp, hk, fun m' hm' _ => ?_, ?_⟩
      · rcases List.mem_append.1 hm' with hm' | hm'
        · exact hbefore m' hm' m (List.mem_singleton_self m)
        · rw [List.mem_singleton.1 hm']
          exact hrefl m
      · rw [hk, Function.update_self]
    · have hsome : ∃ m ∈ rows, key m = k := by
        obtain ⟨m', hm', hk'⟩ := h
        refine ⟨m', (List.mem_append.1 hm').resolve_right fun hlast => hk ?_, hk'⟩
        rwa [List.mem_singleton.1 hlast] at hk'
      obtain ⟨last, hlast, hkey, hgreatest, hget⟩ := ih hpast hsome
      refine ⟨last, List.mem_append_left _ hlast, hkey, fun m' hm' hk' => ?_, ?_⟩
      · rcases List.mem_append.1 hm' with hm' | hm'
        · exact hgreatest m' hm' hk'
        · rw [List.mem_singleton.1 hm'] at hk'
          exact absurd hk' hk
      · rw [Function.update_of_ne fun heq => hk heq.symm, hget]

end Overwrite

/-! ## Lookups -/

namespace Store

variable (s : Store)

/-- The manifest row a `SELECT ... WHERE mem_key = ?1 LIMIT 1` finds. -/
def firstMember (memKey : String) : Option ManifestRow :=
  s.sharedWingMembers.rows.find? fun m => m.memKey = memKey

/-- `source_brain_id` of the memory under a key. -/
def authorOf (memKey : String) : Option Bytes32 :=
  (s.memoryByKey memKey).bind MemoryRow.sourceBrainId

/-- `provenance`: the origin of one key. -/
def provenance (memKey : String) : Origin :=
  match s.firstMember memKey with
  | none => .priv
  | some m => .shared m.wingId (s.authorOf memKey)

/-- A key is shared into a wing. -/
def InWing (memKey wing : String) : Prop :=
  ∃ m ∈ s.sharedWingMembers, m.memKey = memKey ∧ m.wingId = wing

/-- The greatest wing of a key. -/
structure GreatestWing (memKey wing : String) : Prop where
  inWing : s.InWing memKey wing
  le : ∀ m ∈ s.sharedWingMembers, m.memKey = memKey → m.wingId ≤ wing

/-- No manifest row of a key is in a greater wing than the first one. -/
def FirstIsGreatest (memKey : String) : Prop :=
  ∀ first ∈ s.firstMember memKey, ∀ m ∈ s.sharedWingMembers, m.memKey = memKey →
    m.wingId ≤ first.wingId

variable {s} {keys : List String} {k : String}

theorem mem_of_mem_keyChunks {c : List String} (hc : c ∈ keyChunks keys) (hk : k ∈ c) :
    k ∈ keys := by
  obtain ⟨i, -, rfl⟩ := List.mem_map.1 hc
  exact List.mem_of_mem_drop (List.mem_of_mem_take hk)

theorem firstMember_eq_some {m : ManifestRow} (h : s.firstMember k = some m) :
    m ∈ s.sharedWingMembers ∧ m.memKey = k := by
  unfold firstMember at h
  exact ⟨List.mem_of_find?_eq_some h, by simpa using List.find?_some h⟩

theorem firstMember_eq_none :
    s.firstMember k = none ↔ ∀ m ∈ s.sharedWingMembers, m.memKey ≠ k := by
  simp [firstMember, List.find?_eq_none]

theorem GreatestWing.unique {w w' : String} (h : s.GreatestWing k w) (h' : s.GreatestWing k w') :
    w = w' := by
  obtain ⟨m, hm, hk, rfl⟩ := h.inWing
  obtain ⟨m', hm', hk', rfl⟩ := h'.inWing
  exact le_antisymm (h'.le m hm hk) (h.le m' hm' hk')

/-- The first manifest row is in the greatest wing exactly if none is in a greater one. -/
theorem greatestWing_iff_firstIsGreatest {first : ManifestRow} (h : s.firstMember k = some first) :
    s.GreatestWing k first.wingId ↔ s.FirstIsGreatest k := by
  obtain ⟨hm, hk⟩ := firstMember_eq_some h
  unfold FirstIsGreatest
  rw [h]
  constructor
  · rintro hgreatest first' hfirst'
    cases hfirst'
    exact hgreatest.le
  · intro hle
    exact ⟨⟨first, hm, hk, rfl⟩, hle first rfl⟩

/-! ## The scan -/

/-- The rows of a chunk are scanned in the order of their wings. -/
theorem pairwise_membersOf (chunk : List String) :
    (s.membersOf chunk).Pairwise fun a b => a.wingId ≤ b.wingId :=
  Lib.pairwise_sort_key ManifestRow.wingId _

/-- A key no manifest row names keeps the origin it has. -/
theorem provenanceBatch_of_forall_ne (h : ∀ m ∈ s.sharedWingMembers, m.memKey ≠ k) :
    s.provenanceBatch keys k = if k ∈ keys then some .priv else none := by
  unfold provenanceBatch
  rw [← List.foldl_flatMap]
  refine foldl_update_of_forall_ne fun m hm => h m ?_
  obtain ⟨c, -, hmc⟩ := List.mem_flatMap.1 hm
  exact (mem_membersOf.1 hmc).1

/-- A key that is not asked for is not answered. -/
theorem provenanceBatch_of_not_mem (h : k ∉ keys) : s.provenanceBatch keys k = none := by
  unfold provenanceBatch
  rw [← List.foldl_flatMap, foldl_update_of_forall_ne, if_neg h]
  intro m hm hk
  obtain ⟨c, hc, hmc⟩ := List.mem_flatMap.1 hm
  exact h (mem_of_mem_keyChunks hc (hk ▸ (mem_membersOf.1 hmc).2))

/-- **The scan.**  Of the wings of a key that is asked for, the greatest stays. -/
theorem exists_greatestWing_provenanceBatch (hk : k ∈ keys)
    (hm : ∃ m ∈ s.sharedWingMembers, m.memKey = k) :
    ∃ wing, s.GreatestWing k wing ∧
      s.provenanceBatch keys k = some (.shared wing (s.authorOf k)) := by
  unfold provenanceBatch
  obtain ⟨c, hc, hkc⟩ := exists_chunk_of_mem hk
  have hasked : ∃ c ∈ keyChunks keys, k ∈ c := ⟨c, hc, hkc⟩
  generalize keyChunks keys = chunks at hasked
  -- the last chunk that asks for the key decides
  induction chunks using List.reverseRecOn with
  | nil =>
    obtain ⟨c, hc, -⟩ := hasked
    exact absurd hc List.not_mem_nil
  | append_singleton chunks chunk ih =>
    rw [List.foldl_append, List.foldl_cons, List.foldl_nil]
    by_cases hin : k ∈ chunk
    · obtain ⟨m, hm, hmk⟩ := hm
      have hrow : ∃ m ∈ s.membersOf chunk, m.memKey = k :=
        ⟨m, mem_membersOf.2 ⟨hm, hmk ▸ hin⟩, hmk⟩
      obtain ⟨last, hlast, hkey, hgreatest, hget⟩ := exists_foldl_update
        (fun m : ManifestRow => le_refl m.wingId) (pairwise_membersOf chunk) hrow
      refine ⟨last.wingId, ⟨⟨last, (mem_membersOf.1 hlast).1, hkey, rfl⟩, fun m' hm' hk' => ?_⟩, ?_⟩
      · exact hgreatest m' (mem_membersOf.2 ⟨hm', hk' ▸ hin⟩) hk'
      · rw [hget, hkey]
        rfl
    · have hothers : ∀ m ∈ s.membersOf chunk, m.memKey ≠ k := by
        intro m hm hmk
        exact hin (hmk ▸ (mem_membersOf.1 hm).2)
      rw [foldl_update_of_forall_ne hothers]
      refine ih ?_
      obtain ⟨c, hc, hkc⟩ := hasked
      refine ⟨c, (List.mem_append.1 hc).resolve_right fun hlast => hin ?_, hkc⟩
      rwa [List.mem_singleton.1 hlast] at hkc

/-- **Single and batched provenance.**  The batch answers the keys it is asked for and no others.
It answers that a key is private as the single lookup does, when no manifest row names the key.
Otherwise both give the author of the memory and a wing of the key, the batch the greatest one;
and the answers are the same exactly if the first manifest row is in the greatest wing. -/
theorem provenanceBatch_resolves (s : Store) (keys : List String) :
    (∀ k, k ∉ keys → s.provenanceBatch keys k = none) ∧
      ∀ k ∈ keys, ∃ origin, s.provenanceBatch keys k = some origin ∧
        (origin = .priv ↔ s.provenance k = .priv) ∧
        (s.provenance k = .priv ↔ ∀ m ∈ s.sharedWingMembers, m.memKey ≠ k) ∧
        (∀ wing author, origin = .shared wing author → s.GreatestWing k wing ∧
          ∃ wing', s.InWing k wing' ∧ s.provenance k = .shared wing' author) ∧
        (origin = s.provenance k ↔ s.FirstIsGreatest k) := by
  refine ⟨fun k => provenanceBatch_of_not_mem, fun k hk => ?_⟩
  unfold provenance
  cases hfirst : s.firstMember k with
  | none =>
    have hnone := firstMember_eq_none.1 hfirst
    refine ⟨.priv, ?_, by simp, by simpa using hnone, fun _ _ h => (by cases h), ?_⟩
    · rw [provenanceBatch_of_forall_ne hnone, if_pos hk]
    · refine iff_of_true rfl fun first h => ?_
      rw [hfirst] at h
      cases h
  | some first =>
    obtain ⟨hm, hkey⟩ := firstMember_eq_some hfirst
    obtain ⟨wing, hgreatest, hbatch⟩ :=
      exists_greatestWing_provenanceBatch hk ⟨first, hm, hkey⟩
    refine ⟨_, hbatch, by simp, ?_, ?_, ?_⟩
    · exact iff_of_false (by simp) fun h => h first hm hkey
    · rintro wing' author h
      cases h
      exact ⟨hgreatest, first.wingId, ⟨first, hm, hkey, rfl⟩, rfl⟩
    · rw [← greatestWing_iff_firstIsGreatest hfirst]
      constructor
      · intro heq
        cases heq
        exact hgreatest
      · intro h
        rw [hgreatest.unique h]

/-- The note shared into two wings, the lesser one first. -/
def twiceShared : Store :=
  noteEnv.shared (noteEnv.shared (noteEnv.write note.createdAt {} noteMemory []) note.key "design")
    note.key "team"

/-- **Two provenances.**  One lookup gives the wing the note was shared into first, the other the
greatest. -/
theorem two_wings_note :
    twiceShared.provenance note.key = .shared "design" none ∧
      twiceShared.provenanceBatch [note.key] note.key = some (.shared "team" none) ∧
      ¬ twiceShared.provenanceBatch [note.key] note.key =
        some (twiceShared.provenance note.key) := by
  decide +kernel

end Store

end Spectral
