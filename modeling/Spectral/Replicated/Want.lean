import Spectral.Replicated.Runs

/-!
# Have and want

A peer advertises what it lists, and a store asks for what it lacks: `want` compares the two lists,
`wantScoped` leaves out what the store has retracted.

* `importSet_wanted` — a pack cut down to the wanted objects, with all its retractions, leaves what
  the whole pack leaves and counts the same objects as new.
* `wantScoped_after` — one round is enough: after it nothing the peer advertised is wanted.
* `delta_round` — both, of stores after any operations.
-/

namespace Spectral

open Spectral.Lib

/-- `missing_locally`: what the remote advertises and the local list lacks, as it is listed. -/
def missingLocally (localHashes remote : List String) : List String :=
  remote.filter fun h => h ∉ localHashes

/-- `want`. -/
def want (localHashes remote : List String) : List String := missingLocally localHashes remote

/-- A pack with some of its objects, and all its retractions. -/
def SetPack.only (pack : SetPack) (hashes : List String) : SetPack :=
  { pack with objects := pack.objects.filter fun o => o.objectHash ∈ hashes }

namespace ReplicatedSet

/-- `want_scoped`: what a peer advertises that is neither listed nor retracted. -/
def wantScoped (s : ReplicatedSet) (ns : String) (remote : List String) : List String :=
  remote.filter fun h => h ∉ s.enumerate ns && decide (¬ s.IsTombstoned ns h)

variable {s t : ReplicatedSet} {ns h : String} {remote : List String}

theorem mem_wantScoped :
    h ∈ s.wantScoped ns remote ↔ h ∈ remote ∧ h ∉ s.enumerate ns ∧ ¬ s.IsTombstoned ns h := by
  simp [wantScoped]

/-- What is not wanted is retracted, or there is a member under its hash. -/
theorem retracted_or_clashes_of_not_wanted {o : SetObject} (hremote : o.objectHash ∈ remote)
    (h : o.objectHash ∉ s.wantScoped ns remote) :
    s.IsTombstoned ns o.objectHash ∨ s.members.Clashes (o.row ns) := by
  by_cases ht : s.IsTombstoned ns o.objectHash
  · exact Or.inl ht
  · have hlisted : o.objectHash ∈ s.enumerate ns := by
      by_contra hnot
      exact h (mem_wantScoped.2 ⟨hremote, hnot, ht⟩)
    obtain ⟨m, hm, rfl, hhash, -⟩ := mem_enumerate.1 hlisted
    exact Or.inr ⟨m, hm, Prod.ext rfl hhash⟩

/-! ## The merge loop -/

/-- An object that is retracted or there already is passed over. -/
theorem importObject_eq_self {acc : ReplicatedSet × ℕ} {retracted : List String} {o : SetObject}
    (h : acc.1.IsTombstoned ns o.objectHash ∨ acc.1.members.Clashes (o.row ns)) :
    importObject ns retracted acc o = acc := by
  unfold importObject
  split
  · rfl
  · rename_i hskip
    have hclash := h.resolve_left fun ht => hskip (Or.inr ht)
    unfold insertMember
    rw [Table.insertOrIgnore_of_clashes hclash, Table.inserted, if_pos hclash, Nat.add_zero]

/-- The loop leaves the retractions alone and keeps every member. -/
theorem importObject_keeps (ns : String) (acc : ReplicatedSet × ℕ) (retracted : List String) (o : SetObject) :
    (importObject ns retracted acc o).1.tombstones = acc.1.tombstones ∧
      ∀ m ∈ acc.1.members, m ∈ (importObject ns retracted acc o).1.members := by
  unfold importObject
  split
  · exact ⟨rfl, fun m hm => hm⟩
  · exact ⟨rfl, fun m hm => mem_members_insertMember.2 (Or.inl hm)⟩

/-- **What is there or retracted can be left out of a pack**, for the loop passes it over. -/
theorem foldl_importObject_filter (retracted : List String) (keep : SetObject → Bool)
    (os : List SetObject) (acc : ReplicatedSet × ℕ)
    (h : ∀ o ∈ os, keep o = false →
      acc.1.IsTombstoned ns o.objectHash ∨ acc.1.members.Clashes (o.row ns)) :
    (os.filter keep).foldl (importObject ns retracted) acc =
      os.foldl (importObject ns retracted) acc := by
  induction os generalizing acc with
  | nil => rfl
  | cons o os ih =>
    obtain ⟨htombs, hmembers⟩ := importObject_keeps ns acc retracted o
    -- the next turn finds what this one found
    have hnext : ∀ o' ∈ os, keep o' = false →
        (importObject ns retracted acc o).1.IsTombstoned ns o'.objectHash ∨
          (importObject ns retracted acc o).1.members.Clashes (o'.row ns) := by
      intro o' ho' hkeep
      refine (h o' (List.mem_cons_of_mem o ho') hkeep).imp ?_ ?_
      · rintro ⟨t, ht, hrest⟩
        exact ⟨t, htombs ▸ ht, hrest⟩
      · rintro ⟨m, hm, hclash⟩
        exact ⟨m, hmembers m hm, hclash⟩
    cases hkeep : keep o with
    | true =>
      rw [List.filter_cons_of_pos hkeep, List.foldl_cons, List.foldl_cons]
      exact ih _ hnext
    | false =>
      rw [List.filter_cons_of_neg (by simp [hkeep]), List.foldl_cons]
      have hself : importObject ns retracted acc o = acc :=
        importObject_eq_self (h o List.mem_cons_self hkeep)
      rw [hself] at hnext ⊢
      exact ih acc hnext

/-- **Shipping what is wanted is enough.**  Of a pack whose objects were all advertised, the wanted
ones, with all the retractions, leave the same store and count the same. -/
theorem importSet_wanted (now : String) (pack : SetPack)
    (hadvertised : ∀ o ∈ pack.objects, o.objectHash ∈ remote) :
    s.importSet now (pack.only (s.wantScoped pack.ns remote)) = s.importSet now pack := by
  unfold importSet SetPack.only SetPack.retracted
  dsimp only
  rw [foldl_importObject_filter]
  intro o ho hkeep
  exact retracted_or_clashes_of_not_wanted (hadvertised o ho) (of_decide_eq_false hkeep)

/-! ## One round -/

/-- After its turn an object is retracted, by the pack or before, or there is a member under its
hash. -/
theorem importObject_settles (ns : String) (acc : ReplicatedSet × ℕ) (retracted : List String) (o : SetObject) :
    o.objectHash ∈ retracted ∨ (importObject ns retracted acc o).1.IsTombstoned ns o.objectHash ∨
      (importObject ns retracted acc o).1.members.Clashes (o.row ns) := by
  unfold importObject
  split
  · rename_i hskip
    exact hskip.imp_right Or.inl
  · refine Or.inr (Or.inr ?_)
    rcases Table.exists_clash_or_mem_insertOrIgnore acc.1.members (o.row ns) with
      ⟨m, hm, hclash⟩ | hnew
    · exact ⟨m, mem_members_insertMember.2 (Or.inl hm), hclash⟩
    · exact ⟨o.row ns, hnew, rfl⟩

theorem foldl_importObject_keeps (ns : String) (retracted : List String) (os : List SetObject)
    (acc : ReplicatedSet × ℕ) :
    (os.foldl (importObject ns retracted) acc).1.tombstones = acc.1.tombstones ∧
      ∀ m ∈ acc.1.members, m ∈ (os.foldl (importObject ns retracted) acc).1.members := by
  refine run_invariant (I := fun acc' : ReplicatedSet × ℕ =>
    acc'.1.tombstones = acc.1.tombstones ∧ ∀ m ∈ acc.1.members, m ∈ acc'.1.members)
    (fun acc' o hacc => ?_) ⟨rfl, fun m hm => hm⟩
  obtain ⟨htombs, hmembers⟩ := importObject_keeps ns acc' retracted o
  exact ⟨htombs.trans hacc.1, fun m hm => hmembers m (hacc.2 m hm)⟩

theorem foldl_importObject_settles (retracted : List String) (os : List SetObject)
    (acc : ReplicatedSet × ℕ) {o : SetObject} (ho : o ∈ os) :
    o.objectHash ∈ retracted ∨
      (os.foldl (importObject ns retracted) acc).1.IsTombstoned ns o.objectHash ∨
      (os.foldl (importObject ns retracted) acc).1.members.Clashes (o.row ns) := by
  obtain ⟨past, later, rfl⟩ := List.append_of_mem ho
  rw [List.foldl_append, List.foldl_cons]
  obtain ⟨htombs, hmembers⟩ := foldl_importObject_keeps ns retracted later
    (importObject ns retracted (past.foldl (importObject ns retracted) acc) o)
  rcases importObject_settles ns (past.foldl (importObject ns retracted) acc) retracted o
    with hret | ⟨t, ht, hrest⟩ | ⟨m, hm, hclash⟩
  · exact Or.inl hret
  · exact Or.inr (Or.inl ⟨t, htombs ▸ ht, hrest⟩)
  · exact Or.inr (Or.inr ⟨m, hmembers m hm, hclash⟩)

theorem isTombstoned_foldl_applyTombstone {now : String} {ts : List SetTombstone} :
    (ts.foldl (fun s t => s.applyTombstone now ns t.targetHash) s).IsTombstoned ns h ↔
      s.IsTombstoned ns h ∨ h ∈ ts.map SetTombstone.targetHash := by
  induction ts generalizing s with
  | nil => simp
  | cons t ts ih => simp [ih, isTombstoned_applyTombstone, or_assoc]

theorem mem_members_foldl_applyTombstone {now : String} {ts : List SetTombstone}
    {m : SetMemberRow} :
    m ∈ (ts.foldl (fun s t => s.applyTombstone now ns t.targetHash) s).members ↔
      m ∈ s.members ∧ ¬ (m.ns = ns ∧ m.objectHash ∈ ts.map SetTombstone.targetHash) := by
  induction ts generalizing s with
  | nil => simp
  | cons t ts ih =>
    rw [List.foldl_cons, ih, mem_members_applyTombstone, List.map_cons, List.mem_cons]
    tauto

/-- What a store that took the pack does not list of it, it has retracted. -/
theorem listed_or_retracted_importSet (now : String) {pack : SetPack} {o : SetObject}
    (ho : o ∈ pack.objects) :
    o.objectHash ∈ (s.importSet now pack).1.enumerate pack.ns ∨
      (s.importSet now pack).1.IsTombstoned pack.ns o.objectHash := by
  by_cases ht : (s.importSet now pack).1.IsTombstoned pack.ns o.objectHash
  · exact Or.inr ht
  · refine Or.inl ?_
    have hmerged := ht
    unfold importSet at hmerged
    rw [isTombstoned_foldl_applyTombstone, not_or] at hmerged
    obtain ⟨m, hm, hclash⟩ := ((foldl_importObject_settles pack.retracted pack.objects (s, 0)
      ho).resolve_left hmerged.2).resolve_left hmerged.1
    obtain ⟨hns, hhash⟩ := Prod.ext_iff.1 hclash
    refine mem_enumerate.2 ⟨m, mem_members_foldl_applyTombstone.2 ⟨hm, ?_⟩, hns, hhash, ht⟩
    rintro ⟨-, hret⟩
    rw [show m.objectHash = o.objectHash from hhash] at hret
    exact hmerged.2 hret

/-- Objects that are new, each under a hash of its own, are all counted. -/
theorem foldl_importObject_count {retracted : List String} {os : List SetObject}
    {acc : ReplicatedSet × ℕ} (hnew : ∀ o ∈ os, o.objectHash ∉ retracted ∧
      ¬ acc.1.IsTombstoned ns o.objectHash ∧ ¬ acc.1.members.Clashes (o.row ns))
    (hdistinct : (os.map SetObject.objectHash).Nodup) :
    (os.foldl (importObject ns retracted) acc).2 = acc.2 + os.length := by
  induction os generalizing acc with
  | nil => rfl
  | cons o os ih =>
    obtain ⟨hret, ht, hclash⟩ := hnew o List.mem_cons_self
    rw [List.map_cons, List.nodup_cons] at hdistinct
    have hstep : importObject ns retracted acc o = (acc.1.insertMember (o.row ns), acc.2 + 1) := by
      rw [importObject, if_neg (not_or.2 ⟨hret, ht⟩), Table.inserted, if_neg hclash]
    rw [List.foldl_cons, hstep, ih _ hdistinct.2, List.length_cons]
    · omega
    · intro o' ho'
      obtain ⟨hret', ht', hclash'⟩ := hnew o' (List.mem_cons_of_mem o ho')
      refine ⟨hret', ht', ?_⟩
      rintro ⟨m, hm, hpk⟩
      rcases mem_members_insertMember.1 hm with hm | ⟨rfl, -⟩
      · exact hclash' ⟨m, hm, hpk⟩
      · refine hdistinct.1 ?_
        rw [show o.objectHash = o'.objectHash from (Prod.ext_iff.1 hpk).2]
        exact List.mem_map_of_mem ho'

/-- The hashes of an export are what is listed. -/
theorem mem_enumerate_iff_object : h ∈ t.enumerate ns ↔
    ∃ o ∈ (t.exportSet ns).objects, o.objectHash = h := by
  rw [mem_enumerate]
  constructor
  · rintro ⟨m, hm, rfl, rfl, ht⟩
    exact ⟨⟨m.objectHash, m.blob⟩, mem_objects_exportSet.2 ⟨hm, ht⟩, rfl⟩
  · rintro ⟨o, ho, rfl⟩
    obtain ⟨hm, ht⟩ := mem_objects_exportSet.1 ho
    exact ⟨_, hm, rfl, rfl, ht⟩

theorem nodup_hashes_exportSet (t : ReplicatedSet) (ns : String) :
    ((t.exportSet ns).objects.map SetObject.objectHash).Nodup := by
  have hsorted := nodup_enumerate t ns
  rw [enumerate, (List.perm_insertionSort _ _).nodup_iff] at hsorted
  rwa [exportSet, List.map_map]

theorem not_retracted_exportSet {o : SetObject} (ho : o ∈ (t.exportSet ns).objects) :
    o.objectHash ∉ (t.exportSet ns).retracted := by
  intro hret
  obtain ⟨r, hr, hhash⟩ := List.mem_map.1 hret
  obtain ⟨row, hrow, rfl⟩ := List.mem_map.1 hr
  obtain ⟨hmem, hns⟩ := List.mem_filter.1 hrow
  exact (mem_objects_exportSet.1 ho).2 ⟨row, hmem, of_decide_eq_true hns, hhash⟩

/-- **A round of have and want.**  A store asks a peer for what it advertises and is neither listed
nor retracted.  The peer's pack cut down to this, with all retractions, carries exactly what was
asked for; merging it leaves the store that merging the whole pack leaves, and counts every object
it carries as new; and after it nothing the peer advertised is wanted any more, what the plain
comparison of the lists still reports being what the store has retracted. -/
theorem delta_round (s t : ReplicatedSet) (ns now : String) :
    let wanted := s.wantScoped ns (t.enumerate ns)
    let pack := (t.exportSet ns).only wanted
    let after := (s.importSet now pack).1
    (pack.objects.map SetObject.objectHash).Perm wanted ∧
      s.importSet now pack = s.importSet now (t.exportSet ns) ∧
      (s.importSet now pack).2 = wanted.length ∧
      after.wantScoped ns (t.enumerate ns) = [] ∧
      ∀ h, h ∈ want (after.enumerate ns) (t.enumerate ns) ↔
        h ∈ t.enumerate ns ∧ after.IsTombstoned ns h := by
  intro wanted pack after
  have hwhole : s.importSet now pack = s.importSet now (t.exportSet ns) :=
    importSet_wanted now (t.exportSet ns) fun o ho => mem_enumerate_iff_object.2 ⟨o, ho, rfl⟩
  have hnodup : (pack.objects.map SetObject.objectHash).Nodup :=
    (nodup_hashes_exportSet t ns).sublist (List.filter_sublist.map _)
  have hcarried : (pack.objects.map SetObject.objectHash).Perm wanted := by
    refine (List.perm_ext_iff_of_nodup hnodup ((nodup_enumerate t ns).filter _)).2 fun h => ?_
    rw [List.mem_map]
    constructor
    · rintro ⟨o, ho, rfl⟩
      exact of_decide_eq_true (List.mem_filter.1 ho).2
    · intro hw
      obtain ⟨o, ho, rfl⟩ := mem_enumerate_iff_object.1 (mem_wantScoped.1 hw).1
      exact ⟨o, List.mem_filter.2 ⟨ho, decide_eq_true hw⟩, rfl⟩
  have hsettled : ∀ h ∈ t.enumerate ns, h ∈ after.enumerate ns ∨ after.IsTombstoned ns h := by
    intro h hh
    obtain ⟨o, ho, rfl⟩ := mem_enumerate_iff_object.1 hh
    simp only [after, hwhole]
    exact listed_or_retracted_importSet now ho
  refine ⟨hcarried, hwhole, ?_, ?_, fun h => ?_⟩
  · rw [← hcarried.length_eq, List.length_map]
    refine (foldl_importObject_count (fun o ho => ?_) hnodup).trans (Nat.zero_add _)
    obtain ⟨hexported, hw⟩ := List.mem_filter.1 ho
    obtain ⟨-, hnot, ht⟩ := mem_wantScoped.1 (of_decide_eq_true hw)
    refine ⟨not_retracted_exportSet hexported, ht, ?_⟩
    rintro ⟨m, hm, hpk⟩
    obtain ⟨hns, hhash⟩ := Prod.ext_iff.1 hpk
    exact hnot (mem_enumerate.2 ⟨m, hm, hns, hhash, ht⟩)
  · refine List.filter_eq_nil_iff.2 fun h hh => ?_
    rcases hsettled h hh with hlisted | ht
    · simp [hlisted]
    · simp [ht]
  · rw [want, missingLocally, List.mem_filter, decide_eq_true_eq]
    refine and_congr_right fun hh => ⟨(hsettled h hh).resolve_left, fun ht hlisted => ?_⟩
    obtain ⟨-, -, -, -, hnot⟩ := mem_enumerate.1 hlisted
    exact hnot ht

end ReplicatedSet

end Spectral
