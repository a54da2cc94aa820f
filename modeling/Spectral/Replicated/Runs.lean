import Spectral.Replicated.Set
import Spectral.Lib.TwoPhaseSet

/-!
# Runs of the replicated set

What any sequence of puts, imports and retractions leaves.

* `retraction_dominates` — no hash is at once a member and retracted, a retracted hash is
  never listed or exported again, and an operation on one namespace leaves the others.
* `replicated_converge` — two stores that received the same operations, in any orders and any
  number of times, hold the same members and the same retractions.

A store represents a two-phase set of member rows (`Represents`); an import is a run of
member inserts followed by a run of retractions, each of which joins its effect on.
-/

namespace Spectral

open Spectral.Lib

/-- The operations that write a replicated set. -/
inductive SetOp where
  | put (ns hash : String) (blob : List UInt8)
  | importSet (pack : SetPack)
  | tombstoneSet (ns target : String)
  deriving DecidableEq

namespace SetOp

/-- The namespace an operation writes. -/
def ns : SetOp → String
  | put ns _ _ => ns
  | importSet pack => pack.ns
  | tombstoneSet ns _ => ns

/-- The member rows an operation carries. -/
def rows : SetOp → List SetMemberRow
  | put ns hash blob => [{ ns, objectHash := hash, blob }]
  | importSet pack => pack.objects.map (SetObject.row pack.ns)
  | tombstoneSet _ _ => []

/-- The effect of retracting a hash: every member under it goes. -/
def retraction (ns target : String) : TwoPhaseSet SetMemberRow :=
  { added := ∅, removed := {m | m.ns = ns ∧ m.objectHash = target} }

/-- What merging one object of a pack adds. -/
def merging (ns : String) (packRetracted : List String) (o : SetObject) :
    TwoPhaseSet SetMemberRow :=
  { added := {m | m = o.row ns ∧ o.objectHash ∉ packRetracted}, removed := ∅ }

/-- What an operation adds to and removes from the set. -/
def effect : SetOp → TwoPhaseSet SetMemberRow
  | put ns hash blob => { added := {{ ns, objectHash := hash, blob }}, removed := ∅ }
  | importSet pack =>
    (TwoPhaseSet.collect (merging pack.ns pack.retracted) pack.objects).merge
      (TwoPhaseSet.collect (fun t => retraction pack.ns t.targetHash) pack.tombstones)
  | tombstoneSet ns target => retraction ns target

end SetOp

namespace ReplicatedSet

/-- A store receives an operation, at the time its clock reads. -/
def receive (s : ReplicatedSet) (d : SetOp × String) : ReplicatedSet :=
  match d.1 with
  | .put ns hash blob => (s.put ns hash blob).1
  | .importSet pack => (s.importSet d.2 pack).1
  | .tombstoneSet ns target => s.tombstoneSet d.2 ns target

/-- The store that received the operations, in that order. -/
def replica (ds : List (SetOp × String)) : ReplicatedSet := run receive {} ds

variable {s : ReplicatedSet}

/-- What inserts of members that are not retracted and retractions keep, every operation
keeps. -/
theorem receive_induction {I : ReplicatedSet → Prop} (d : SetOp × String)
    (hinsert : ∀ (s : ReplicatedSet) (row : SetMemberRow), row.ns = d.1.ns →
      ¬ s.IsTombstoned row.ns row.objectHash → I s → I (s.insertMember row))
    (hretract : ∀ (s : ReplicatedSet) (now target : String), I s →
      I (s.applyTombstone now d.1.ns target))
    (h0 : I s) : I (s.receive d) := by
  obtain ⟨op, now⟩ := d
  cases op with
  | put ns hash blob =>
    simp only [receive, put]
    split
    · exact h0
    · rename_i ht
      exact hinsert s _ rfl ht h0
  | importSet pack =>
    have hmerged : I (run (importObject pack.ns pack.retracted) (s, 0) pack.objects).1 := by
      refine run_invariant (I := fun acc : ReplicatedSet × ℕ => I acc.1) (fun acc o hacc => ?_) h0
      unfold importObject
      split
      · exact hacc
      · rename_i hskip
        exact hinsert acc.1 _ rfl (fun ht => hskip (Or.inr ht)) hacc
    exact run_invariant (fun s (t : SetTombstone) hs => hretract s now t.targetHash hs) hmerged
  | tombstoneSet ns target => exact hretract s now target h0

/-! ## Dominance and isolation -/

/-- No hash is at once a member of a namespace and retracted in it. -/
def Dominated (s : ReplicatedSet) : Prop :=
  ∀ m ∈ s.members, ¬ s.IsTombstoned m.ns m.objectHash

theorem dominated_receive (h : s.Dominated) (d : SetOp × String) : (s.receive d).Dominated := by
  refine receive_induction d (I := Dominated) ?_ ?_ h
  · intro s row _ ht hs m hm
    rcases mem_members_insertMember.1 hm with hm | ⟨rfl, -⟩
    · exact hs m hm
    · exact ht
  · intro s now target hs m hm ht
    obtain ⟨hmem, hkeep⟩ := mem_members_applyTombstone.1 hm
    rcases isTombstoned_applyTombstone.1 ht with ht | hgone
    · exact hs m hmem ht
    · exact hkeep hgone

theorem dominated_replica (ds : List (SetOp × String)) : (replica ds).Dominated :=
  run_invariant (fun _ d h => dominated_receive h d) fun m hm => absurd hm (Table.not_mem_empty m)

/-- **Retractions are final.** -/
theorem isTombstoned_receive {ns hash : String} (h : s.IsTombstoned ns hash)
    (d : SetOp × String) : (s.receive d).IsTombstoned ns hash := by
  refine receive_induction d (I := fun s => s.IsTombstoned ns hash) ?_ ?_ h
  · intro s row _ _ hs
    exact hs
  · intro s now target hs
    exact isTombstoned_applyTombstone.2 (Or.inl hs)

/-- Two stores hold the same rows in a namespace. -/
structure SameNamespace (ns : String) (s s' : ReplicatedSet) : Prop where
  members : ∀ m : SetMemberRow, m.ns = ns → (m ∈ s'.members ↔ m ∈ s.members)
  tombstones : ∀ t : SetTombstoneRow, t.ns = ns → (t ∈ s'.tombstones ↔ t ∈ s.tombstones)

/-- **One operation, the other namespaces.** -/
theorem sameNamespace_receive (s : ReplicatedSet) (d : SetOp × String) {ns : String}
    (hns : ns ≠ d.1.ns) : SameNamespace ns s (s.receive d) := by
  refine receive_induction d (I := SameNamespace ns s) ?_ ?_
    ⟨fun _ _ => Iff.rfl, fun _ _ => Iff.rfl⟩
  · intro u row hrow _ hu
    refine ⟨fun m hm => ?_, hu.tombstones⟩
    rw [mem_members_insertMember, hu.members m hm]
    refine or_iff_left ?_
    rintro ⟨rfl, -⟩
    exact hns (hm.symm.trans hrow)
  · intro u now target hu
    constructor
    · intro m hm
      rw [mem_members_applyTombstone, hu.members m hm]
      exact and_iff_left fun h => hns (hm.symm.trans h.1)
    · intro t ht
      rw [mem_tombstones_applyTombstone, hu.tombstones t ht]
      refine or_iff_left ?_
      rintro ⟨rfl, -⟩
      exact hns ht.symm

/-- **Dominance and isolation.**  After any operations: no hash is at once a member and
retracted; a hash that was retracted at some point of the run is neither listed nor exported
at its end; and one more operation leaves the rows of every namespace but its own. -/
theorem retraction_dominates (ds : List (SetOp × String)) :
    (∀ m ∈ (replica ds).members, ¬ (replica ds).IsTombstoned m.ns m.objectHash) ∧
      (∀ past later, ds = past ++ later → ∀ ns hash, (replica past).IsTombstoned ns hash →
        hash ∉ (replica ds).enumerate ns ∧
          ∀ o ∈ ((replica ds).exportSet ns).objects, o.objectHash ≠ hash) ∧
      ∀ d ns, ns ≠ d.1.ns → SameNamespace ns (replica ds) (replica (ds ++ [d])) := by
  refine ⟨dominated_replica ds, ?_, ?_⟩
  · rintro past later rfl ns hash ht
    have hfinal : (replica (past ++ later)).IsTombstoned ns hash := by
      rw [replica, run_append]
      exact run_invariant (I := fun s : ReplicatedSet => s.IsTombstoned ns hash)
        (fun _ d h => isTombstoned_receive h d) ht
    constructor
    · intro hlist
      obtain ⟨m, -, -, -, hnot⟩ := mem_enumerate.1 hlist
      exact hnot hfinal
    · rintro o ho rfl
      exact (mem_objects_exportSet.1 ho).2 hfinal
  · intro d ns hns
    rw [replica, replica, run_concat]
    exact sameNamespace_receive _ d hns

/-! ## Convergence -/

/-- The tables of a store represent a two-phase set of member rows, all of them among the
rows `carried` to it. -/
structure Represents (carried : List SetMemberRow) (s : ReplicatedSet)
    (S : TwoPhaseSet SetMemberRow) : Prop where
  members : ∀ m, m ∈ s.members ↔ m ∈ S.live
  tombstones : ∀ m : SetMemberRow, s.IsTombstoned m.ns m.objectHash ↔ m ∈ S.removed
  origin : ∀ m ∈ s.members, m ∈ carried

/-- Equal hashes carry equal blobs, in one namespace. -/
def BlobsAgree (carried : List SetMemberRow) : Prop :=
  ∀ a ∈ carried, ∀ b ∈ carried, a.pk = b.pk → a = b

instance (carried : List SetMemberRow) : Decidable (BlobsAgree carried) :=
  inferInstanceAs (Decidable (∀ a ∈ carried, ∀ b ∈ carried, _ → _))

variable {carried : List SetMemberRow} {S : TwoPhaseSet SetMemberRow}

/-- An insert of a member that is not retracted. -/
theorem represents_insertMember (h : Represents carried s S) (hagree : BlobsAgree carried)
    {row : SetMemberRow} (hrow : row ∈ carried) (ht : ¬ s.IsTombstoned row.ns row.objectHash) :
    Represents carried (s.insertMember row) (S.merge { added := {row}, removed := ∅ }) := by
  have hremoved : row ∉ S.removed := fun hr => ht ((h.tombstones row).2 hr)
  refine ⟨fun m => ?_, fun m => ?_, fun m hm => ?_⟩
  · rw [mem_members_insertMember, h.members]
    simp only [TwoPhaseSet.mem_live, TwoPhaseSet.mem_added_merge, TwoPhaseSet.mem_removed_merge,
      Set.mem_singleton_iff, Set.mem_empty_iff_false, or_false]
    constructor
    · rintro (⟨hadd, hrem⟩ | ⟨rfl, -⟩)
      · exact ⟨Or.inl hadd, hrem⟩
      · exact ⟨Or.inr rfl, hremoved⟩
    · rintro ⟨hadd | rfl, hrem⟩
      · exact Or.inl ⟨hadd, hrem⟩
      · by_cases hclash : s.members.Clashes m
        · -- a member under the same hash carries the same blob
          obtain ⟨r, hr, hpk⟩ := hclash
          rw [← hagree r (h.origin r hr) m hrow hpk]
          exact Or.inl ((h.members r).1 hr)
        · exact Or.inr ⟨rfl, hclash⟩
  · rw [TwoPhaseSet.mem_removed_merge, ← h.tombstones]
    simp [insertMember, IsTombstoned]
  · rcases mem_members_insertMember.1 hm with hm | ⟨rfl, -⟩
    · exact h.origin m hm
    · exact hrow

/-- A hash that is retracted already takes no further member. -/
theorem represents_skip (h : Represents carried s S) {row : SetMemberRow}
    (ht : s.IsTombstoned row.ns row.objectHash) :
    Represents carried s (S.merge { added := {row}, removed := ∅ }) := by
  refine ⟨fun m => ?_, fun m => ?_, h.origin⟩
  · rw [h.members]
    simp only [TwoPhaseSet.mem_live, TwoPhaseSet.mem_added_merge, TwoPhaseSet.mem_removed_merge,
      Set.mem_singleton_iff, Set.mem_empty_iff_false, or_false]
    refine and_congr_left fun hrem => (or_iff_left ?_).symm
    rintro rfl
    exact hrem ((h.tombstones m).1 ht)
  · rw [TwoPhaseSet.mem_removed_merge, ← h.tombstones]
    simp

theorem represents_applyTombstone (h : Represents carried s S) (now ns target : String) :
    Represents carried (s.applyTombstone now ns target) (S.merge (SetOp.retraction ns target)) := by
  refine ⟨fun m => ?_, fun m => ?_, fun m hm => ?_⟩
  · rw [mem_members_applyTombstone, h.members]
    simp [SetOp.retraction, and_assoc]
  · rw [isTombstoned_applyTombstone, h.tombstones]
    rfl
  · exact h.origin m (mem_members_applyTombstone.1 hm).1

theorem represents_put (h : Represents carried s S) (hagree : BlobsAgree carried)
    {ns hash : String} {blob : List UInt8} (hrow : { ns, objectHash := hash, blob } ∈ carried) :
    Represents carried (s.put ns hash blob).1 (S.merge (SetOp.put ns hash blob).effect) := by
  unfold put
  split
  · rename_i ht
    exact represents_skip h ht
  · rename_i ht
    exact represents_insertMember h hagree hrow ht

/-- One turn of the import loop. -/
theorem represents_importObject {acc : ReplicatedSet × ℕ} {pack : SetPack} {o : SetObject}
    (h : Represents carried acc.1 S) (hagree : BlobsAgree carried)
    (hrow : o.row pack.ns ∈ carried) :
    Represents carried (importObject pack.ns pack.retracted acc o).1
      (S.merge (SetOp.merging pack.ns pack.retracted o)) := by
  by_cases hret : o.objectHash ∈ pack.retracted
  · have heffect : S.merge (SetOp.merging pack.ns pack.retracted o) = S := by
      ext m <;> simp [SetOp.merging, hret]
    rw [heffect, importObject, if_pos (Or.inl hret)]
    exact h
  · have heffect : SetOp.merging pack.ns pack.retracted o =
        { added := {o.row pack.ns}, removed := ∅ } := by
      ext m <;> simp [SetOp.merging, hret]
    rw [heffect, importObject]
    split
    · rename_i hskip
      exact represents_skip h (hskip.resolve_left hret)
    · rename_i hskip
      exact represents_insertMember h hagree hrow fun ht => hskip (Or.inr ht)

theorem represents_importSet (h : Represents carried s S) (hagree : BlobsAgree carried)
    {pack : SetPack} (hrows : ∀ o ∈ pack.objects, o.row pack.ns ∈ carried) (now : String) :
    Represents carried (s.importSet now pack).1 (S.merge (SetOp.importSet pack).effect) := by
  unfold SetOp.effect
  rw [← TwoPhaseSet.merge_assoc]
  refine TwoPhaseSet.run_refines (fun s S t _ hs =>
    represents_applyTombstone hs now pack.ns t.targetHash) ?_
  exact TwoPhaseSet.run_refines (R := fun (acc : ReplicatedSet × ℕ) S => Represents carried acc.1 S)
    (fun acc S o ho hacc => represents_importObject hacc hagree (hrows o ho)) h

/-- **One operation.**  Receiving it joins its effect to what the store represents. -/
theorem represents_receive (h : Represents carried s S) (hagree : BlobsAgree carried)
    {d : SetOp × String} (hrows : ∀ m ∈ d.1.rows, m ∈ carried) :
    Represents carried (s.receive d) (S.merge d.1.effect) := by
  obtain ⟨op, now⟩ := d
  cases op with
  | put ns hash blob => exact represents_put h hagree (hrows _ List.mem_cons_self)
  | importSet pack =>
    exact represents_importSet h hagree (fun o ho => hrows _ (List.mem_map_of_mem ho)) now
  | tombstoneSet ns target => exact represents_applyTombstone h now ns target

/-- The member rows carried by a list of operations. -/
def carriedRows (ds : List (SetOp × String)) : List SetMemberRow := ds.flatMap fun d => d.1.rows

/-- A store represents the collected effects of what was delivered to it. -/
theorem represents_replica {ds : List (SetOp × String)} (hrows : ∀ m ∈ carriedRows ds, m ∈ carried)
    (hagree : BlobsAgree carried) :
    Represents carried (replica ds)
      (TwoPhaseSet.collect SetOp.effect (ds.map Prod.fst)) := by
  have hbot : TwoPhaseSet.collect SetOp.effect (ds.map Prod.fst) =
      TwoPhaseSet.bot.merge (TwoPhaseSet.collect (fun d : SetOp × String => d.1.effect) ds) := by
    rw [← TwoPhaseSet.foldl_merge, TwoPhaseSet.collect, List.foldl_map]
  rw [hbot]
  refine TwoPhaseSet.run_refines (fun s S d hd h => represents_receive h hagree fun m hm =>
    hrows m (List.mem_flatMap.2 ⟨d, hd, hm⟩)) ⟨fun m => ?_, fun m => ?_, fun m hm => ?_⟩
  · simp [TwoPhaseSet.live]
  · constructor
    · rintro ⟨t, ht, -⟩
      exact absurd ht (Table.not_mem_empty t)
    · exact fun h => absurd h (TwoPhaseSet.not_mem_removed_bot m)
  · exact absurd hm (Table.not_mem_empty m)

/-- **Convergence.**  When equal hashes carry equal blobs, two stores that received the same
operations, each in its own order, at its own times and any number of times over, list the
same hashes in every namespace, export the same objects and have retracted the same. -/
theorem replicated_converge (ds ds' : List (SetOp × String))
    (hsame : ∀ op, op ∈ ds.map Prod.fst ↔ op ∈ ds'.map Prod.fst)
    (hagree : BlobsAgree (carriedRows ds)) (ns : String) :
    (replica ds).enumerate ns = (replica ds').enumerate ns ∧
      (∀ o, o ∈ ((replica ds).exportSet ns).objects ↔ o ∈ ((replica ds').exportSet ns).objects) ∧
      ∀ target, (replica ds).IsTombstoned ns target ↔ (replica ds').IsTombstoned ns target := by
  have hrows : ∀ m ∈ carriedRows ds', m ∈ carriedRows ds := by
    intro m hm
    obtain ⟨d', hd', hm'⟩ := List.mem_flatMap.1 hm
    obtain ⟨d, hd, heq⟩ := List.mem_map.1 ((hsame d'.1).2 (List.mem_map_of_mem hd'))
    exact List.mem_flatMap.2 ⟨d, hd, heq ▸ hm'⟩
  have hS := represents_replica (fun m hm => hm) hagree
  have hS' := represents_replica hrows hagree
  -- the abstract states coincide: a collection forgets order and repetition
  rw [← TwoPhaseSet.collect_congr SetOp.effect hsame] at hS'
  have hmembers : ∀ m, m ∈ (replica ds).members ↔ m ∈ (replica ds').members := fun m => by
    rw [hS.members, hS'.members]
  have htombs : ∀ n h, (replica ds).IsTombstoned n h ↔ (replica ds').IsTombstoned n h :=
    fun n h =>
      (hS.tombstones { ns := n, objectHash := h, blob := [] }).trans (hS'.tombstones _).symm
  refine ⟨?_, fun o => ?_, htombs ns⟩
  · have hlist : ∀ hash, hash ∈ (replica ds).enumerate ns ↔ hash ∈ (replica ds').enumerate ns := by
      intro hash
      simp only [mem_enumerate, hmembers, htombs]
    have hperm := (List.perm_ext_iff_of_nodup (nodup_enumerate _ ns) (nodup_enumerate _ ns)).2 hlist
    exact hperm.eq_of_pairwise' (List.pairwise_insertionSort _ _) (List.pairwise_insertionSort _ _)
  · rw [mem_objects_exportSet, mem_objects_exportSet, hmembers, htombs]

/-- Two objects for two realms, and the retraction of one of them. -/
def realmOps : List (SetOp × String) :=
  [(.put "realm:a" "h1" [1], "2026-01-01 00:00:00"),
    (.importSet { ns := "realm:b", objects := [⟨"h1", [1]⟩, ⟨"h2", [2]⟩] }, "2026-01-01 00:01:00"),
    (.tombstoneSet "realm:a" "h1", "2026-01-01 00:02:00")]

/-- The same in another order, with the put delivered again at the end. -/
def realmRedeliveries : List (SetOp × String) :=
  [(.tombstoneSet "realm:a" "h1", "2026-01-02 00:00:00"),
    (.importSet { ns := "realm:b", objects := [⟨"h1", [1]⟩, ⟨"h2", [2]⟩] }, "2026-01-02 00:01:00"),
    (.put "realm:a" "h1" [1], "2026-01-02 00:02:00"),
    (.put "realm:a" "h1" [1], "2026-01-02 00:03:00")]

theorem replicated_converge_realms :
    (replica realmOps).enumerate "realm:b" = ["h1", "h2"] ∧
      (replica realmOps).enumerate "realm:b" = (replica realmRedeliveries).enumerate "realm:b" ∧
      (∀ o, o ∈ ((replica realmOps).exportSet "realm:b").objects ↔
        o ∈ ((replica realmRedeliveries).exportSet "realm:b").objects) ∧
      ∀ target, (replica realmOps).IsTombstoned "realm:b" target ↔
        (replica realmRedeliveries).IsTombstoned "realm:b" target := by
  refine ⟨by decide +kernel,
    replicated_converge realmOps realmRedeliveries ?_ (by decide +kernel) "realm:b"⟩
  intro op
  simp only [realmOps, realmRedeliveries, List.map_cons, List.map_nil, List.mem_cons,
    List.not_mem_nil, or_false]
  tauto

end ReplicatedSet

end Spectral
