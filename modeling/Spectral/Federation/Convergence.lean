import Spectral.Federation.Runs
import Spectral.Lib.TwoPhaseSet

/-!
# Convergence

A store that is changed by trusted imports and retractions only is a replica of a
two-phase set of pairs (wing, hash): `Represents` ties the tables to the abstract state,
`represents_receive` shows that every delivery joins its effect on, and so the listing of
every wing is a function of the set of deliveries (`converge`).

The same object may be delivered for several wings and is one row of `memories` all the
same; the invariant that carries the proof is that the row is there exactly as long as some
wing's manifest lists the object.
-/

namespace Spectral

open Spectral.Lib

/-- What reaches a replica: a pack, over the trusted transport, or a retraction made on
it. -/
inductive Delivery where
  | pack (p : Pack)
  | tombstone (wingId targetHash : String)
  deriving DecidableEq

namespace Delivery

/-- The objects a delivery carries. -/
def objects : Delivery → List MemoryObject
  | pack p => p.objects
  | tombstone _ _ => []

/-- The call a delivery is received by. -/
def op : Delivery → StoreOp
  | pack p => .importPack p .trustedTransport
  | tombstone wingId targetHash => .tombstone wingId targetHash

/-- What a delivery adds to and removes from the shared wings. -/
def effect (env : Env) : Delivery → TwoPhaseSet (String × String)
  | pack p =>
    { added := {i | i.1 = p.wingId ∧ ∃ o ∈ p.objects, env.objectHash o = i.2}
      removed := {i | i.1 = p.wingId ∧ i.2 ∈ p.tombstones.map Tombstone.targetHash} }
  | tombstone wingId targetHash => { added := ∅, removed := {(wingId, targetHash)} }

end Delivery

namespace Env

/-- A replica receives a delivery, at the time its own clock reads. -/
def receive (env : Env) (s : Store) (d : Delivery × String) : Store := env.apply s ⟨d.1.op, d.2⟩

/-- The replica that received the deliveries, in that order. -/
def replica (env : Env) (ds : List (Delivery × String)) : Store := run env.receive {} ds

/-- The tables of a replica represent a two-phase set. -/
structure Represents (env : Env) (objs : List MemoryObject) (s : Store)
    (S : TwoPhaseSet (String × String)) : Prop where
  members : ∀ w h, (∃ m ∈ s.sharedWingMembers, m.wingId = w ∧ m.objectHash = h) ↔ (w, h) ∈ S.live
  tombstones : ∀ w h, s.IsTombstoned w h ↔ (w, h) ∈ S.removed
  /-- A manifest row is the trace of a delivered object, under its local key. -/
  origin : ∀ m ∈ s.sharedWingMembers, ∃ o ∈ objs, env.objectHash o = m.objectHash ∧
    m.memKey = env.localKey o ∧ m.origKey = some o.key ∧
      m.supersedes.getD "" = o.supersedes.getD ""
  /-- A memory is a delivered object. -/
  content : ∀ r ∈ s.memories, ∃ o ∈ objs, ∃ now, r = env.importedRow now o
  /-- A listed object is stored. -/
  stored : ∀ m ∈ s.sharedWingMembers, ∃ r ∈ s.memories, r.id = m.objectHash ∧ r.key = m.memKey
  /-- A stored object is listed. -/
  held : ∀ r ∈ s.memories, s.Holds r.id

variable {env : Env} {objs : List MemoryObject} {s : Store} {S : TwoPhaseSet (String × String)}

theorem represents_empty (env : Env) (objs : List MemoryObject) :
    env.Represents objs {} TwoPhaseSet.bot where
  members w h := by simp [TwoPhaseSet.live, TwoPhaseSet.bot]
  tombstones w h := by
    constructor
    · rintro ⟨t, ht, -⟩
      exact absurd ht (Table.not_mem_empty t)
    · intro h'
      exact absurd h' (TwoPhaseSet.not_mem_removed_bot _)
  origin m hm := absurd hm (Table.not_mem_empty m)
  content r hr := absurd hr (Table.not_mem_empty r)
  stored m hm := absurd hm (Table.not_mem_empty m)
  held r hr := absurd hr (Table.not_mem_empty r)

/-- Retractions keep the memories of the objects that stay listed, and only those.  `gone` is
what is retracted in the wing `w`. -/
theorem stored_and_held_of_retract (h : env.Represents objs s S) (w : String) (gone : String → Prop) :
    (∀ m ∈ s.sharedWingMembers, ¬ (m.wingId = w ∧ gone m.objectHash) →
      ∃ r ∈ s.memories, ¬ (gone r.id ∧ ¬ s.HeldElsewhere w r.id) ∧
        r.id = m.objectHash ∧ r.key = m.memKey) ∧
    (∀ r ∈ s.memories, ¬ (gone r.id ∧ ¬ s.HeldElsewhere w r.id) →
      ∃ m ∈ s.sharedWingMembers, ¬ (m.wingId = w ∧ gone m.objectHash) ∧ m.objectHash = r.id) := by
  constructor
  · intro m hm hkeep
    obtain ⟨r, hr, hid, hk⟩ := h.stored m hm
    refine ⟨r, hr, ?_, hid, hk⟩
    rintro ⟨hgone, hheld⟩
    -- the row that stays is of another wing
    have hw : m.wingId ≠ w := fun hw => hkeep ⟨hw, hid ▸ hgone⟩
    exact hheld ⟨m, hm, hid.symm, hw⟩
  · intro r hr hkeep
    obtain ⟨m, hm, hh⟩ := h.held r hr
    by_cases hdrop : m.wingId = w ∧ gone m.objectHash
    · have hheld : s.HeldElsewhere w r.id := by
        by_contra hno
        exact hkeep ⟨hh ▸ hdrop.2, hno⟩
      obtain ⟨m', hm', hh', hw'⟩ := hheld
      exact ⟨m', hm', fun hd => hw' hd.1, hh'⟩
    · exact ⟨m, hm, hdrop, hh⟩

theorem represents_tombstone (h : env.Represents objs s S) (now w target : String) :
    env.Represents objs (s.tombstone now w target)
      (S.merge ((Delivery.tombstone w target).effect env)) := by
  obtain ⟨hstored, hheld⟩ := stored_and_held_of_retract h w (· = target)
  constructor
  · intro w' h'
    have := h.members w' h'
    simp only [Store.tombstone, Store.mem_sharedWingMembers_applyTombstoneTx, Delivery.effect,
      TwoPhaseSet.mem_live, TwoPhaseSet.mem_added_merge, TwoPhaseSet.mem_removed_merge,
      Set.mem_empty_iff_false, Set.mem_singleton_iff, Prod.mk.injEq, or_false] at this ⊢
    rw [not_or, ← and_assoc, ← this]
    constructor
    · rintro ⟨m, ⟨hm, hkeep⟩, rfl, rfl⟩
      exact ⟨⟨m, hm, rfl, rfl⟩, hkeep⟩
    · rintro ⟨⟨m, hm, rfl, rfl⟩, hkeep⟩
      exact ⟨m, ⟨hm, hkeep⟩, rfl, rfl⟩
  · intro w' h'
    rw [Store.tombstone, Store.isTombstoned_applyTombstoneTx, h.tombstones]
    simp [Delivery.effect]
  · intro m hm
    exact h.origin m (Store.mem_sharedWingMembers_applyTombstoneTx.1 hm).1
  · intro r hr
    exact h.content r (Store.mem_memories_applyTombstoneTx.1 hr).1
  · intro m hm
    obtain ⟨hm, hkeep⟩ := Store.mem_sharedWingMembers_applyTombstoneTx.1 hm
    obtain ⟨r, hr, hkept, hid, hk⟩ := hstored m hm hkeep
    refine ⟨r, Store.mem_memories_applyTombstoneTx.2 ⟨hr, ?_⟩, hid, hk⟩
    rintro ⟨rfl, hno⟩
    exact hkept ⟨rfl, hno⟩
  · intro r hr
    obtain ⟨hr, hkept⟩ := Store.mem_memories_applyTombstoneTx.1 hr
    have hstays : ¬ (r.id = target ∧ ¬ s.HeldElsewhere w r.id) := by
      rintro ⟨rfl, hno⟩
      exact hkept ⟨rfl, hno⟩
    obtain ⟨m, hm, hkeep, hh⟩ := hheld r hr hstays
    exact ⟨m, Store.mem_sharedWingMembers_applyTombstoneTx.2 ⟨hm, hkeep⟩, hh⟩

/-! ## Packs -/

/-- The trusted transport admits every retraction of the pack. -/
theorem packRetracted_trustedTransport (env : Env) (p : Pack) :
    env.packRetracted .trustedTransport p = p.tombstones.map Tombstone.targetHash := by
  have hall : p.tombstones.filter (env.acceptsTombstone .trustedTransport p.wingId) =
      p.tombstones := List.filter_eq_self.2 fun _ _ => rfl
  unfold packRetracted admittedTombstones
  rw [hall]

theorem admitted_trustedTransport {p : Pack} {o : MemoryObject} :
    env.Admitted .trustedTransport p s o ↔
      env.objectHash o ∉ p.tombstones.map Tombstone.targetHash ∧
        ¬ s.IsTombstoned p.wingId (env.objectHash o) := by
  unfold Admitted
  rw [packRetracted_trustedTransport]
  simp [acceptsObject]

/-- An object is listed under its local key, in whichever wing it is listed. -/
theorem memberKey_eq_localKey (h : env.Represents objs s S) (hpf : PrefixFree env objs)
    {o : MemoryObject} (ho : o ∈ objs) : env.memberKey s o = env.localKey o := by
  unfold memberKey
  cases hk : s.existingKey (env.objectHash o) with
  | none => rfl
  | some key =>
    obtain ⟨m, hm, hh, rfl⟩ := Store.exists_of_existingKey_eq_some hk
    obtain ⟨o', ho', hh', hkey, -⟩ := h.origin m hm
    rw [Option.getD_some, hkey]
    exact localKey_congr env (hpf.collisionFree o' ho' o ho (hh'.trans hh))

/-- The memory under the local key of an object has the object's hash as its id. -/
theorem id_eq_of_key_eq_localKey (h : env.Represents objs s S) (hpf : PrefixFree env objs)
    {o : MemoryObject} (ho : o ∈ objs) {r : MemoryRow} (hr : r ∈ s.memories)
    (hk : r.key = env.localKey o) : r.id = env.objectHash o := by
  obtain ⟨o', ho', now, rfl⟩ := h.content r hr
  exact objectHash_congr env (sameSource_of_localKey_eq hpf ho' ho hk)

/-- A listed object is stored after a pack: its row was there, or has just arrived. -/
theorem exists_stored_of_incoming (h : env.Represents objs s S) (hpf : PrefixFree env objs)
    {p : Pack} (hobjs : ∀ o ∈ p.objects, o ∈ objs) (now : String) {o : MemoryObject}
    (ho : o ∈ env.incoming .trustedTransport p s p.objects) :
    ∃ r ∈ (env.importPackWithPolicy now s p .trustedTransport).1.memories,
      r.id = env.objectHash o ∧ r.key = env.localKey o := by
  obtain ⟨hop, hadm⟩ := mem_incoming ho
  have hoo := hobjs o hop
  by_cases hheld : s.Holds (env.objectHash o)
  · obtain ⟨m, hm, hh⟩ := hheld
    obtain ⟨r, hr, hid, hk⟩ := h.stored m hm
    obtain ⟨o', ho', hh', hkey, -⟩ := h.origin m hm
    have hsame := hpf.collisionFree o' ho' o hoo (hh'.trans hh)
    refine ⟨r, mem_memories_import.2 (Or.inl ⟨hr, ?_⟩), hid.trans hh, ?_⟩
    · rintro ⟨hret, -⟩
      rw [hid, hh] at hret
      exact hadm.2.1 hret
    · rw [hk, hkey, localKey_congr env hsame]
  · -- nothing has this id, so nothing has this local key either
    have hfree : ¬ s.HasMemory (env.objectHash o) := by
      rintro ⟨r, hr, hid⟩
      exact hheld (hid ▸ h.held r hr)
    have hnone : s.memoryByKey (env.localKey o) = none := by
      rw [Store.memoryByKey_eq_none]
      intro r hr hk
      exact hfree ⟨r, hr, id_eq_of_key_eq_localKey h hpf hoo hr hk⟩
    cases harr : env.arrival .trustedTransport p s p.objects (env.localKey o) with
    | none =>
      have := Table.find?_eq_none.1 harr o ho
      simp [Arrives, hheld, hfree] at this
    | some o' =>
      obtain ⟨ho', -, hkey⟩ := arrival_eq_some harr
      have hsame := sameSource_of_localKey_eq hpf (hobjs o' (mem_incoming ho').1) hoo hkey
      have hmem : env.importedRow now o' ∈
          (env.importPackWithPolicy now s p .trustedTransport).1.memories := by
        refine mem_memories_import.2 (Or.inr ⟨o', ?_, ?_, rfl⟩)
        · show s.memoryByKey (env.localKey o') = none
          rwa [hkey]
        · show env.arrival .trustedTransport p s p.objects (env.localKey o') = some o'
          rwa [hkey]
      exact ⟨_, hmem, objectHash_congr env hsame, hkey⟩

/-- The manifest after a pack lists what was listed and what the pack adds, without what it
retracts and without what was retracted before. -/
theorem members_of_pack (h : env.Represents objs s S) {p : Pack} (now w' h' : String) :
    (∃ m ∈ (env.importPackWithPolicy now s p .trustedTransport).1.sharedWingMembers,
      m.wingId = w' ∧ m.objectHash = h') ↔
        (w', h') ∈ (S.merge ((Delivery.pack p).effect env)).live := by
  have hmem := h.members w' h'
  have htomb := h.tombstones w' h'
  simp only [TwoPhaseSet.mem_live, TwoPhaseSet.mem_added_merge, TwoPhaseSet.mem_removed_merge,
    Delivery.effect, Set.mem_ofPred_eq] at hmem ⊢
  rw [not_or]
  constructor
  · rintro ⟨m, hm, rfl, rfl⟩
    rcases mem_sharedWingMembers_import.1 hm with ⟨hm, hkeep⟩ | ⟨o, ho, rfl, -⟩
    · obtain ⟨hadd, hrem⟩ := hmem.1 ⟨m, hm, rfl, rfl⟩
      rw [packRetracted_trustedTransport] at hkeep
      exact ⟨Or.inl hadd, hrem, hkeep⟩
    · obtain ⟨hop, hadm⟩ := mem_incoming ho
      obtain ⟨hret, hnot⟩ := admitted_trustedTransport.1 hadm
      exact ⟨Or.inr ⟨rfl, o, hop, rfl⟩, fun hrem => hnot (htomb.2 hrem), fun hr => hret hr.2⟩
  · rintro ⟨hadd | ⟨rfl, o, hop, rfl⟩, hrem, hkeep⟩
    · obtain ⟨m, hm, rfl, rfl⟩ := hmem.2 ⟨hadd, hrem⟩
      refine ⟨m, mem_sharedWingMembers_import.2 (Or.inl ⟨hm, ?_⟩), rfl, rfl⟩
      rwa [packRetracted_trustedTransport]
    · have hadm : env.Admitted .trustedTransport p s o :=
        admitted_trustedTransport.2 ⟨fun hr => hkeep ⟨rfl, hr⟩, fun ht => hrem (htomb.1 ht)⟩
      exact exists_listed_import hop hadm

theorem represents_pack (h : env.Represents objs s S) (hpf : PrefixFree env objs) {p : Pack}
    (hobjs : ∀ o ∈ p.objects, o ∈ objs) (now : String) :
    env.Represents objs (env.importPackWithPolicy now s p .trustedTransport).1
      (S.merge ((Delivery.pack p).effect env)) := by
  obtain ⟨hstored, hheld⟩ :=
    stored_and_held_of_retract h p.wingId (· ∈ p.tombstones.map Tombstone.targetHash)
  constructor
  · exact members_of_pack h now
  · intro w' h'
    rw [isTombstoned_import, h.tombstones, packRetracted_trustedTransport]
    rfl
  · intro m hm
    rcases mem_sharedWingMembers_import.1 hm with ⟨hm, -⟩ | ⟨o, ho, rfl, -⟩
    · exact h.origin m hm
    · have hoo := hobjs o (mem_incoming ho).1
      exact ⟨o, hoo, rfl, memberKey_eq_localKey h hpf hoo, rfl, rfl⟩
  · intro r hr
    rcases mem_memories_import.1 hr with ⟨hr, -⟩ | ⟨o, -, ho, rfl⟩
    · exact h.content r hr
    · exact ⟨o, hobjs o (mem_incoming (arrival_eq_some ho).1).1, now, rfl⟩
  · intro m hm
    rcases mem_sharedWingMembers_import.1 hm with ⟨hm, hkeep⟩ | ⟨o, ho, rfl, -⟩
    · rw [packRetracted_trustedTransport] at hkeep
      obtain ⟨r, hr, hkept, hid, hk⟩ := hstored m hm hkeep
      refine ⟨r, mem_memories_import.2 (Or.inl ⟨hr, ?_⟩), hid, hk⟩
      rwa [packRetracted_trustedTransport]
    · obtain ⟨r, hr, hid, hk⟩ := exists_stored_of_incoming h hpf hobjs now ho
      exact ⟨r, hr, hid, hk.trans (memberKey_eq_localKey h hpf (hobjs o (mem_incoming ho).1)).symm⟩
  · intro r hr
    rcases mem_memories_import.1 hr with ⟨hr, hkept⟩ | ⟨o, -, ho, rfl⟩
    · rw [packRetracted_trustedTransport] at hkept
      obtain ⟨m, hm, hkeep, hh⟩ := hheld r hr hkept
      refine ⟨m, mem_sharedWingMembers_import.2 (Or.inl ⟨hm, ?_⟩), hh⟩
      rwa [packRetracted_trustedTransport]
    · obtain ⟨hinc, harr, -⟩ := arrival_eq_some ho
      refine ⟨env.member s p.wingId o, mem_sharedWingMembers_import.2 (Or.inr ⟨o, hinc, rfl, ?_⟩), rfl⟩
      rintro ⟨m, hm, hpk⟩
      exact harr.1 ⟨m, hm, congrArg Prod.snd hpk⟩

/-! ## Replicas -/

/-- The objects of a list of deliveries. -/
def deliveredObjects (ds : List (Delivery × String)) : List MemoryObject :=
  ds.flatMap fun d => d.1.objects

/-- **One delivery.**  Receiving a delivery joins its effect to what the replica
represents. -/
theorem represents_receive (h : env.Represents objs s S) (hpf : PrefixFree env objs)
    {d : Delivery × String} (hobjs : ∀ o ∈ d.1.objects, o ∈ objs) :
    env.Represents objs (env.receive s d) (S.merge (d.1.effect env)) := by
  obtain ⟨d, now⟩ := d
  cases d with
  | pack p => exact represents_pack h hpf hobjs now
  | tombstone w target => exact represents_tombstone h now w target

/-- A replica represents the collected effects of what was delivered to it. -/
theorem represents_replica (env : Env) (ds : List (Delivery × String))
    (hpf : PrefixFree env (deliveredObjects ds)) :
    env.Represents (deliveredObjects ds) (env.replica ds)
      (TwoPhaseSet.collect (fun d => d.1.effect env) ds) := by
  have hbot : ∀ S : TwoPhaseSet (String × String), TwoPhaseSet.bot.merge S = S := by
    intro S
    ext i <;> simp
  rw [← hbot (TwoPhaseSet.collect _ ds)]
  refine TwoPhaseSet.run_refines (fun s S d hd h => represents_receive h hpf ?_)
    (represents_empty env _)
  intro o ho
  exact List.mem_flatMap.2 ⟨d, hd, ho⟩

/-- A listed object can be shipped. -/
theorem mem_exportHashes_iff_mem_enumerate (h : env.Represents objs s S)
    (hpf : PrefixFree env objs) (w hash : String) :
    hash ∈ env.exportHashes s w ↔ hash ∈ s.enumerate w := by
  refine ⟨mem_enumerate_of_mem_exportHashes, fun hen => ?_⟩
  obtain ⟨m, hm, hw, rfl, ht⟩ := Store.mem_enumerate.1 hen
  obtain ⟨r, hr, hid, hk⟩ := h.stored m hm
  obtain ⟨o, ho, hoh, -, horig, hsup⟩ := h.origin m hm
  obtain ⟨o', ho', now, rfl⟩ := h.content r hr
  have hsame := hpf.collisionFree o' ho' o ho (hid.trans hoh.symm)
  -- the memory and the manifest row put the delivered object back together
  have hbuilt : SameSource (m.rebuild (env.importedRow now o')) o := by
    refine ⟨?_, hsame.content, hsame.authorId, hsame.createdAt, hsame.visibility, hsup⟩
    show m.origKey.getD m.memKey = o.key
    rw [horig, Option.getD_some]
  exact mem_exportHashes.2
    ⟨m, hm, _, hr, hw, rfl, ht, hk, (objectHash_congr env hbuilt).trans hoh⟩

theorem mem_enumerate_iff_live (h : env.Represents objs s S) (w hash : String) :
    hash ∈ s.enumerate w ↔ (w, hash) ∈ S.live := by
  rw [Store.mem_enumerate, ← h.members]
  constructor
  · rintro ⟨m, hm, hw, hh, -⟩
    exact ⟨m, hm, hw, hh⟩
  · rintro ⟨m, hm, hw, hh⟩
    refine ⟨m, hm, hw, hh, fun ht => ?_⟩
    have hlive := (h.members w hash).1 ⟨m, hm, hw, hh⟩
    exact hlive.2 ((h.tombstones w hash).1 ht)

/-- **Convergence.**  Two replicas that received the same deliveries, each in its own order,
at its own times and any number of times over, list the same hashes for every wing and can
ship the same objects. -/
theorem converge (env : Env) (ds ds' : List (Delivery × String))
    (hsame : ∀ d, d ∈ ds.map Prod.fst ↔ d ∈ ds'.map Prod.fst)
    (hpf : PrefixFree env (deliveredObjects ds)) (w : String) :
    (env.replica ds).enumerate w = (env.replica ds').enumerate w ∧
      ∀ hash, hash ∈ env.exportHashes (env.replica ds) w ↔
        hash ∈ env.exportHashes (env.replica ds') w := by
  have hobjs : ∀ o, o ∈ deliveredObjects ds' → o ∈ deliveredObjects ds := by
    intro o ho
    obtain ⟨d', hd', ho'⟩ := List.mem_flatMap.1 ho
    obtain ⟨d, hd, heq⟩ := List.mem_map.1 ((hsame d'.1).2 (List.mem_map_of_mem hd'))
    exact List.mem_flatMap.2 ⟨d, hd, heq ▸ ho'⟩
  have hpf' : PrefixFree env (deliveredObjects ds') :=
    fun a ha b hb => hpf a (hobjs a ha) b (hobjs b hb)
  -- the abstract states coincide: a collection forgets order and repetition
  have hcollect : ∀ l : List (Delivery × String),
      TwoPhaseSet.collect (fun d => d.1.effect env) l =
        TwoPhaseSet.collect (Delivery.effect env) (l.map Prod.fst) := by
    intro l
    unfold TwoPhaseSet.collect
    rw [List.foldl_map]
  have hS := represents_replica env ds hpf
  have hS' := represents_replica env ds' hpf'
  rw [hcollect] at hS hS'
  rw [← TwoPhaseSet.collect_congr (Delivery.effect env) hsame] at hS'
  have hlist : ∀ hash, hash ∈ (env.replica ds).enumerate w ↔ hash ∈ (env.replica ds').enumerate w := by
    intro hash
    rw [mem_enumerate_iff_live hS, mem_enumerate_iff_live hS']
  refine ⟨Store.enumerate_eq_of_mem_iff hlist, fun hash => ?_⟩
  rw [mem_exportHashes_iff_mem_enumerate hS hpf, mem_exportHashes_iff_mem_enumerate hS' hpf']
  exact hlist hash

/-- The note for two wings, and its retraction in one of them. -/
def noteDeliveries : List (Delivery × String) :=
  [(.pack { wingId := "team", objects := [note] }, "2026-01-02 09:00:00"),
    (.tombstone "team" (noteEnv.objectHash note), "2026-01-02 09:01:00"),
    (.pack { wingId := "ops", objects := [note] }, "2026-01-02 09:02:00")]

/-- The same in another order, with a pack delivered twice. -/
def noteRedeliveries : List (Delivery × String) :=
  [(.pack { wingId := "ops", objects := [note] }, "2026-01-03 09:00:00"),
    (.pack { wingId := "team", objects := [note] }, "2026-01-03 09:01:00"),
    (.tombstone "team" (noteEnv.objectHash note), "2026-01-03 09:02:00"),
    (.pack { wingId := "team", objects := [note] }, "2026-01-03 09:03:00")]

theorem converge_note :
    (noteEnv.replica noteDeliveries).enumerate "ops" = [noteEnv.objectHash note] ∧
      (noteEnv.replica noteDeliveries).enumerate "ops" =
        (noteEnv.replica noteRedeliveries).enumerate "ops" ∧
      ∀ hash, hash ∈ noteEnv.exportHashes (noteEnv.replica noteDeliveries) "ops" ↔
        hash ∈ noteEnv.exportHashes (noteEnv.replica noteRedeliveries) "ops" := by
  refine ⟨by decide +kernel,
    converge noteEnv noteDeliveries noteRedeliveries ?_ (by decide +kernel) "ops"⟩
  intro d
  simp only [noteDeliveries, noteRedeliveries, List.map_cons, List.map_nil, List.mem_cons,
    List.not_mem_nil, or_false]
  tauto

end Env

end Spectral
