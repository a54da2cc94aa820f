import Spectral.Replicated.Runs
import Spectral.Lib.Gossip

/-!
# A network of replicated sets

Stores that are written by their own callers and that ship each other packs of one namespace.  The
caller's transport may lose, delay, reorder and repeat a pack, and a store ships on what it
received.

* `setParty` — a store as a party of a network, `heardOf` — the history of its acts.
* `network_holds_heard` — a store holds what was put and not retracted among the operations it has
  heard of, directly or through any relay, with the blobs they were put with.
* `network_converges` — stores that have heard of the same operations in a namespace list the same.
-/

namespace Spectral

open Spectral.Lib

/-- A store as a party: its callers' operations, the export of a namespace, the import of a pack,
each write at the time the clock reads. -/
def setParty : Party ReplicatedSet (SetOp × String) String String SetPack where
  start := {}
  act := ReplicatedSet.receive
  ship := ReplicatedSet.exportSet
  receive s now pack := (s.importSet now pack).1

/-- The operations a store has heard of: those of its callers, and those behind the packs. -/
def heardOf : Party (List SetOp) (SetOp × String) String String (List SetOp) :=
  Party.historian Prod.fst fun ns op => op.ns = ns

/-- The rows of the collected operations. -/
abbrev SetOp.collected (ops : List SetOp) : TwoPhaseSet SetMemberRow :=
  TwoPhaseSet.collect SetOp.effect ops

namespace SetOp

variable {ops : List SetOp} {m m' : SetMemberRow}

theorem ns_of_mem_added {op : SetOp} (h : m ∈ op.effect.added) : m.ns = op.ns := by
  cases op with
  | put ns hash blob =>
    obtain rfl : m = _ := h
    rfl
  | importSet pack =>
    rcases TwoPhaseSet.mem_added_merge.1 h with hm | hm
    · obtain ⟨o, -, hrow, -⟩ := TwoPhaseSet.mem_added_collect.1 hm
      rw [hrow]
      rfl
    · obtain ⟨t, -, hm⟩ := TwoPhaseSet.mem_added_collect.1 hm
      exact absurd hm (Set.notMem_empty m)
  | tombstoneSet ns target => exact absurd h (Set.notMem_empty m)

theorem ns_of_mem_removed {op : SetOp} (h : m ∈ op.effect.removed) : m.ns = op.ns := by
  cases op with
  | put ns hash blob => exact absurd h (Set.notMem_empty m)
  | importSet pack =>
    rcases TwoPhaseSet.mem_removed_merge.1 h with hm | hm
    · obtain ⟨o, -, hm⟩ := TwoPhaseSet.mem_removed_collect.1 hm
      exact absurd hm (Set.notMem_empty m)
    · obtain ⟨t, -, hns, -⟩ := TwoPhaseSet.mem_removed_collect.1 hm
      exact hns
  | tombstoneSet ns target => exact h.1

/-- Only the operations on a namespace add rows to it. -/
theorem mem_added_filter {ns : String} :
    m ∈ (collected (ops.filter fun op => op.ns = ns)).added ↔
      m ∈ (collected ops).added ∧ m.ns = ns := by
  simp only [collected, TwoPhaseSet.mem_added_collect, List.mem_filter, decide_eq_true_eq]
  constructor
  · rintro ⟨op, ⟨hop, hns⟩, hm⟩
    exact ⟨⟨op, hop, hm⟩, (ns_of_mem_added hm).trans hns⟩
  · rintro ⟨⟨op, hop, hm⟩, hns⟩
    exact ⟨op, ⟨hop, (ns_of_mem_added hm).symm.trans hns⟩, hm⟩

theorem mem_removed_filter {ns : String} :
    m ∈ (collected (ops.filter fun op => op.ns = ns)).removed ↔
      m ∈ (collected ops).removed ∧ m.ns = ns := by
  simp only [collected, TwoPhaseSet.mem_removed_collect, List.mem_filter, decide_eq_true_eq]
  constructor
  · rintro ⟨op, ⟨hop, hns⟩, hm⟩
    exact ⟨⟨op, hop, hm⟩, (ns_of_mem_removed hm).trans hns⟩
  · rintro ⟨⟨op, hop, hm⟩, hns⟩
    exact ⟨op, ⟨hop, (ns_of_mem_removed hm).symm.trans hns⟩, hm⟩

theorem collected_append (ops ops' : List SetOp) :
    collected (ops ++ ops') = (collected ops).merge (collected ops') := by
  ext m <;> simp [collected, TwoPhaseSet.mem_added_collect, TwoPhaseSet.mem_removed_collect,
    or_and_right, exists_or]

end SetOp

namespace ReplicatedSet

variable {carried : List SetMemberRow} {s : ReplicatedSet} {S T : TwoPhaseSet SetMemberRow}

/-- What a store represents shows in the live and the removed rows only. -/
theorem Represents.congr (h : Represents carried s S) (hlive : S.live = T.live)
    (hremoved : S.removed = T.removed) : Represents carried s T :=
  ⟨fun m => hlive ▸ h.members m, fun m => hremoved ▸ h.tombstones m, h.origin⟩

theorem Represents.mem_objects (h : Represents carried s S) {ns : String} {o : SetObject} :
    o ∈ (s.exportSet ns).objects ↔ o.row ns ∈ S.live := by
  rw [mem_objects_exportSet, h.members]
  exact and_iff_left_of_imp fun hlive ht => hlive.2 ((h.tombstones (o.row ns)).1 ht)

theorem Represents.mem_enumerate (h : Represents carried s S) {ns hash : String} :
    hash ∈ s.enumerate ns ↔ ∃ blob, { ns, objectHash := hash, blob } ∈ S.live := by
  rw [ReplicatedSet.mem_enumerate]
  constructor
  · rintro ⟨m, hm, rfl, rfl, -⟩
    exact ⟨m.blob, (h.members m).1 hm⟩
  · rintro ⟨blob, hlive⟩
    exact ⟨_, (h.members _).2 hlive, rfl, rfl, fun ht => hlive.2 ((h.tombstones _).1 ht)⟩

/-- A pack of what was heard of its namespace: the rows that live, and every retraction. -/
structure Snapshot (carried : List SetMemberRow) (pack : SetPack) (ops : List SetOp) : Prop where
  rows : ∀ o ∈ pack.objects, o.row pack.ns ∈ carried
  objects : ∀ m, (∃ o ∈ pack.objects, o.row pack.ns = m) ↔ m ∈ (SetOp.collected ops).live
  retracted : ∀ m : SetMemberRow,
    m.ns = pack.ns ∧ m.objectHash ∈ pack.retracted ↔ m ∈ (SetOp.collected ops).removed

/-- **What is shipped.**  An export carries what its store has heard of the namespace. -/
theorem snapshot_exportSet {ops : List SetOp} (h : Represents carried s (SetOp.collected ops))
    (ns : String) : Snapshot carried (s.exportSet ns) (ops.filter fun op => op.ns = ns) := by
  refine ⟨fun o ho => ?_, fun m => ?_, fun m => ?_⟩
  · exact h.origin _ ((h.members _).2 (h.mem_objects.1 ho))
  · rw [TwoPhaseSet.mem_live, SetOp.mem_added_filter, SetOp.mem_removed_filter]
    constructor
    · rintro ⟨o, ho, rfl⟩
      obtain ⟨hadd, hrem⟩ := h.mem_objects.1 ho
      exact ⟨⟨hadd, rfl⟩, fun hgone => hrem hgone.1⟩
    · rintro ⟨⟨hadd, rfl⟩, hrem⟩
      exact ⟨⟨m.objectHash, m.blob⟩, h.mem_objects.2 ⟨hadd, fun hgone => hrem ⟨hgone, rfl⟩⟩, rfl⟩
  · rw [SetOp.mem_removed_filter, ← h.tombstones]
    simp only [exportSet, SetPack.retracted, List.map_map, List.mem_map, List.mem_filter,
      decide_eq_true_eq, Function.comp_apply, IsTombstoned]
    constructor
    · rintro ⟨rfl, t, ⟨ht, hns⟩, hhash⟩
      exact ⟨⟨t, ht, hns, hhash⟩, rfl⟩
    · rintro ⟨⟨t, ht, hns, hhash⟩, rfl⟩
      exact ⟨rfl, t, ⟨ht, hns⟩, hhash⟩

/-- **What is received.**  Merging a snapshot is hearing of all that is behind it. -/
theorem represents_receive_snapshot {ops heard : List SetOp} {pack : SetPack}
    (h : Represents carried s (SetOp.collected heard)) (hagree : BlobsAgree carried)
    (hpack : Snapshot carried pack ops) (now : String) :
    Represents carried (s.importSet now pack).1 (SetOp.collected (heard ++ ops)) := by
  have hremoved : ∀ m, m ∈ (SetOp.importSet pack).effect.removed ↔
      m ∈ (SetOp.collected ops).removed := by
    intro m
    rw [← hpack.retracted]
    simp only [SetOp.effect, TwoPhaseSet.mem_removed_merge, TwoPhaseSet.mem_removed_collect,
      SetOp.merging, SetOp.retraction, Set.mem_ofPred_eq, Set.mem_empty_iff_false, and_false,
      exists_false, false_or, SetPack.retracted, List.mem_map]
    constructor
    · rintro ⟨t, ht, hns, hhash⟩
      exact ⟨hns, t, ht, hhash.symm⟩
    · rintro ⟨hns, t, ht, hhash⟩
      exact ⟨t, ht, hns, hhash.symm⟩
  have hadded : ∀ m, m ∈ (SetOp.importSet pack).effect.added ↔
      m ∈ (SetOp.collected ops).live := by
    intro m
    rw [← hpack.objects]
    simp only [SetOp.effect, TwoPhaseSet.mem_added_merge, TwoPhaseSet.mem_added_collect,
      SetOp.merging, SetOp.retraction, Set.mem_ofPred_eq, Set.mem_empty_iff_false, and_false,
      exists_false, or_false]
    refine exists_congr fun o => and_congr_right fun ho => ?_
    refine ⟨fun hm => hm.1.symm, fun hrow => ⟨hrow.symm, fun hret => ?_⟩⟩
    -- a pack carries nothing that it retracts
    exact ((hpack.objects _).1 ⟨o, ho, rfl⟩).2 ((hpack.retracted _).1 ⟨rfl, hret⟩)
  refine (represents_importSet h hagree hpack.rows now).congr ?_ ?_
  · rw [SetOp.collected_append]
    ext m
    simp only [TwoPhaseSet.mem_live, TwoPhaseSet.mem_added_merge, TwoPhaseSet.mem_removed_merge,
      hremoved, hadded]
    tauto
  · rw [SetOp.collected_append]
    ext m
    simp [hremoved]

/-! ## The network -/

variable {ν : Type} [DecidableEq ν]

/-- Stores and histories go along with each other. -/
theorem simulates_heardOf (hagree : BlobsAgree carried) :
    setParty.Simulates heardOf (fun d => ∀ m ∈ d.1.rows, m ∈ carried)
      (fun s ops => Represents carried s (SetOp.collected ops)) (Snapshot carried) where
  start := by
    have hnone : ∀ m ∈ carriedRows [], m ∈ carried := fun m hm => absurd hm List.not_mem_nil
    exact represents_replica hnone hagree
  act s ops d hrows h := by
    have hact := represents_receive h hagree hrows
    have hsingle : (SetOp.collected ops).merge d.1.effect = SetOp.collected (ops ++ [d.1]) := by
      rw [SetOp.collected, SetOp.collected, TwoPhaseSet.collect, TwoPhaseSet.collect,
        List.foldl_append]
      rfl
    rwa [hsingle] at hact
  ship s ops ns h := snapshot_exportSet h ns
  receive s ops now pack ops' h hpack := represents_receive_snapshot h hagree hpack now

/-- What the operations of a network's callers put. -/
def putRows (es : List (NetEvent ν (SetOp × String) String String)) : List SetMemberRow :=
  carriedRows (acts es)

/-- The operations a store has heard of after the events. -/
def history (es : List (NetEvent ν (SetOp × String) String String)) (i : ν) : List SetOp :=
  (heardOf.after es).node i

theorem represents_network {es : List (NetEvent ν (SetOp × String) String String)}
    (hagree : BlobsAgree (putRows es)) (i : ν) :
    Represents (putRows es) ((setParty.after es).node i) (SetOp.collected (history es i)) :=
  (Party.simulates_run (simulates_heardOf hagree) fun d hd _ hm =>
    List.mem_flatMap.2 ⟨d, hd, hm⟩).node i

/-- **A store holds what it has heard of.**  When equal hashes carry equal blobs, then after any
operations, exports and deliveries a store exports the objects that were put and not retracted among
the operations it has heard of, each with its blob, it lists their hashes, and it has retracted what
these operations retract. -/
theorem network_holds_heard (es : List (NetEvent ν (SetOp × String) String String))
    (hagree : BlobsAgree (putRows es)) (i : ν) (ns : String) :
    (∀ o, o ∈ (((setParty.after es).node i).exportSet ns).objects ↔
      o.row ns ∈ (SetOp.collected (history es i)).live) ∧
    (∀ hash, hash ∈ ((setParty.after es).node i).enumerate ns ↔
      ∃ blob, { ns, objectHash := hash, blob } ∈ (SetOp.collected (history es i)).live) ∧
    ∀ m : SetMemberRow, ((setParty.after es).node i).IsTombstoned m.ns m.objectHash ↔
      m ∈ (SetOp.collected (history es i)).removed := by
  have h := represents_network hagree i
  exact ⟨fun o => h.mem_objects, fun hash => h.mem_enumerate, h.tombstones⟩

/-- Histories with the same operations on a namespace collect the same rows of it. -/
theorem collected_congr {ops ops' : List SetOp} {ns : String}
    (hsame : ∀ op : SetOp, op.ns = ns → (op ∈ ops ↔ op ∈ ops')) {m : SetMemberRow} (hm : m.ns = ns) :
    (m ∈ (SetOp.collected ops).live ↔ m ∈ (SetOp.collected ops').live) ∧
      (m ∈ (SetOp.collected ops).removed ↔ m ∈ (SetOp.collected ops').removed) := by
  have hadded : m ∈ (SetOp.collected ops).added ↔ m ∈ (SetOp.collected ops').added := by
    rw [TwoPhaseSet.mem_added_collect, TwoPhaseSet.mem_added_collect]
    refine exists_congr fun op => and_congr_left fun hop => hsame op ?_
    exact (SetOp.ns_of_mem_added hop).symm.trans hm
  have hremoved : m ∈ (SetOp.collected ops).removed ↔ m ∈ (SetOp.collected ops').removed := by
    rw [TwoPhaseSet.mem_removed_collect, TwoPhaseSet.mem_removed_collect]
    refine exists_congr fun op => and_congr_left fun hop => hsame op ?_
    exact (SetOp.ns_of_mem_removed hop).symm.trans hm
  exact ⟨and_congr hadded (not_congr hremoved), hremoved⟩

/-- **Strong convergence.**  Two stores that have heard of the same operations on a namespace list
the same hashes in it, export the same objects and have retracted the same, whatever else happened
in the network. -/
theorem network_converges (es : List (NetEvent ν (SetOp × String) String String))
    (hagree : BlobsAgree (putRows es)) (i j : ν) (ns : String)
    (hsame : ∀ op : SetOp, op.ns = ns → (op ∈ history es i ↔ op ∈ history es j)) :
    ((setParty.after es).node i).enumerate ns = ((setParty.after es).node j).enumerate ns ∧
      (∀ o, o ∈ (((setParty.after es).node i).exportSet ns).objects ↔
        o ∈ (((setParty.after es).node j).exportSet ns).objects) ∧
      ∀ hash, ((setParty.after es).node i).IsTombstoned ns hash ↔
        ((setParty.after es).node j).IsTombstoned ns hash := by
  have hi := represents_network hagree i
  have hj := represents_network hagree j
  refine ⟨?_, fun o => ?_, fun hash => ?_⟩
  · have hlist : ∀ hash, hash ∈ ((setParty.after es).node i).enumerate ns ↔
        hash ∈ ((setParty.after es).node j).enumerate ns := fun hash => by
      rw [hi.mem_enumerate, hj.mem_enumerate]
      exact exists_congr fun blob => (collected_congr hsame rfl).1
    have hperm := (List.perm_ext_iff_of_nodup (nodup_enumerate _ ns) (nodup_enumerate _ ns)).2 hlist
    exact hperm.eq_of_pairwise' (List.pairwise_insertionSort _ _) (List.pairwise_insertionSort _ _)
  · rw [hi.mem_objects, hj.mem_objects]
    exact (collected_congr hsame rfl).1
  · rw [hi.tombstones ⟨ns, hash, []⟩, hj.tombstones ⟨ns, hash, []⟩]
    exact (collected_congr hsame rfl).2

/-! ## Three stores -/

/-- The first store puts two objects and ships them, the second retracts one of them before it
hears of it, and the third hears of all this from the second alone, in packs that come twice. -/
def threeStores : List (NetEvent (Fin 3) (SetOp × String) String String) :=
  [.act 0 (.put "realm" "h1" [1], "t0"), .act 0 (.put "realm" "h2" [2], "t0"), .ship 0 "realm",
    .act 1 (.tombstoneSet "realm" "h1", "t1"), .deliver 0 1 "t2", .ship 1 "realm",
    .deliver 1 2 "t3", .deliver 0 2 "t4", .deliver 1 2 "t5"]

theorem network_holds_heard_three :
    ((setParty.after threeStores).node 2).enumerate "realm" = ["h2"] ∧
      ∀ hash, hash ∈ ((setParty.after threeStores).node 2).enumerate "realm" ↔
        ∃ blob, { ns := "realm", objectHash := hash, blob } ∈
          (SetOp.collected (history threeStores 2)).live :=
  ⟨by decide +kernel, (network_holds_heard threeStores (by decide +kernel) 2 "realm").2.1⟩

theorem network_converges_three :
    ((setParty.after threeStores).node 1).enumerate "realm" =
      ((setParty.after threeStores).node 2).enumerate "realm" := by
  have hfirst : ∀ op ∈ history threeStores 1, op ∈ history threeStores 2 := by decide +kernel
  have hsecond : ∀ op ∈ history threeStores 2, op ∈ history threeStores 1 := by decide +kernel
  exact (network_converges threeStores (by decide +kernel) 1 2 "realm" fun op _ =>
    ⟨hfirst op, hsecond op⟩).1

end ReplicatedSet

end Spectral
