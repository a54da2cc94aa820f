import Spectral.Lib.Table
import Spectral.Lib.Run
import Mathlib.Data.List.Sort
import Mathlib.Data.String.Basic

/-!
# The replicated set

`replicated_set.rs`: objects that Spectral does not parse, each a hash chosen by the caller
and a blob, held in namespaces that do not touch each other.  A namespace is its members and
its tombstones; `put` adds one object, `importSet` merges a pack, `tombstoneSet` retracts.

The three write paths are made of two statements, `insertMember` under the check
`IsTombstoned`, and `applyTombstone`; the facts about each path follow from what these two
leave.
-/

namespace Spectral

open Spectral.Lib

/-- `SetObject`. -/
structure SetObject where
  objectHash : String
  blob : List UInt8
  deriving DecidableEq

/-- `SetTombstone`. -/
structure SetTombstone where
  targetHash : String
  ts : String
  deriving DecidableEq

/-- `SetPack`: what is shipped for a namespace. -/
structure SetPack where
  ns : String
  objects : List SetObject := []
  tombstones : List SetTombstone := []
  deriving DecidableEq

/-- A row of `replicated_set_members`. -/
structure SetMemberRow where
  ns : String
  objectHash : String
  blob : List UInt8
  deriving DecidableEq

/-- A row of `replicated_set_tombstones`. -/
structure SetTombstoneRow where
  ns : String
  targetHash : String
  ts : String
  deriving DecidableEq

/-- The primary key of `replicated_set_members`. -/
abbrev SetMemberRow.pk (m : SetMemberRow) : String × String := (m.ns, m.objectHash)

/-- The primary key of `replicated_set_tombstones`. -/
abbrev SetTombstoneRow.pk (t : SetTombstoneRow) : String × String := (t.ns, t.targetHash)

/-- The two tables of the replicated set. -/
structure ReplicatedSet where
  members : Table SetMemberRow (SameKey SetMemberRow.pk) := .empty
  tombstones : Table SetTombstoneRow (SameKey SetTombstoneRow.pk) := .empty
  deriving DecidableEq

/-- The row an object is stored as in a namespace. -/
def SetObject.row (ns : String) (o : SetObject) : SetMemberRow :=
  { ns, objectHash := o.objectHash, blob := o.blob }

namespace ReplicatedSet

variable (s : ReplicatedSet)

/-- `is_tombstoned`: is the hash retracted in the namespace? -/
def IsTombstoned (ns hash : String) : Prop :=
  ∃ t ∈ s.tombstones.rows, t.ns = ns ∧ t.targetHash = hash

instance (ns hash : String) : Decidable (s.IsTombstoned ns hash) :=
  inferInstanceAs (Decidable (∃ t ∈ s.tombstones.rows, t.ns = ns ∧ t.targetHash = hash))

/-! ## Reading a namespace -/

/-- The members of a namespace that are not retracted. -/
def liveMembers (ns : String) : List SetMemberRow :=
  s.members.rows.filter fun m => m.ns = ns && decide (¬ s.IsTombstoned ns m.objectHash)

/-- `enumerate`: the hashes live in a namespace, sorted. -/
def enumerate (ns : String) : List String :=
  ((s.liveMembers ns).map SetMemberRow.objectHash).insertionSort (· ≤ ·)

/-- `export_set`. -/
def exportSet (ns : String) : SetPack :=
  { ns
    objects := (s.liveMembers ns).map fun m => { objectHash := m.objectHash, blob := m.blob }
    tombstones := (s.tombstones.rows.filter fun t => t.ns = ns).map fun t =>
      { targetHash := t.targetHash, ts := t.ts } }

variable {s}

@[simp] theorem mem_liveMembers {ns : String} {m : SetMemberRow} :
    m ∈ s.liveMembers ns ↔ m ∈ s.members ∧ m.ns = ns ∧ ¬ s.IsTombstoned ns m.objectHash := by
  simp [liveMembers]

theorem mem_enumerate {ns hash : String} :
    hash ∈ s.enumerate ns ↔
      ∃ m ∈ s.members, m.ns = ns ∧ m.objectHash = hash ∧ ¬ s.IsTombstoned ns hash := by
  rw [enumerate, List.mem_insertionSort, List.mem_map]
  constructor
  · rintro ⟨m, hm, rfl⟩
    obtain ⟨hmem, hns, ht⟩ := mem_liveMembers.1 hm
    exact ⟨m, hmem, hns, rfl, ht⟩
  · rintro ⟨m, hmem, hns, rfl, ht⟩
    exact ⟨m, mem_liveMembers.2 ⟨hmem, hns, ht⟩, rfl⟩

theorem mem_objects_exportSet {ns : String} {o : SetObject} :
    o ∈ (s.exportSet ns).objects ↔ o.row ns ∈ s.members ∧ ¬ s.IsTombstoned ns o.objectHash := by
  simp only [exportSet, List.mem_map, mem_liveMembers]
  constructor
  · rintro ⟨m, ⟨hm, rfl, ht⟩, rfl⟩
    exact ⟨hm, ht⟩
  · rintro ⟨hm, ht⟩
    exact ⟨o.row ns, ⟨hm, rfl, ht⟩, rfl⟩

/-- A namespace lists no hash twice. -/
theorem nodup_enumerate (s : ReplicatedSet) (ns : String) : (s.enumerate ns).Nodup := by
  rw [enumerate, List.Perm.nodup_iff (List.perm_insertionSort _ _), List.Nodup, List.pairwise_map]
  have hrows := s.members.unique.sublist (List.filter_sublist
    (p := fun m => m.ns = ns && decide (¬ s.IsTombstoned ns m.objectHash)))
  refine List.Pairwise.imp_of_mem ?_ hrows
  intro a b ha hb hab hhash
  exact hab (Prod.ext ((mem_liveMembers.1 ha).2.1.trans (mem_liveMembers.1 hb).2.1.symm) hhash)

end ReplicatedSet

/-- The hashes a pack retracts. -/
def SetPack.retracted (pack : SetPack) : List String := pack.tombstones.map SetTombstone.targetHash

namespace ReplicatedSet

variable (s : ReplicatedSet)

/-! ## Writing -/

/-- `INSERT OR IGNORE INTO replicated_set_members`. -/
def insertMember (row : SetMemberRow) : ReplicatedSet :=
  { s with members := s.members.insertOrIgnore row }

/-- `put`: add an object unless its hash is retracted.  Says whether it was new. -/
def put (ns hash : String) (blob : List UInt8) : ReplicatedSet × Bool :=
  if s.IsTombstoned ns hash then (s, false)
  else
    let row : SetMemberRow := { ns, objectHash := hash, blob }
    (s.insertMember row, decide (0 < s.members.inserted row))

/-- `apply_tombstone_tx`: record the retraction and drop the blob. -/
def applyTombstone (now ns target : String) : ReplicatedSet :=
  { members := s.members.deleteWhere fun m => m.ns = ns && m.objectHash = target
    tombstones := s.tombstones.insertOrIgnore { ns, targetHash := target, ts := now } }

/-- `tombstone_set`. -/
def tombstoneSet (now ns target : String) : ReplicatedSet := s.applyTombstone now ns target

/-- One turn of the import loop, with the count so far. -/
def importObject (ns : String) (packRetracted : List String) (acc : ReplicatedSet × ℕ)
    (o : SetObject) : ReplicatedSet × ℕ :=
  if o.objectHash ∈ packRetracted ∨ acc.1.IsTombstoned ns o.objectHash then acc
  else (acc.1.insertMember (o.row ns), acc.2 + acc.1.members.inserted (o.row ns))

/-- `import_set`: merge the objects, then apply the retractions.  Returns the number of
objects that were new. -/
def importSet (now : String) (pack : SetPack) : ReplicatedSet × ℕ :=
  let merged := pack.objects.foldl (importObject pack.ns pack.retracted) (s, 0)
  (pack.tombstones.foldl (fun s t => s.applyTombstone now pack.ns t.targetHash) merged.1, merged.2)

/-! ## What the statements leave -/

variable {s}

theorem mem_members_insertMember {row m : SetMemberRow} :
    m ∈ (s.insertMember row).members ↔ m ∈ s.members ∨ (m = row ∧ ¬ s.members.Clashes row) :=
  Table.mem_insertOrIgnore

theorem mem_members_applyTombstone {now ns target : String} {m : SetMemberRow} :
    m ∈ (s.applyTombstone now ns target).members ↔
      m ∈ s.members ∧ ¬ (m.ns = ns ∧ m.objectHash = target) := by
  simp only [applyTombstone, Table.mem_deleteWhere]
  simp

theorem mem_tombstones_applyTombstone {now ns target : String} {t : SetTombstoneRow} :
    t ∈ (s.applyTombstone now ns target).tombstones ↔
      t ∈ s.tombstones ∨
        (t = { ns, targetHash := target, ts := now } ∧
          ¬ s.tombstones.Clashes { ns, targetHash := target, ts := now }) :=
  Table.mem_insertOrIgnore

theorem isTombstoned_applyTombstone {now ns target n h : String} :
    (s.applyTombstone now ns target).IsTombstoned n h ↔
      s.IsTombstoned n h ∨ (n = ns ∧ h = target) := by
  constructor
  · rintro ⟨t, ht, rfl, rfl⟩
    rcases mem_tombstones_applyTombstone.1 ht with ht | ⟨rfl, -⟩
    · exact Or.inl ⟨t, ht, rfl, rfl⟩
    · exact Or.inr ⟨rfl, rfl⟩
  · rintro (⟨t, ht, hn, hh⟩ | ⟨rfl, rfl⟩)
    · exact ⟨t, mem_tombstones_applyTombstone.2 (Or.inl ht), hn, hh⟩
    · rcases Table.exists_clash_or_mem_insertOrIgnore s.tombstones
        { ns := n, targetHash := h, ts := now } with ⟨t, ht, hclash⟩ | hnew
      · obtain ⟨hn, hh⟩ := Prod.ext_iff.1 hclash
        exact ⟨t, mem_tombstones_applyTombstone.2 (Or.inl ht), hn, hh⟩
      · exact ⟨_, hnew, rfl, rfl⟩

end ReplicatedSet

end Spectral
