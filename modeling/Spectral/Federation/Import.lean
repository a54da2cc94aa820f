import Spectral.Federation.Sync
import Spectral.Lib.Run

/-!
# What an import does

The import loop reads the store it is changing: the manifest decides whether an object is
already held, and the two `INSERT OR IGNORE` statements look at all rows there are.  This
file says what it leaves in terms of the store it started from.

* `incoming` — the objects taken in: past the policy and the tombstones, the first of each
  hash.
* `LoopSpec` — the state after a part of the loop, by table; `loopSpec_importObject` is one
  turn of the loop and `loopSpec_foldl` the whole loop.
* `RetractSpec` — what the retractions of the pack leave.
* `mem_sharedWingMembers_import`, `mem_memories_import`, `isTombstoned_import` — the rows
  after `importPackWithPolicy`.  Every result about imports starts from these three.
-/

namespace Spectral

open Spectral.Lib

/-! ## Looking up after an insert -/

namespace Store

variable {s t : Store}

theorem existingKey_of_insertOrIgnore {m : ManifestRow}
    (ht : t.sharedWingMembers = s.sharedWingMembers.insertOrIgnore m) (hash : String) :
    t.existingKey hash = (s.existingKey hash).or
      (if m.objectHash = hash ∧ ¬ s.sharedWingMembers.Clashes m then some m.memKey else none) := by
  unfold existingKey
  rw [ht, Table.find?_insertOrIgnore, Option.map_or]
  congr 1
  split <;> simp_all

theorem memoryByKey_of_insertOrIgnore {r : MemoryRow}
    (ht : t.memories = s.memories.insertOrIgnore r) (key : String) :
    t.memoryByKey key = (s.memoryByKey key).or
      (if r.key = key ∧ ¬ s.memories.Clashes r then some r else none) := by
  unfold memoryByKey
  rw [ht, Table.find?_insertOrIgnore]
  simp

theorem existingKey_eq_none {hash : String} : s.existingKey hash = none ↔ ¬ s.Holds hash := by
  unfold existingKey Holds
  rw [Option.map_eq_none_iff, Table.find?_eq_none]
  simp

theorem exists_of_existingKey_eq_some {hash key : String} (h : s.existingKey hash = some key) :
    ∃ m ∈ s.sharedWingMembers, m.objectHash = hash ∧ m.memKey = key := by
  unfold existingKey at h
  obtain ⟨m, hm, rfl⟩ := Option.map_eq_some_iff.1 h
  obtain ⟨hmem, hp⟩ := Table.mem_of_find?_eq_some hm
  exact ⟨m, hmem, by simpa using hp, rfl⟩

end Store

/-! ## The objects an import takes in -/

namespace Env

variable (env : Env) (policy : ImportPolicy) (pack : Pack) (s : Store)

/-- The object gets past the policy and past the tombstones of the pack and of the wing. -/
def Admitted (obj : MemoryObject) : Prop :=
  env.acceptsObject policy obj (env.objectHash obj) = true ∧
    env.objectHash obj ∉ env.packRetracted policy pack ∧
      ¬ s.IsTombstoned pack.wingId (env.objectHash obj)

instance (obj : MemoryObject) : Decidable (env.Admitted policy pack s obj) :=
  inferInstanceAs (Decidable (_ ∧ _ ∧ _))

/-- The objects of a list that are taken in: the admitted ones, the first of each hash. -/
def incoming (xs : List MemoryObject) : Table MemoryObject (SameKey env.objectHash) :=
  Table.ofList (xs.filter fun o => env.Admitted policy pack s o)

/-- The key the manifest will name an incoming object by: the one it is already held under,
else its local key. -/
def memberKey (obj : MemoryObject) : String :=
  (s.existingKey (env.objectHash obj)).getD (env.localKey obj)

/-- The manifest row of an incoming object. -/
def member (wingId : String) (obj : MemoryObject) : ManifestRow :=
  env.importedMember wingId (env.memberKey s obj) obj

/-- The object reaches `INSERT INTO memories` and its id is free. -/
def Arrives (obj : MemoryObject) : Prop :=
  ¬ s.Holds (env.objectHash obj) ∧ ¬ s.HasMemory (env.objectHash obj)

instance (obj : MemoryObject) : Decidable (env.Arrives s obj) :=
  inferInstanceAs (Decidable (_ ∧ _))

/-- The incoming object whose row takes a free key. -/
def arrival (xs : List MemoryObject) (key : String) : Option MemoryObject :=
  (env.incoming policy pack s xs).find? fun o => decide (env.Arrives s o) && env.localKey o = key

variable {env policy pack s}

theorem incoming_concat_of_admitted {xs : List MemoryObject} {x : MemoryObject}
    (h : env.Admitted policy pack s x) :
    env.incoming policy pack s (xs ++ [x]) = (env.incoming policy pack s xs).insertOrIgnore x := by
  unfold incoming
  rw [List.filter_append, List.filter_singleton, decide_eq_true h, Bool.cond_true,
    Table.ofList_concat]

theorem incoming_concat_of_not_admitted {xs : List MemoryObject} {x : MemoryObject}
    (h : ¬ env.Admitted policy pack s x) :
    env.incoming policy pack s (xs ++ [x]) = env.incoming policy pack s xs := by
  unfold incoming
  rw [List.filter_append, List.filter_singleton, decide_eq_false h, Bool.cond_false,
    List.append_nil]

theorem mem_incoming {xs : List MemoryObject} {o : MemoryObject}
    (h : o ∈ env.incoming policy pack s xs) : o ∈ xs ∧ env.Admitted policy pack s o := by
  have := Table.mem_of_mem_ofList h
  rw [List.mem_filter] at this
  exact ⟨this.1, of_decide_eq_true this.2⟩

/-- An admitted object is taken in, or one of the same hash is. -/
theorem exists_mem_incoming {xs : List MemoryObject} {o : MemoryObject} (ho : o ∈ xs)
    (h : env.Admitted policy pack s o) :
    ∃ o' ∈ env.incoming policy pack s xs, env.objectHash o' = env.objectHash o :=
  Table.clashes_ofList (List.mem_filter.2 ⟨ho, decide_eq_true h⟩)

/-! ## The loop -/

/-- The state `t` of the loop that started from `s` and has been through the objects `xs`. -/
structure LoopSpec (env : Env) (policy : ImportPolicy) (pack : Pack) (now : String) (s : Store)
    (xs : List MemoryObject) (t : Store) : Prop where
  mem_members : ∀ m, m ∈ t.sharedWingMembers ↔ m ∈ s.sharedWingMembers ∨
    ∃ o ∈ env.incoming policy pack s xs,
      m = env.member s pack.wingId o ∧ ¬ s.sharedWingMembers.Clashes m
  existingKey : ∀ hash, t.existingKey hash = (s.existingKey hash).or
    (((env.incoming policy pack s xs).find? fun o => env.objectHash o = hash).map env.localKey)
  memoryByKey : ∀ key, t.memoryByKey key = (s.memoryByKey key).or
    ((env.arrival policy pack s xs key).map (env.importedRow now))
  syncTombstones : t.syncTombstones = s.syncTombstones

theorem loopSpec_nil (now : String) : env.LoopSpec policy pack now s [] s where
  mem_members m := by simp [incoming]
  existingKey hash := by simp [incoming, Table.find?, Table.empty]
  memoryByKey key := by simp [arrival, incoming, Table.find?, Table.empty]
  syncTombstones := rfl

section Step

variable {now : String} {xs : List MemoryObject} {x : MemoryObject} {t : Store}

/-- The loop has seen this hash before. -/
theorem loopSpec_of_seen (h : env.LoopSpec policy pack now s xs t)
    (hadm : env.Admitted policy pack s x) {o : MemoryObject}
    (ho : o ∈ env.incoming policy pack s xs) (hhash : env.objectHash o = env.objectHash x)
    (key : String) :
    env.LoopSpec policy pack now s (xs ++ [x])
      { t with
        sharedWingMembers :=
          t.sharedWingMembers.insertOrIgnore (env.importedMember pack.wingId key x) } := by
  have hinc : env.incoming policy pack s (xs ++ [x]) = env.incoming policy pack s xs := by
    rw [incoming_concat_of_admitted hadm]
    exact Table.insertOrIgnore_of_clashes ⟨o, ho, hhash⟩
  -- the manifest of the wing has an entry for the hash, its own or the one of `o`
  have hclash : t.sharedWingMembers.Clashes (env.importedMember pack.wingId key x) := by
    by_cases hs : s.sharedWingMembers.Clashes (env.member s pack.wingId o)
    · obtain ⟨m, hm, hpk⟩ := hs
      refine ⟨m, (h.mem_members m).2 (Or.inl hm), ?_⟩
      exact hpk.trans (Prod.ext rfl hhash)
    · refine ⟨env.member s pack.wingId o, (h.mem_members _).2 (Or.inr ⟨o, ho, rfl, hs⟩), ?_⟩
      exact Prod.ext rfl hhash
  rw [Table.insertOrIgnore_of_clashes hclash]
  constructor
  · rw [hinc]; exact h.mem_members
  · rw [hinc]; exact h.existingKey
  · unfold arrival; rw [hinc]; exact h.memoryByKey
  · exact h.syncTombstones

/-- The manifest after an object of a new hash was entered under `memberKey`. -/
theorem mem_members_of_new (h : env.LoopSpec policy pack now s xs t)
    (hadm : env.Admitted policy pack s x)
    (hnew : ¬ (env.incoming policy pack s xs).Clashes x) (m : ManifestRow) :
    m ∈ t.sharedWingMembers.insertOrIgnore (env.member s pack.wingId x) ↔
      m ∈ s.sharedWingMembers ∨ ∃ o ∈ env.incoming policy pack s (xs ++ [x]),
        m = env.member s pack.wingId o ∧ ¬ s.sharedWingMembers.Clashes m := by
  have hclash : t.sharedWingMembers.Clashes (env.member s pack.wingId x) ↔
      s.sharedWingMembers.Clashes (env.member s pack.wingId x) := by
    constructor
    · rintro ⟨r, hr, hpk⟩
      rcases (h.mem_members r).1 hr with hr | ⟨o, ho, rfl, -⟩
      · exact ⟨r, hr, hpk⟩
      · exact absurd ⟨o, ho, congrArg Prod.snd hpk⟩ hnew
    · rintro ⟨r, hr, hpk⟩
      exact ⟨r, (h.mem_members r).2 (Or.inl hr), hpk⟩
  rw [Table.mem_insertOrIgnore, h.mem_members, hclash, incoming_concat_of_admitted hadm]
  simp only [Table.mem_insertOrIgnore]
  constructor
  · rintro ((hm | ⟨o, ho, hm, hc⟩) | ⟨rfl, hc⟩)
    · exact Or.inl hm
    · exact Or.inr ⟨o, Or.inl ho, hm, hc⟩
    · exact Or.inr ⟨x, Or.inr ⟨rfl, hnew⟩, rfl, hc⟩
  · rintro (hm | ⟨o, ho | ⟨rfl, -⟩, rfl, hc⟩)
    · exact Or.inl (Or.inl hm)
    · exact Or.inl (Or.inr ⟨o, ho, rfl, hc⟩)
    · exact Or.inr ⟨rfl, hc⟩

/-- The object is held under some wing already: only the manifest grows. -/
theorem loopSpec_of_held (h : env.LoopSpec policy pack now s xs t)
    (hadm : env.Admitted policy pack s x)
    (hnew : ¬ (env.incoming policy pack s xs).Clashes x) {key : String}
    (hkey : s.existingKey (env.objectHash x) = some key) :
    env.LoopSpec policy pack now s (xs ++ [x])
      { t with
        sharedWingMembers :=
          t.sharedWingMembers.insertOrIgnore (env.importedMember pack.wingId key x) } := by
  have hmember : env.importedMember pack.wingId key x = env.member s pack.wingId x := by
    rw [member, memberKey, hkey, Option.getD_some]
  have hinc : env.incoming policy pack s (xs ++ [x]) =
      (env.incoming policy pack s xs).insertOrIgnore x := incoming_concat_of_admitted hadm
  have hheld : s.Holds (env.objectHash x) := by
    by_contra hno
    rw [Store.existingKey_eq_none.2 hno] at hkey
    cases hkey
  rw [hmember]
  refine ⟨mem_members_of_new h hadm hnew, fun hash => ?_, fun key' => ?_, h.syncTombstones⟩
  · rw [Store.existingKey_of_insertOrIgnore rfl, h.existingKey, hinc, Table.find?_insertOrIgnore]
    by_cases hx : env.objectHash x = hash
    · rw [← hx, hkey]
      simp
    · simp [member, importedMember, hx]
  · have harr : env.arrival policy pack s (xs ++ [x]) key' = env.arrival policy pack s xs key' := by
      unfold arrival
      rw [hinc, Table.find?_insertOrIgnore]
      simp [Arrives, hheld]
    rw [harr]
    exact h.memoryByKey key'

theorem arrival_eq_some {key : String} {o : MemoryObject}
    (h : env.arrival policy pack s xs key = some o) :
    o ∈ env.incoming policy pack s xs ∧ env.Arrives s o ∧ env.localKey o = key := by
  obtain ⟨ho, hp⟩ := Table.mem_of_find?_eq_some h
  simp only [Bool.and_eq_true, decide_eq_true_eq] at hp
  exact ⟨ho, hp.1, hp.2⟩

/-- The memories of the loop are those of its start and those that arrived. -/
theorem LoopSpec.mem_memories (h : env.LoopSpec policy pack now s xs t) (r : MemoryRow) :
    r ∈ t.memories ↔ r ∈ s.memories ∨ ∃ o, s.memoryByKey r.key = none ∧
      env.arrival policy pack s xs r.key = some o ∧ r = env.importedRow now o := by
  have hlookup : r ∈ t.memories ↔ t.memoryByKey r.key = some r := by
    simp [Store.memoryByKey_eq_some]
  rw [hlookup, h.memoryByKey]
  cases hs : s.memoryByKey r.key with
  | some r' =>
    obtain ⟨hr', hk⟩ := Store.memoryByKey_eq_some.1 hs
    simp only [Option.some_or, Option.some.injEq, reduceCtorEq, false_and, exists_false, or_false]
    exact ⟨fun heq => heq ▸ hr', fun hr => Store.eq_of_key hr' hr hk⟩
  | none =>
    have hnot : r ∉ s.memories := fun hr => Store.memoryByKey_eq_none.1 hs r hr rfl
    simp only [Option.none_or, Option.map_eq_some_iff, hnot, true_and, false_or]
    exact exists_congr fun o => and_congr_right fun _ => eq_comm

/-- The loop adds manifest rows of the pack's own wing only. -/
theorem LoopSpec.heldElsewhere (h : env.LoopSpec policy pack now s xs t) (hash : String) :
    t.HeldElsewhere pack.wingId hash ↔ s.HeldElsewhere pack.wingId hash := by
  constructor
  · rintro ⟨m, hm, hh, hw⟩
    rcases (h.mem_members m).1 hm with hm | ⟨o, -, rfl, -⟩
    · exact ⟨m, hm, hh, hw⟩
    · exact absurd rfl hw
  · rintro ⟨m, hm, hh, hw⟩
    exact ⟨m, (h.mem_members m).2 (Or.inl hm), hh, hw⟩

/-- An object that is held nowhere is one more candidate for its local key. -/
theorem arrival_concat (hadm : env.Admitted policy pack s x)
    (hnew : ¬ (env.incoming policy pack s xs).Clashes x) (hfree : ¬ s.Holds (env.objectHash x))
    (key : String) :
    env.arrival policy pack s (xs ++ [x]) key = (env.arrival policy pack s xs key).or
      (if env.localKey x = key ∧ ¬ s.HasMemory (env.objectHash x) then some x else none) := by
  unfold arrival
  rw [incoming_concat_of_admitted hadm, Table.find?_insertOrIgnore]
  congr 1
  simp only [Arrives, hfree, hnew, not_false_eq_true, true_and, and_true,
    Bool.and_eq_true, decide_eq_true_eq]
  by_cases hk : env.localKey x = key <;> simp [hk]

/-- While no memory has the local key of a new object, only its id can be taken. -/
theorem LoopSpec.clashes_importedRow_iff (h : env.LoopSpec policy pack now s xs t)
    (hnew : ¬ (env.incoming policy pack s xs).Clashes x)
    (hnone : t.memoryByKey (env.localKey x) = none) :
    t.memories.Clashes (env.importedRow now x) ↔ s.HasMemory (env.objectHash x) := by
  constructor
  · rintro ⟨r, hr, hid | hkey⟩
    · rcases (h.mem_memories r).1 hr with hr | ⟨o, -, ho, rfl⟩
      · exact ⟨r, hr, hid⟩
      · exact absurd ⟨o, (arrival_eq_some ho).1, hid⟩ hnew
    · exact absurd hkey (Store.memoryByKey_eq_none.1 hnone r hr)
  · rintro ⟨r, hr, hid⟩
    exact ⟨r, (h.mem_memories r).2 (Or.inl hr), Or.inl hid⟩

/-- The object is not held anywhere: the memory and the manifest row are inserted. -/
theorem loopSpec_of_fresh (h : env.LoopSpec policy pack now s xs t)
    (hadm : env.Admitted policy pack s x)
    (hnew : ¬ (env.incoming policy pack s xs).Clashes x)
    (hfree : ¬ s.Holds (env.objectHash x)) :
    env.LoopSpec policy pack now s (xs ++ [x])
      { t with
        memories := t.memories.insertOrIgnore (env.importedRow now x)
        sharedWingMembers := t.sharedWingMembers.insertOrIgnore
          (env.importedMember pack.wingId (env.localKey x) x) } := by
  have hnone := Store.existingKey_eq_none.2 hfree
  have hmember : env.importedMember pack.wingId (env.localKey x) x =
      env.member s pack.wingId x := by
    rw [member, memberKey, hnone, Option.getD_none]
  have hinc : env.incoming policy pack s (xs ++ [x]) =
      (env.incoming policy pack s xs).insertOrIgnore x := incoming_concat_of_admitted hadm
  rw [hmember]
  refine ⟨mem_members_of_new h hadm hnew, fun hash => ?_, fun key => ?_, h.syncTombstones⟩
  · -- the manifest row is the first one of its hash
    have hclash : ¬ t.sharedWingMembers.Clashes (env.member s pack.wingId x) := by
      rintro ⟨m, hm, hpk⟩
      have hhash : m.objectHash = env.objectHash x := congrArg Prod.snd hpk
      rcases (h.mem_members m).1 hm with hm | ⟨o, ho, rfl, -⟩
      · exact hfree ⟨m, hm, hhash⟩
      · exact hnew ⟨o, ho, hhash⟩
    rw [Store.existingKey_of_insertOrIgnore rfl, h.existingKey, hinc, Table.find?_insertOrIgnore,
      Option.map_or, Option.or_assoc]
    have hkey : (env.member s pack.wingId x).memKey = env.localKey x := by
      rw [← hmember]; rfl
    have hhash : (env.member s pack.wingId x).objectHash = env.objectHash x := rfl
    rw [hkey, hhash]
    by_cases hx : env.objectHash x = hash <;> simp [hx, hclash, hnew]
  · -- the memory is inserted unless its key or its id is taken
    rw [Store.memoryByKey_of_insertOrIgnore rfl, h.memoryByKey, arrival_concat hadm hnew hfree,
      Option.map_or, Option.or_assoc]
    cases hs : s.memoryByKey key with
    | some r => rfl
    | none =>
      cases ho : env.arrival policy pack s xs key with
      | some o => rfl
      | none =>
        have hrow : (env.importedRow now x).key = env.localKey x := rfl
        rw [hrow]
        by_cases hk : env.localKey x = key
        · have hlook : t.memoryByKey (env.localKey x) = none := by
            rw [hk, h.memoryByKey, hs, ho]
            rfl
          simp only [hk, h.clashes_importedRow_iff hnew hlook, true_and]
          by_cases hid : s.HasMemory (env.objectHash x) <;> simp [hid]
        · simp [hk]

/-- The object is rejected or retracted: the loop passes it by. -/
theorem loopSpec_of_not_admitted (h : env.LoopSpec policy pack now s xs t)
    (hadm : ¬ env.Admitted policy pack s x) : env.LoopSpec policy pack now s (xs ++ [x]) t := by
  have hinc : env.incoming policy pack s (xs ++ [x]) = env.incoming policy pack s xs :=
    incoming_concat_of_not_admitted hadm
  constructor
  · rw [hinc]; exact h.mem_members
  · rw [hinc]; exact h.existingKey
  · unfold arrival; rw [hinc]; exact h.memoryByKey
  · exact h.syncTombstones

/-- **One turn of the loop.** -/
theorem loopSpec_importObject {acc : Store × ImportOutcome}
    (h : env.LoopSpec policy pack now s xs acc.1) (x : MemoryObject) :
    env.LoopSpec policy pack now s (xs ++ [x])
      (env.importObject policy pack.wingId (env.packRetracted policy pack) now acc x).1 := by
  have htomb : acc.1.IsTombstoned pack.wingId (env.objectHash x) ↔
      s.IsTombstoned pack.wingId (env.objectHash x) := by
    unfold Store.IsTombstoned
    rw [h.syncTombstones]
  unfold importObject
  dsimp only
  by_cases hacc : env.acceptsObject policy x (env.objectHash x) = false
  · rw [if_pos hacc]
    exact loopSpec_of_not_admitted h fun hadm => by simp [hadm.1] at hacc
  · rw [if_neg hacc]
    by_cases hret : env.objectHash x ∈ env.packRetracted policy pack ∨
        acc.1.IsTombstoned pack.wingId (env.objectHash x)
    · rw [if_pos hret]
      exact loopSpec_of_not_admitted h fun hadm =>
        hret.elim hadm.2.1 fun ht => hadm.2.2 (htomb.1 ht)
    · rw [if_neg hret]
      have hadm : env.Admitted policy pack s x :=
        ⟨by simpa using hacc, fun hr => hret (Or.inl hr), fun ht => hret (Or.inr (htomb.2 ht))⟩
      by_cases hseen : (env.incoming policy pack s xs).Clashes x
      · -- a duplicate within the pack takes the branch of the objects already held
        obtain ⟨o, ho, hhash⟩ := hseen
        cases hk : acc.1.existingKey (env.objectHash x) with
        | some key => exact loopSpec_of_seen h hadm ho hhash key
        | none =>
          exfalso
          rw [h.existingKey] at hk
          have hfind := (Option.or_eq_none_iff.1 hk).2
          rw [Option.map_eq_none_iff, Table.find?_eq_none] at hfind
          exact hfind o ho (decide_eq_true hhash)
      · have hnone : (env.incoming policy pack s xs).find?
            (fun o => env.objectHash o = env.objectHash x) = none := by
          rw [Table.find?_eq_none]
          intro o ho heq
          exact hseen ⟨o, ho, of_decide_eq_true heq⟩
        have hexist : acc.1.existingKey (env.objectHash x) = s.existingKey (env.objectHash x) := by
          rw [h.existingKey, hnone, Option.map_none, Option.or_none]
        rw [hexist]
        cases hk : s.existingKey (env.objectHash x) with
        | some key => exact loopSpec_of_held h hadm hseen hk
        | none => exact loopSpec_of_fresh h hadm hseen (Store.existingKey_eq_none.1 hk)

end Step

/-- **The loop.**  The state after all objects of the pack. -/
theorem loopSpec_foldl (env : Env) (policy : ImportPolicy) (pack : Pack) (now : String) (s : Store)
    (outcome : ImportOutcome) :
    env.LoopSpec policy pack now s pack.objects
      (pack.objects.foldl
        (env.importObject policy pack.wingId (env.packRetracted policy pack) now) (s, outcome)).1 :=
  @run_history _ _ (env.importObject policy pack.wingId (env.packRetracted policy pack) now)
    (fun xs (acc : Store × ImportOutcome) => env.LoopSpec policy pack now s xs acc.1) _ _
    (fun _ _ x h => loopSpec_importObject h x) (loopSpec_nil now)

end Env

/-! ## Retractions -/

namespace Store

variable {now wingId targetHash : String} {s t : Store}

theorem mem_sharedWingMembers_applyTombstoneTx {m : ManifestRow} :
    m ∈ (s.applyTombstoneTx now wingId targetHash).sharedWingMembers ↔
      m ∈ s.sharedWingMembers ∧ ¬ (m.wingId = wingId ∧ m.objectHash = targetHash) := by
  show m ∈ s.sharedWingMembers.deleteWhere _ ↔ _
  rw [Table.mem_deleteWhere]
  simp

/-- A retraction deletes the memory with the retracted id, unless another wing holds the
object. -/
theorem mem_memories_applyTombstoneTx {r : MemoryRow} :
    r ∈ (s.applyTombstoneTx now wingId targetHash).memories ↔
      r ∈ s.memories ∧ ¬ (r.id = targetHash ∧ ¬ s.HeldElsewhere wingId targetHash) := by
  show r ∈ s.memories.deleteWhere _ ↔ _
  rw [Table.mem_deleteWhere]
  -- recording the retraction leaves the manifest, so the guard reads the one of `s`
  show _ ∧ (decide (r.id = targetHash) && decide (¬ s.HeldElsewhere wingId targetHash)) = false ↔ _
  simp

theorem isTombstoned_applyTombstoneTx {w h : String} :
    (s.applyTombstoneTx now wingId targetHash).IsTombstoned w h ↔
      s.IsTombstoned w h ∨ (w = wingId ∧ h = targetHash) := by
  show (∃ x ∈ s.syncTombstones.insertOrIgnore { wingId, targetHash, ts := now },
    x.wingId = w ∧ x.targetHash = h) ↔ _
  simp only [Table.mem_insertOrIgnore]
  constructor
  · rintro ⟨x, hx | ⟨rfl, -⟩, rfl, rfl⟩
    · exact Or.inl ⟨x, hx, rfl, rfl⟩
    · exact Or.inr ⟨rfl, rfl⟩
  · rintro (⟨x, hx, hw, hh⟩ | ⟨rfl, rfl⟩)
    · exact ⟨x, Or.inl hx, hw, hh⟩
    · by_cases hc : s.syncTombstones.Clashes { wingId := w, targetHash := h, ts := now }
      · obtain ⟨x, hx, hpk⟩ := hc
        exact ⟨x, Or.inl hx, congrArg Prod.fst hpk, congrArg Prod.snd hpk⟩
      · exact ⟨_, Or.inr ⟨rfl, hc⟩, rfl, rfl⟩

theorem mem_syncTombstones_attest {d : Tombstone} {x : TombstoneRow} :
    x ∈ (s.attest wingId d).syncTombstones ↔ ∃ y ∈ s.syncTombstones,
      (if y.wingId = wingId ∧ y.targetHash = d.targetHash then
        { y with authorId := d.authorId, sig := d.signature } else y) = x := by
  unfold attest
  rw [Table.mem_update]

theorem isTombstoned_attest {d : Tombstone} {w h : String} :
    (s.attest wingId d).IsTombstoned w h ↔ s.IsTombstoned w h := by
  unfold IsTombstoned
  simp only [Table.mem_rows, mem_syncTombstones_attest]
  constructor
  · rintro ⟨x, ⟨y, hy, rfl⟩, hw, hh⟩
    refine ⟨y, hy, ?_, ?_⟩
    · split at hw <;> exact hw
    · split at hh <;> exact hh
  · rintro ⟨y, hy, hw, hh⟩
    refine ⟨_, ⟨y, hy, rfl⟩, ?_, ?_⟩ <;> split <;> assumption

/-- The state after the retractions `ds` of a pack for `wingId`, from `s`. -/
structure RetractSpec (wingId : String) (s : Store) (ds : List Tombstone) (t : Store) : Prop where
  mem_members : ∀ m, m ∈ t.sharedWingMembers ↔ m ∈ s.sharedWingMembers ∧
    ¬ (m.wingId = wingId ∧ m.objectHash ∈ ds.map Tombstone.targetHash)
  mem_memories : ∀ r, r ∈ t.memories ↔ r ∈ s.memories ∧
    ¬ (r.id ∈ ds.map Tombstone.targetHash ∧ ¬ s.HeldElsewhere wingId r.id)
  isTombstoned : ∀ w h, t.IsTombstoned w h ↔
    s.IsTombstoned w h ∨ (w = wingId ∧ h ∈ ds.map Tombstone.targetHash)

theorem retractSpec_importTombstone {ds : List Tombstone} (h : RetractSpec wingId s ds t)
    (d : Tombstone) : RetractSpec wingId s (ds ++ [d]) (t.importTombstone now wingId d) := by
  -- a retraction in `wingId` drops no manifest row of another wing
  have hheld : ∀ hash, t.HeldElsewhere wingId hash ↔ s.HeldElsewhere wingId hash := by
    intro hash
    constructor
    · rintro ⟨m, hm, hh, hw⟩
      exact ⟨m, ((h.mem_members m).1 hm).1, hh, hw⟩
    · rintro ⟨m, hm, hh, hw⟩
      exact ⟨m, (h.mem_members m).2 ⟨hm, fun hd => hw hd.1⟩, hh, hw⟩
  constructor
  · intro m
    show m ∈ (t.applyTombstoneTx now wingId d.targetHash).sharedWingMembers ↔ _
    rw [mem_sharedWingMembers_applyTombstoneTx, h.mem_members]
    simp only [List.map_append, List.mem_append, List.map_cons, List.map_nil, List.mem_singleton]
    tauto
  · intro r
    show r ∈ (t.applyTombstoneTx now wingId d.targetHash).memories ↔ _
    rw [mem_memories_applyTombstoneTx, h.mem_memories, hheld]
    simp only [List.map_append, List.mem_append, List.map_cons, List.map_nil, List.mem_singleton]
    constructor
    · rintro ⟨⟨hr, hpast⟩, hnow⟩
      refine ⟨hr, ?_⟩
      rintro ⟨hid | hid, hno⟩
      · exact hpast ⟨hid, hno⟩
      · exact hnow ⟨hid, hid ▸ hno⟩
    · rintro ⟨hr, hno⟩
      refine ⟨⟨hr, fun ⟨hid, hh⟩ => hno ⟨Or.inl hid, hh⟩⟩, ?_⟩
      rintro ⟨hid, hh⟩
      exact hno ⟨Or.inr hid, hid ▸ hh⟩
  · intro w hash
    show ((t.applyTombstoneTx now wingId d.targetHash).attest wingId d).IsTombstoned w hash ↔ _
    rw [isTombstoned_attest, isTombstoned_applyTombstoneTx, h.isTombstoned]
    simp only [List.map_append, List.mem_append, List.map_cons, List.map_nil, List.mem_singleton]
    tauto

theorem retractSpec_foldl (now wingId : String) (s : Store) (ds : List Tombstone) :
    RetractSpec wingId s ds (ds.foldl (importTombstone now wingId) s) :=
  @run_history _ _ (importTombstone now wingId) (RetractSpec wingId s) _ _
    (fun _ _ d h => retractSpec_importTombstone h d)
    ⟨by simp, by simp, by simp⟩

end Store

/-! ## The whole import -/

namespace Env

/-- The manifest row by which an incoming object is listed in the wing of the pack: the one
that is there, or a new one. -/
def entry (env : Env) (s : Store) (wingId : String) (o : MemoryObject) : ManifestRow :=
  (s.sharedWingMembers.find? fun m => m.pk = (wingId, env.objectHash o)).getD (env.member s wingId o)

variable {env : Env} {policy : ImportPolicy} {pack : Pack} {now : String} {s : Store}
  {o : MemoryObject}

/-- The manifest after an import. -/
theorem mem_sharedWingMembers_import {m : ManifestRow} :
    m ∈ (env.importPackWithPolicy now s pack policy).1.sharedWingMembers ↔
      (m ∈ s.sharedWingMembers ∧
        ¬ (m.wingId = pack.wingId ∧ m.objectHash ∈ env.packRetracted policy pack)) ∨
      ∃ o ∈ env.incoming policy pack s pack.objects,
        m = env.member s pack.wingId o ∧ ¬ s.sharedWingMembers.Clashes m := by
  unfold importPackWithPolicy
  dsimp only
  rw [(Store.retractSpec_foldl now pack.wingId _ _).mem_members,
    (loopSpec_foldl env policy pack now s _).mem_members]
  show _ ∧ ¬ (_ ∧ m.objectHash ∈ env.packRetracted policy pack) ↔ _
  constructor
  · rintro ⟨hm | hm, hret⟩
    · exact Or.inl ⟨hm, hret⟩
    · exact Or.inr hm
  · rintro (⟨hm, hret⟩ | ⟨o, ho, rfl, hc⟩)
    · exact ⟨Or.inl hm, hret⟩
    · -- an object the pack retracts is not taken in
      exact ⟨Or.inr ⟨o, ho, rfl, hc⟩, fun hret => (mem_incoming ho).2.2.1 hret.2⟩

/-- The memories after an import. -/
theorem mem_memories_import {r : MemoryRow} :
    r ∈ (env.importPackWithPolicy now s pack policy).1.memories ↔
      (r ∈ s.memories ∧
        ¬ (r.id ∈ env.packRetracted policy pack ∧ ¬ s.HeldElsewhere pack.wingId r.id)) ∨
      ∃ o, s.memoryByKey r.key = none ∧
        env.arrival policy pack s pack.objects r.key = some o ∧ r = env.importedRow now o := by
  unfold importPackWithPolicy
  dsimp only
  have hloop := loopSpec_foldl env policy pack now s
    { rejectedTombstones := pack.tombstones.length - (env.admittedTombstones policy pack).length }
  rw [(Store.retractSpec_foldl now pack.wingId _ _).mem_memories, hloop.mem_memories,
    hloop.heldElsewhere]
  show _ ∧ ¬ (r.id ∈ env.packRetracted policy pack ∧ _) ↔ _
  constructor
  · rintro ⟨hr | hr, hret⟩
    · exact Or.inl ⟨hr, hret⟩
    · exact Or.inr hr
  · rintro (⟨hr, hret⟩ | ⟨o, hk, ho, rfl⟩)
    · exact ⟨Or.inl hr, hret⟩
    · -- the id of an arrival is its hash, which the pack does not retract
      have hadm := (mem_incoming (arrival_eq_some ho).1).2
      exact ⟨Or.inr ⟨o, hk, ho, rfl⟩, fun hret => hadm.2.1 hret.1⟩

theorem isTombstoned_import {w h : String} :
    (env.importPackWithPolicy now s pack policy).1.IsTombstoned w h ↔
      s.IsTombstoned w h ∨ (w = pack.wingId ∧ h ∈ env.packRetracted policy pack) := by
  unfold importPackWithPolicy
  dsimp only
  rw [(Store.retractSpec_foldl now pack.wingId _ _).isTombstoned]
  unfold Store.IsTombstoned
  rw [(loopSpec_foldl env policy pack now s _).syncTombstones]
  rfl

@[simp] theorem pk_entry (env : Env) (s : Store) (wingId : String) (o : MemoryObject) :
    (env.entry s wingId o).pk = (wingId, env.objectHash o) := by
  unfold entry
  cases hfind : s.sharedWingMembers.find? fun m => m.pk = (wingId, env.objectHash o) with
  | none => rfl
  | some m => exact of_decide_eq_true (Table.mem_of_find?_eq_some hfind).2

/-- After an import every incoming object is listed by its entry. -/
theorem entry_mem_import (ho : o ∈ env.incoming policy pack s pack.objects) :
    env.entry s pack.wingId o ∈
      (env.importPackWithPolicy now s pack policy).1.sharedWingMembers := by
  rw [mem_sharedWingMembers_import]
  unfold entry
  cases hfind : s.sharedWingMembers.find? fun m => m.pk = (pack.wingId, env.objectHash o) with
  | some m =>
    obtain ⟨hm, hp⟩ := Table.mem_of_find?_eq_some hfind
    have hhash : m.objectHash = env.objectHash o := congrArg Prod.snd (of_decide_eq_true hp)
    refine Or.inl ⟨hm, ?_⟩
    rintro ⟨-, hret⟩
    exact (mem_incoming ho).2.2.1 (hhash ▸ hret)
  | none =>
    refine Or.inr ⟨o, ho, rfl, ?_⟩
    rintro ⟨m, hm, hpk⟩
    exact Table.find?_eq_none.1 hfind m hm (decide_eq_true hpk)

/-- After an import every admitted object is listed in the wing. -/
theorem exists_listed_import (ho : o ∈ pack.objects) (hadm : env.Admitted policy pack s o) :
    ∃ m ∈ (env.importPackWithPolicy now s pack policy).1.sharedWingMembers,
      m.wingId = pack.wingId ∧ m.objectHash = env.objectHash o := by
  obtain ⟨o', ho', hh⟩ := exists_mem_incoming ho hadm
  have hpk := pk_entry env s pack.wingId o'
  exact ⟨_, entry_mem_import ho', congrArg Prod.fst hpk, (congrArg Prod.snd hpk).trans hh⟩

end Env

end Spectral
