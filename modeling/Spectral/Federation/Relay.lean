import Spectral.Federation.Runs

/-!
# Relay

An attestation that a store has admitted is stored, and a third store that imports what the
first one exports checks it again.  For an object the signed payload is its hash and the
signature sits in the manifest row; for a retraction it is the wing, the target and the time
stamp, and the signature and the author are stored by an `UPDATE` after an insert that takes
the time stamp from the clock.

* `hadRejections_eq_false_iff` — what it means that an import turned nothing away.
* `AttestedBy` — the invariant: whatever a wing would ship of a pack carries an attestation
  the policy accepts.  `attestedBy_import` establishes it and `attestedBy_apply` keeps it.
* `relay_attested` — the result, for the runs that keep to `KeepsAttested` after an import
  that meets `RelaysPack`.

The second condition on the import, that the stored time stamp is the signed one, fails
whenever the clocks differ (`not_relayed_retraction`).
-/

namespace Spectral

open Spectral.Lib

/-! ## What an import turned away -/

/-- `had_rejections`. -/
def ImportOutcome.hadRejections (o : ImportOutcome) : Bool :=
  decide (0 < o.rejectedObjects) || decide (0 < o.rejectedTombstones)

namespace Env

variable {env : Env} {policy : ImportPolicy} {pack : Pack} {now : String} {s : Store}

/-- One turn of the loop counts an object that the policy does not accept. -/
theorem outcome_importObject (env : Env) (policy : ImportPolicy) (wingId : String)
    (retracted : List String) (now : String) (acc : Store × ImportOutcome) (x : MemoryObject) :
    (env.importObject policy wingId retracted now acc x).2.rejectedObjects =
        acc.2.rejectedObjects +
          (if env.acceptsObject policy x (env.objectHash x) = false then 1 else 0) ∧
      (env.importObject policy wingId retracted now acc x).2.rejectedTombstones =
        acc.2.rejectedTombstones := by
  unfold importObject
  dsimp only
  split
  · exact ⟨rfl, rfl⟩
  · split
    · exact ⟨rfl, rfl⟩
    · split <;> exact ⟨rfl, rfl⟩

theorem outcome_foldl (env : Env) (policy : ImportPolicy) (wingId : String)
    (retracted : List String) (now : String) (acc : Store × ImportOutcome)
    (xs : List MemoryObject) :
    (xs.foldl (env.importObject policy wingId retracted now) acc).2.rejectedObjects =
        acc.2.rejectedObjects +
          xs.countP (fun x => env.acceptsObject policy x (env.objectHash x) = false) ∧
      (xs.foldl (env.importObject policy wingId retracted now) acc).2.rejectedTombstones =
        acc.2.rejectedTombstones := by
  induction xs generalizing acc with
  | nil => exact ⟨rfl, rfl⟩
  | cons x xs ih =>
    obtain ⟨hobj, htomb⟩ := ih (env.importObject policy wingId retracted now acc x)
    obtain ⟨hobj', htomb'⟩ := outcome_importObject env policy wingId retracted now acc x
    rw [List.foldl_cons, hobj, htomb, hobj', htomb', List.countP_cons]
    constructor
    · simp only [decide_eq_true_eq]
      omega
    · rfl

/-- **Rejections.**  An import reports the objects and the retractions that the policy does
not accept, and no others. -/
theorem rejected_import (env : Env) (now : String) (s : Store) (pack : Pack)
    (policy : ImportPolicy) :
    (env.importPackWithPolicy now s pack policy).2.rejectedObjects =
        pack.objects.countP (fun x => env.acceptsObject policy x (env.objectHash x) = false) ∧
      (env.importPackWithPolicy now s pack policy).2.rejectedTombstones =
        pack.tombstones.length - (env.admittedTombstones policy pack).length := by
  obtain ⟨hobj, htomb⟩ := outcome_foldl env policy pack.wingId (env.packRetracted policy pack) now
    (s, { rejectedTombstones := pack.tombstones.length - (env.admittedTombstones policy pack).length })
    pack.objects
  refine ⟨?_, htomb⟩
  rw [importPackWithPolicy, hobj]
  exact Nat.zero_add _

/-- Nothing was turned away exactly when every object and every retraction is accepted. -/
theorem hadRejections_eq_false_iff :
    (env.importPackWithPolicy now s pack policy).2.hadRejections = false ↔
      (∀ o ∈ pack.objects, env.acceptsObject policy o (env.objectHash o) = true) ∧
        ∀ t ∈ pack.tombstones, env.acceptsTombstone policy pack.wingId t = true := by
  obtain ⟨hobj, htomb⟩ := rejected_import env now s pack policy
  unfold ImportOutcome.hadRejections
  rw [hobj, htomb, Bool.or_eq_false_iff, decide_eq_false_iff_not, decide_eq_false_iff_not,
    List.countP_pos_iff]
  refine and_congr (by simp) ?_
  unfold admittedTombstones
  have hle := List.length_filter_le (env.acceptsTombstone policy pack.wingId) pack.tombstones
  rw [← List.length_filter_eq_length_iff]
  omega

end Env

/-! ## The stored retractions -/

/-- The last retraction of a hash in a list. -/
def lastRetraction (ds : List Tombstone) (hash : String) : Option Tombstone :=
  ds.reverse.find? fun d => d.targetHash = hash

theorem lastRetraction_concat (ds : List Tombstone) (d : Tombstone) (hash : String) :
    lastRetraction (ds ++ [d]) hash =
      if d.targetHash = hash then some d else lastRetraction ds hash := by
  unfold lastRetraction
  rw [List.reverse_append, List.reverse_singleton, List.singleton_append, List.find?_cons]
  by_cases h : d.targetHash = hash <;> simp [h]

namespace Store

/-- The time stamp a retraction made now is stored with: the one that is there, or the
reading of the clock. -/
def tombstoneTs (s : Store) (wingId hash now : String) : String :=
  ((s.syncTombstones.find? fun t => t.pk = (wingId, hash)).map TombstoneRow.ts).getD now

variable {s t : Store} {wingId hash now : String}

theorem tombstoneTs_of_mem {x : TombstoneRow} (hx : x ∈ s.syncTombstones) :
    s.tombstoneTs x.wingId x.targetHash now = x.ts := by
  have hfind : s.syncTombstones.find? (fun t => t.pk = (x.wingId, x.targetHash)) = some x :=
    Table.find?_eq_some_of_unique hx (decide_eq_true rfl)
      fun b hb hpk => Table.eq_of_clash hb hx (of_decide_eq_true hpk)
  rw [tombstoneTs, hfind]
  rfl

theorem tombstoneTs_of_not_isTombstoned (h : ¬ s.IsTombstoned wingId hash) :
    s.tombstoneTs wingId hash now = now := by
  unfold tombstoneTs
  rw [Table.find?_eq_none.2 fun x hx hpk => h ⟨x, hx, congrArg Prod.fst (of_decide_eq_true hpk),
    congrArg Prod.snd (of_decide_eq_true hpk)⟩]
  rfl

/-- A stored tombstone after the retractions `ds` of a pack for `wingId`: one that was there
and is not among them, or one with the stored time stamp and the attestation of the last. -/
def Retained (now wingId : String) (s : Store) (ds : List Tombstone) (x : TombstoneRow) : Prop :=
  (x ∈ s.syncTombstones ∧ ¬ (x.wingId = wingId ∧ x.targetHash ∈ ds.map Tombstone.targetHash)) ∨
    (x.wingId = wingId ∧ x.ts = s.tombstoneTs wingId x.targetHash now ∧
      ∃ d, lastRetraction ds x.targetHash = some d ∧ x.authorId = d.authorId ∧ x.sig = d.signature)

theorem retained_importTombstone {ds : List Tombstone} {u : Store}
    (hspec : RetractSpec wingId s ds u) (hrows : ∀ x ∈ u.syncTombstones, s.Retained now wingId ds x)
    (d : Tombstone) :
    ∀ x ∈ (u.importTombstone now wingId d).syncTombstones, s.Retained now wingId (ds ++ [d]) x := by
  intro x hx
  obtain ⟨y, hy, rfl⟩ := mem_syncTombstones_attest.1 hx
  unfold Retained
  by_cases hmatch : y.wingId = wingId ∧ y.targetHash = d.targetHash
  · -- the row of this retraction: its time stamp is the one in `s`, or the clock's
    rw [if_pos hmatch]
    refine Or.inr ⟨hmatch.1, ?_, d, ?_, rfl, rfl⟩
    · show y.ts = s.tombstoneTs wingId y.targetHash now
      rcases Table.mem_insertOrIgnore.1 hy with hy | ⟨rfl, hfresh⟩
      · rcases hrows y hy with ⟨hys, -⟩ | ⟨-, hts, -⟩
        · rw [← hmatch.1, tombstoneTs_of_mem hys]
        · exact hts
      · refine (tombstoneTs_of_not_isTombstoned fun hs => hfresh ?_).symm
        obtain ⟨z, hz, hzw, hzh⟩ := (hspec.isTombstoned _ _).2 (Or.inl hs)
        exact ⟨z, hz, Prod.ext hzw hzh⟩
    · rw [lastRetraction_concat]
      exact if_pos hmatch.2.symm
  · rw [if_neg hmatch]
    have hy : y ∈ u.syncTombstones := by
      rcases Table.mem_insertOrIgnore.1 hy with hy | ⟨rfl, -⟩
      · exact hy
      · exact absurd ⟨rfl, rfl⟩ hmatch
    rcases hrows y hy with ⟨hys, hnot⟩ | ⟨hw, hts, e, he, hauthor, hsig⟩
    · refine Or.inl ⟨hys, ?_⟩
      rw [List.map_append, List.mem_append, List.map_singleton, List.mem_singleton]
      rintro ⟨hw, hin | heq⟩
      · exact hnot ⟨hw, hin⟩
      · exact hmatch ⟨hw, heq⟩
    · refine Or.inr ⟨hw, hts, e, ?_, hauthor, hsig⟩
      rw [lastRetraction_concat, if_neg fun heq => hmatch ⟨hw, heq.symm⟩, he]

theorem retained_foldl (now wingId : String) (s : Store) (ds : List Tombstone) :
    ∀ x ∈ (ds.foldl (importTombstone now wingId) s).syncTombstones, s.Retained now wingId ds x := by
  have hboth := @run_history _ _ (importTombstone now wingId)
    (fun ds u => RetractSpec wingId s ds u ∧ ∀ x ∈ u.syncTombstones, s.Retained now wingId ds x) s ds
    (fun past u d h => ⟨retractSpec_importTombstone h.1 d, retained_importTombstone h.1 h.2 d⟩)
    ⟨⟨by simp, by simp, by simp⟩, fun x hx => Or.inl ⟨hx, by simp⟩⟩
  exact hboth.2

end Store

/-! ## The invariant -/

namespace Env

/-- What a store and its clock must be like when a pack is imported: an object of the pack
that the wing lists already is listed with an accepted signature, and every retraction is
stored with the time stamp that was signed last. -/
structure RelaysPack (env : Env) (policy : ImportPolicy) (now : String) (s : Store) (pack : Pack) :
    Prop where
  signatures : ∀ m ∈ s.sharedWingMembers.rows, m.wingId = pack.wingId → ∀ o ∈ pack.objects,
    env.objectHash o = m.objectHash → env.Admitted policy pack s o →
      env.acceptsObject policy { o with signature := m.sig } m.objectHash = true
  timestamps : ∀ t ∈ pack.tombstones, ∀ d ∈ lastRetraction pack.tombstones t.targetHash,
    d.ts = s.tombstoneTs pack.wingId t.targetHash now

/-- What a later call must leave alone: an import that brings one of the retractions again
brings it with an accepted attestation of the stored time stamp. -/
def KeepsAttested (env : Env) (policy : ImportPolicy) (pack : Pack) (s : Store) (c : Call) : Prop :=
  match c.op with
  | .importPack p policy' => p.wingId = pack.wingId → ∀ t ∈ pack.tombstones,
      ∀ d ∈ lastRetraction (env.admittedTombstones policy' p) t.targetHash,
        env.acceptsTombstone policy pack.wingId d = true ∧
          d.ts = s.tombstoneTs pack.wingId t.targetHash c.now
  | _ => True

instance (env : Env) (policy : ImportPolicy) (pack : Pack) (s : Store) (c : Call) :
    Decidable (env.KeepsAttested policy pack s c) :=
  match c with
  | ⟨.importPack p policy', _⟩ => inferInstanceAs (Decidable (_ → ∀ t ∈ pack.tombstones,
      ∀ d ∈ lastRetraction (env.admittedTombstones policy' p) t.targetHash, _ ∧ _))
  | ⟨.write _ _, _⟩ | ⟨.setSignature _ _ _, _⟩ | ⟨.forget _, _⟩ | ⟨.share _ _, _⟩
  | ⟨.tombstone _ _, _⟩ => isTrue trivial

/-- Whatever the wing would ship of a pack carries an attestation the policy accepts. -/
structure AttestedBy (env : Env) (policy : ImportPolicy) (pack : Pack) (s : Store) : Prop where
  signed : ∀ m ∈ s.sharedWingMembers, m.wingId = pack.wingId → m.Live s → ∀ o ∈ pack.objects,
    env.objectHash o = m.objectHash →
      env.acceptsObject policy { o with signature := m.sig } m.objectHash = true
  /-- The objects of the pack are listed or retracted, so no call can list them anew. -/
  listed : ∀ o ∈ pack.objects, (∃ m ∈ s.sharedWingMembers, m.wingId = pack.wingId ∧
    m.objectHash = env.objectHash o) ∨ s.IsTombstoned pack.wingId (env.objectHash o)
  retracted : ∀ t ∈ pack.tombstones, s.IsTombstoned pack.wingId t.targetHash
  attested : ∀ x ∈ s.syncTombstones, x.wingId = pack.wingId →
    x.targetHash ∈ pack.tombstones.map Tombstone.targetHash →
      env.acceptsTombstone policy pack.wingId x.wire = true

variable {env : Env} {policy : ImportPolicy} {pack : Pack} {now : String} {s : Store} {c : Call}

/-- Acceptance of an object depends on its author and signature only. -/
theorem acceptsObject_congr (env : Env) (policy : ImportPolicy) {a b : MemoryObject}
    (hauthor : a.authorId = b.authorId) (hsig : a.signature = b.signature) (hash : String) :
    env.acceptsObject policy a hash = env.acceptsObject policy b hash := by
  cases policy with
  | trustedTransport => rfl
  | requireSigned keys =>
    show env.attested keys a.authorId a.signature _ = env.attested keys b.authorId b.signature _
    rw [hauthor, hsig]

/-- A stored retraction with the attestation and the time stamp of an accepted one is
accepted. -/
theorem acceptsTombstone_wire {x : TombstoneRow} {d : Tombstone} {w : String}
    (h : env.acceptsTombstone policy w d = true) (htarget : d.targetHash = x.targetHash)
    (hts : x.ts = d.ts) (hauthor : x.authorId = d.authorId) (hsig : x.sig = d.signature) :
    env.acceptsTombstone policy w x.wire = true := by
  have hwire : x.wire = d := by
    unfold TombstoneRow.wire
    rw [← htarget, hts, hauthor, hsig]
  rwa [hwire]

theorem retained_import {x : TombstoneRow}
    (hx : x ∈ (env.importPackWithPolicy now s pack policy).1.syncTombstones) :
    s.Retained now pack.wingId (env.admittedTombstones policy pack) x := by
  have hloop := loopSpec_foldl env policy pack now s
    { rejectedTombstones := pack.tombstones.length - (env.admittedTombstones policy pack).length }
  have hret := Store.retained_foldl now pack.wingId _ (env.admittedTombstones policy pack) x hx
  unfold Store.Retained Store.tombstoneTs at hret ⊢
  rwa [hloop.syncTombstones] at hret

theorem mem_of_mem_lastRetraction {ds : List Tombstone} {d : Tombstone} {hash : String}
    (h : d ∈ lastRetraction ds hash) : d ∈ ds ∧ d.targetHash = hash := by
  unfold lastRetraction at h
  refine ⟨List.mem_reverse.1 (List.mem_of_find?_eq_some h), ?_⟩
  simpa using List.find?_some h

/-- **The import.**  A pack that is admitted in full, into a store that relays it, is
attested. -/
theorem attestedBy_import
    (hadm : (env.importPackWithPolicy now s pack policy).2.hadRejections = false)
    (hcf : CollisionFree env pack.objects) (hrelay : env.RelaysPack policy now s pack) :
    env.AttestedBy policy pack (env.importPackWithPolicy now s pack policy).1 := by
  obtain ⟨hobjs, htombs⟩ := hadRejections_eq_false_iff.1 hadm
  have hall : env.admittedTombstones policy pack = pack.tombstones :=
    List.filter_eq_self.2 htombs
  have hret : env.packRetracted policy pack = pack.tombstones.map Tombstone.targetHash := by
    unfold packRetracted
    rw [hall]
  constructor
  · intro m hm hw hlive o ho hh
    rcases mem_sharedWingMembers_import.1 hm with ⟨hm, -⟩ | ⟨o', ho', rfl, -⟩
    · refine hrelay.signatures m hm hw o ho hh ⟨hobjs o ho, fun hr => ?_, fun ht => ?_⟩
      · exact hlive (isTombstoned_import.2 (Or.inr ⟨hw, hh ▸ hr⟩))
      · exact hlive (isTombstoned_import.2 (Or.inl (hw ▸ hh ▸ ht)))
    · have hop := (mem_incoming ho').1
      have hsame := hcf o ho o' hop hh
      have hauthor : ({ o with signature := o'.signature } : MemoryObject).authorId = o'.authorId :=
        hsame.authorId
      exact (acceptsObject_congr env policy hauthor rfl _).trans (hobjs o' hop)
  · intro o ho
    by_cases hadm : env.Admitted policy pack s o
    · exact Or.inl (exists_listed_import ho hadm)
    · -- the policy accepts the object, so it is a tombstone that keeps it out
      refine Or.inr (isTombstoned_import.2 ?_)
      by_contra hno
      rw [not_or] at hno
      exact hadm ⟨hobjs o ho, fun hr => hno.2 ⟨rfl, hr⟩, hno.1⟩
  · intro t ht
    refine isTombstoned_import.2 (Or.inr ⟨rfl, ?_⟩)
    rw [hret]
    exact List.mem_map_of_mem ht
  · intro x hx hw htarget
    rcases retained_import hx with ⟨-, hnot⟩ | ⟨-, hts, d, hd, hauthor, hsig⟩
    · rw [hall] at hnot
      exact absurd ⟨hw, htarget⟩ hnot
    · rw [hall] at hd
      obtain ⟨hmem, hdt⟩ := mem_of_mem_lastRetraction hd
      obtain ⟨t, ht, htx⟩ := List.mem_map.1 htarget
      have hdts := hrelay.timestamps t ht d (by rw [htx]; exact hd)
      rw [htx] at hdts
      exact acceptsTombstone_wire (htombs d hmem) hdt (hts.trans hdts.symm) hauthor hsig

/-- Calls other than imports keep the stored retractions; a new one is of a hash that was not
retracted. -/
theorem mem_syncTombstones_apply {x : TombstoneRow} (hx : x ∈ (env.apply s c).syncTombstones) :
    x ∈ s.syncTombstones ∨ ¬ s.IsTombstoned x.wingId x.targetHash ∨
      ∃ p policy', c.op = .importPack p policy' ∧
        s.Retained c.now p.wingId (env.admittedTombstones policy' p) x := by
  obtain ⟨op, now⟩ := c
  cases op with
  | write memory fps =>
    rcases write_eq_or_written env now s memory fps with h | h
    · exact Or.inl (h ▸ hx)
    · exact Or.inl (h.syncTombstones ▸ hx)
  | setSignature id brain sig => exact Or.inl hx
  | forget key =>
    have hsame : (s.deleteMemoryByKey now key).1.syncTombstones = s.syncTombstones :=
      Store.syncTombstones_deleteMemoryByKey
    exact Or.inl (hsame ▸ hx)
  | share memKey wingId =>
    change x ∈ (env.shared s memKey wingId).syncTombstones at hx
    rcases shared_cases env s memKey wingId with ⟨-, h⟩ | ⟨o, -, h⟩
    · exact Or.inl (h ▸ hx)
    · rw [h] at hx
      exact Or.inl hx
  | importPack p policy' => exact Or.inr (Or.inr ⟨p, policy', rfl, retained_import hx⟩)
  | tombstone w target =>
    rcases Table.mem_insertOrIgnore.1 hx with hx | ⟨rfl, hfresh⟩
    · exact Or.inl hx
    · refine Or.inr (Or.inl ?_)
      rintro ⟨y, hy, hw, hh⟩
      exact hfresh ⟨y, hy, Prod.ext hw hh⟩

/-- **One later call.** -/
theorem attestedBy_apply (s : Store) (c : Call) (h : env.AttestedBy policy pack s)
    (hok : env.KeepsAttested policy pack s c) : env.AttestedBy policy pack (env.apply s c) := by
  constructor
  · intro m hm hw hlive o ho hh
    rcases mem_sharedWingMembers_apply hm with hm | ⟨hfresh, -⟩
    · exact h.signed m hm hw (fun ht => hlive (isTombstoned_apply ht)) o ho hh
    · -- the wing lists the object already, or has retracted it
      exfalso
      rcases h.listed o ho with ⟨m', hm', hw', hh'⟩ | ht
      · exact hfresh ⟨m', hm', Prod.ext (hw'.trans hw.symm) (hh'.trans hh)⟩
      · rw [← hw, hh] at ht
        exact hlive (isTombstoned_apply ht)
  · intro o ho
    rcases h.listed o ho with ⟨m, hm, hw, hh⟩ | ht
    · rcases mem_or_isTombstoned_apply (c := c) hm with hm | ht
      · exact Or.inl ⟨m, hm, hw, hh⟩
      · exact Or.inr (hw ▸ hh ▸ ht)
    · exact Or.inr (isTombstoned_apply ht)
  · intro t ht
    exact isTombstoned_apply (h.retracted t ht)
  · intro x hx hw htarget
    obtain ⟨t, ht, htx⟩ := List.mem_map.1 htarget
    rcases mem_syncTombstones_apply hx with hx | hnew | ⟨p, policy', hop, hret⟩
    · exact h.attested x hx hw htarget
    · refine absurd ?_ hnew
      rw [hw, ← htx]
      exact h.retracted t ht
    · rcases hret with ⟨hx, -⟩ | ⟨hpw, hts, d, hd, hauthor, hsig⟩
      · exact h.attested x hx hw htarget
      · have hsame : p.wingId = pack.wingId := hpw.symm.trans hw
        unfold KeepsAttested at hok
        rw [hop] at hok
        obtain ⟨hacc, hdts⟩ := hok hsame t ht d (by rw [htx]; exact hd)
        rw [← hsame, htx] at hdts
        exact acceptsTombstone_wire hacc (mem_of_mem_lastRetraction hd).2 (hts.trans hdts.symm)
          hauthor hsig

/-- **Relay.**  A pack that a store admits in full is shipped on with its attestations: the
policy accepts every object and every retraction of the pack in whatever the store exports
for the wing later.  The import has to find the store as `RelaysPack` says, and the later
calls have to keep to `KeepsAttested`. -/
theorem relay_attested (env : Env) (keys : Bytes32 → Option VerifyingKey) (s : Store)
    (now : String) (pack : Pack) (later : List Call)
    (hadm : (env.importPackWithPolicy now s pack (.requireSigned keys)).2.hadRejections = false)
    (hrelay : env.RelaysPack (.requireSigned keys) now s pack)
    (hlater : AllSteps env.apply (env.KeepsAttested (.requireSigned keys) pack)
      (env.importPackWithPolicy now s pack (.requireSigned keys)).1 later)
    (hcf : CollisionFree env (pack.objects ++ env.shipped
      (run env.apply (env.importPackWithPolicy now s pack (.requireSigned keys)).1 later))) :
    let relayed := env.exportPack
      (run env.apply (env.importPackWithPolicy now s pack (.requireSigned keys)).1 later) pack.wingId
    (∀ o ∈ relayed.objects, env.objectHash o ∈ pack.objects.map env.objectHash →
      env.acceptsObject (.requireSigned keys) o (env.objectHash o) = true) ∧
    (∀ t ∈ relayed.tombstones, t.targetHash ∈ pack.tombstones.map Tombstone.targetHash →
      env.acceptsTombstone (.requireSigned keys) pack.wingId t = true) := by
  have hcf' : CollisionFree env pack.objects :=
    fun a ha b hb => hcf a (List.mem_append_left _ ha) b (List.mem_append_left _ hb)
  have hinv := run_invariant_of_allSteps attestedBy_apply
    (attestedBy_import hadm hcf' hrelay) hlater
  constructor
  · intro o' ho' hin
    obtain ⟨o, ho, hh⟩ := List.mem_map.1 hin
    have hship := mem_shipped ho'
    obtain ⟨m, hm, r, -, hw, hlive, -, hre, rfl⟩ := mem_objects_exportPack.1 ho'
    have hoh : env.objectHash o = m.objectHash := hh.trans hre
    have hsame := hcf o (List.mem_append_left _ ho) _ (List.mem_append_right _ hship) hh
    have hsigned := hinv.signed m hm hw (by unfold ManifestRow.Live; rwa [hw]) o ho hoh
    have hre' : env.objectHash (m.rebuild r) = m.objectHash := hre
    have hauthor : (m.rebuild r).authorId = ({ o with signature := m.sig } : MemoryObject).authorId :=
      hsame.authorId.symm
    rw [hre']
    exact (acceptsObject_congr env _ hauthor rfl _).trans hsigned
  · intro t ht hin
    obtain ⟨x, hx, rfl⟩ := List.mem_map.1 ht
    obtain ⟨hx, hw⟩ := List.mem_filter.1 hx
    exact hinv.attested x hx (of_decide_eq_true hw) hin

end Env

/-! ## A signed pack -/

/-- The key of the author of the note. -/
def authorKey : VerifyingKey :=
  ⟨Env.bytesOf 32 0x03a107bff3ce10be1d70dd18e74bc09967e4d6309ba50d5f1ddc8664125531b8⟩

/-- The name of the author: the digest of the key. -/
def author : Bytes32 :=
  Env.bytesOf 32 0x98ba85304ac639f0f55daab01ad6d592be44a125d9b3b65e1efca5b96960baec

/-- The signature of the note. -/
def noteSig : Signature :=
  Env.bytesOf 64 (0xf7496a8849312233d6ad2d527a1dbb5ba08fb9b91432c096053fa0fd4209450a * 256 ^ 32 +
    0x5663447aac6227e1a150143e2989a044bed403215b1326e6a676d74863dcd20b)

/-- The note, signed by its author. -/
def signedNote : MemoryObject :=
  { note with authorId := some author, signature := some noteSig.toList }

/-- The address of the signed note. -/
def signedHash : ℕ := 0x73bd5666b388a80d7e21d49c2f057131f58d1d15f0a212623839f43ebd9fc8b3

/-- The address of an earlier draft, which its author retracts. -/
def draftHash : String := "385857ab4099b50b8815d636e61be9ad97fcd627b13b647b02c7c1906b6b9f33"

/-- The signature of the retraction, stamped as a store stamps it. -/
def draftSig : Signature :=
  Env.bytesOf 64 (0xa4f1e0025642140665ee39b8bb5f03847f15845bda32ef21770959ea7dbc9fb5 * 256 ^ 32 +
    0x929418fead7d7c013e7d7625d54990658e04bc8da2dfb0894597ac64caf5310c)

/-- The signature of the retraction, stamped in the author's own format. -/
def draftSig' : Signature :=
  Env.bytesOf 64 (0xa37bd6e7c1960b7315a5c0e5020534a2c0f0422415fd450fdb7bf8e988330911 * 256 ^ 32 +
    0x42f2f79feccdf5d7b2a66f352afbd7368b79d894c4d70c52f96a675afe7d8d08)

/-- The retraction of the draft with a time stamp and its signature. -/
def retraction (ts : String) (sig : Signature) : Tombstone :=
  { targetHash := draftHash, authorId := some author, ts, signature := some sig.toList }

/-- The digests and the signatures that occur. -/
def relayEnv : Env := .ofRecords
  [(utf8 note.content, 0x057df659c1e192df60dbeac39dec966fdceaa8f5e06f90581adb07ff8ec84bd1),
    (authorKey.bytes.toList, 0x98ba85304ac639f0f55daab01ad6d592be44a125d9b3b65e1efca5b96960baec),
    (objectPreimage signedNote, signedHash)]
  [(authorKey, federationObjectSigningPayload (toHex (Env.bytesOf 32 signedHash).toList), noteSig),
    (authorKey, federationTombstoneSigningPayload "team" draftHash "2026-01-02 10:00:00", draftSig),
    (authorKey, federationTombstoneSigningPayload "team" draftHash "2026/01/02 (Fri) 10:00", draftSig')]

/-- The keyring of the peers. -/
def keyring (brainId : Bytes32) : Option VerifyingKey :=
  if brainId = author then some authorKey else none

/-- The note and the retraction of the draft. -/
def signedPack (ts : String) (sig : Signature) : Pack :=
  { wingId := "team", objects := [signedNote], tombstones := [retraction ts sig] }

/-- The pack arrives in the second its retraction was signed in, and once more later. -/
theorem relay_attested_note :
    let pack := signedPack "2026-01-02 10:00:00" draftSig
    let relayed := relayEnv.exportPack (run relayEnv.apply
      (relayEnv.importPackWithPolicy "2026-01-02 10:00:00" {} pack (.requireSigned keyring)).1
      [⟨.importPack pack (.requireSigned keyring), "2026-01-03 10:00:00"⟩]) "team"
    relayed.objects = [signedNote] ∧
      (∀ o ∈ relayed.objects, relayEnv.objectHash o ∈ pack.objects.map relayEnv.objectHash →
        relayEnv.acceptsObject (.requireSigned keyring) o (relayEnv.objectHash o) = true) ∧
      (∀ t ∈ relayed.tombstones, t.targetHash ∈ pack.tombstones.map Tombstone.targetHash →
        relayEnv.acceptsTombstone (.requireSigned keyring) "team" t = true) := by
  refine ⟨by decide +kernel, Env.relay_attested relayEnv keyring {} "2026-01-02 10:00:00"
    (signedPack "2026-01-02 10:00:00" draftSig) _ (by decide +kernel) ⟨?_, ?_⟩ (by decide +kernel)
    (by decide +kernel)⟩
  · intro m hm
    exact absurd hm List.not_mem_nil
  · decide +kernel

/-- The retraction carries the author's own time stamp.  The store admits it, stamps it with
its own clock, and ships a signature over a time stamp it no longer has. -/
theorem not_relayed_retraction :
    let pack := signedPack "2026/01/02 (Fri) 10:00" draftSig'
    let relay := relayEnv.importPackWithPolicy "2026-01-02 10:00:00" {} pack (.requireSigned keyring)
    let relayed := relayEnv.exportPack relay.1 "team"
    relay.2.hadRejections = false ∧
      (relayed.tombstones.map Tombstone.targetHash = [draftHash]) ∧
      (relayEnv.importPackWithPolicy "2026-01-02 10:00:00" {} relayed (.requireSigned keyring)).2 =
        { merged := 1, rejectedTombstones := 1 } := by
  decide +kernel

end Spectral
