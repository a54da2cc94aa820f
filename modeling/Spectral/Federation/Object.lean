import Spectral.Core.Identity

/-!
# Wire objects, content addresses and trust policies

`MemoryObject`, `Tombstone` and `Pack` are what two brains exchange.  An object is named
by the digest of its source fields (`objectHash`); the signature rides along and is not
part of the name.

* `sameSource_of_objectPreimage_eq` — the serialization that is hashed is unambiguous: it
  determines the source fields, an absent `supersedes` and an empty one being the same.
* `CollisionFree` — among the objects of a list the content address determines the source
  fields.  `collisionFree_of_injOn` derives it from the digest being injective on what is
  hashed.
* `PrefixFree` — the same for the 16 digits that go into a local key;
  `sameSource_of_localKey_eq` is what it gives.
-/

namespace Spectral

open Spectral.Lib

/-- `MemoryObject`: the source fields of a memory, and the proof of authorship. -/
structure MemoryObject where
  key : String
  content : String
  authorId : Option Bytes32 := none
  createdAt : String
  visibility : String
  supersedes : Option String := none
  signature : Option (List UInt8) := none
  deriving DecidableEq

/-- `Tombstone`: a retraction, and the proof of authorship. -/
structure Tombstone where
  targetHash : String
  authorId : Option Bytes32 := none
  ts : String
  signature : Option (List UInt8) := none
  deriving DecidableEq

/-- `Pack`: what is shipped for one shared wing. -/
structure Pack where
  wingId : String
  objects : List MemoryObject := []
  tombstones : List Tombstone := []
  deriving DecidableEq

/-! ## Content addresses -/

/-- `OBJ_DOMAIN`. -/
def objDomain : List UInt8 := utf8 "spectral.federation.memobj.v1"

/-- A field of the hashed serialization: its length in eight bytes, then its bytes. -/
def field (b : List UInt8) : List UInt8 := withLength 8 b

/-- The author part of the serialization: a flag, and the author when there is one. -/
def authorField : Option Bytes32 → List UInt8
  | some a => 1 :: field a.toList
  | none => [0]

/-- The bytes that `object_hash` feeds to the digest. -/
def objectPreimage (obj : MemoryObject) : List UInt8 :=
  objDomain ++ (authorField obj.authorId ++ (field (utf8 obj.key) ++ (field (utf8 obj.createdAt) ++
    (field (utf8 obj.content) ++ (field (utf8 obj.visibility) ++
      field (utf8 (obj.supersedes.getD "")))))))

/-- `object_hash`: the content address of an object. -/
def Env.objectHash (env : Env) (obj : MemoryObject) : String := env.hashHex (objectPreimage obj)

/-- Two objects agree on their source fields.  The address cannot tell a missing
`supersedes` from an empty one, and does not cover the signature. -/
structure SameSource (a b : MemoryObject) : Prop where
  key : a.key = b.key
  content : a.content = b.content
  authorId : a.authorId = b.authorId
  createdAt : a.createdAt = b.createdAt
  visibility : a.visibility = b.visibility
  supersedes : a.supersedes.getD "" = b.supersedes.getD ""

theorem SameSource.symm {a b : MemoryObject} (h : SameSource a b) : SameSource b a where
  key := h.key.symm
  content := h.content.symm
  authorId := h.authorId.symm
  createdAt := h.createdAt.symm
  visibility := h.visibility.symm
  supersedes := h.supersedes.symm

instance (a b : MemoryObject) : Decidable (SameSource a b) :=
  decidable_of_iff (a.key = b.key ∧ a.content = b.content ∧ a.authorId = b.authorId ∧
      a.createdAt = b.createdAt ∧ a.visibility = b.visibility ∧
      a.supersedes.getD "" = b.supersedes.getD "")
    ⟨fun ⟨h₁, h₂, h₃, h₄, h₅, h₆⟩ => ⟨h₁, h₂, h₃, h₄, h₅, h₆⟩,
      fun h => ⟨h.key, h.content, h.authorId, h.createdAt, h.visibility, h.supersedes⟩⟩

/-- The address is a function of the source fields. -/
theorem objectHash_congr (env : Env) {a b : MemoryObject} (h : SameSource a b) :
    env.objectHash a = env.objectHash b := by
  unfold Env.objectHash objectPreimage
  rw [h.key, h.content, h.authorId, h.createdAt, h.visibility, h.supersedes]

/-- Every field of the object is short enough for its length prefix. -/
structure Sized (obj : MemoryObject) : Prop where
  key : (utf8 obj.key).length < 256 ^ 8
  content : (utf8 obj.content).length < 256 ^ 8
  createdAt : (utf8 obj.createdAt).length < 256 ^ 8
  visibility : (utf8 obj.visibility).length < 256 ^ 8
  supersedes : (utf8 (obj.supersedes.getD "")).length < 256 ^ 8

/-- The author part can be split off the front of the serialization. -/
theorem authorField_append_inj {x y : Option Bytes32} {r s : List UInt8}
    (h : authorField x ++ r = authorField y ++ s) : x = y ∧ r = s := by
  cases x with
  | none =>
    cases y with
    | none => exact ⟨rfl, by simpa [authorField] using h⟩
    | some b => simp [authorField] at h
  | some a =>
    cases y with
    | none => simp [authorField] at h
    | some b =>
      simp only [authorField, List.cons_append, List.cons.injEq, true_and] at h
      obtain ⟨hab, hrs⟩ := withLength_append_inj (by simp) (by simp) h
      exact ⟨congrArg some (Vector.toList_inj.1 hab), hrs⟩

/-- **The hashed serialization is unambiguous.**  Equal bytes come from equal source
fields: every field carries its own length. -/
theorem sameSource_of_objectPreimage_eq {a b : MemoryObject} (ha : Sized a) (hb : Sized b)
    (h : objectPreimage a = objectPreimage b) : SameSource a b := by
  obtain ⟨hauthor, h⟩ := authorField_append_inj (List.append_cancel_left h)
  obtain ⟨hkey, h⟩ := withLength_append_inj ha.key hb.key h
  obtain ⟨hcreated, h⟩ := withLength_append_inj ha.createdAt hb.createdAt h
  obtain ⟨hcontent, h⟩ := withLength_append_inj ha.content hb.content h
  obtain ⟨hvis, h⟩ := withLength_append_inj ha.visibility hb.visibility h
  have hsup : utf8 (a.supersedes.getD "") = utf8 (b.supersedes.getD "") := by
    rw [← List.append_nil (field (utf8 (a.supersedes.getD ""))),
      ← List.append_nil (field (utf8 (b.supersedes.getD "")))] at h
    exact (withLength_append_inj ha.supersedes hb.supersedes h).1
  exact ⟨utf8_injective hkey, utf8_injective hcontent, hauthor, utf8_injective hcreated,
    utf8_injective hvis, utf8_injective hsup⟩

/-! ## Collision freedom -/

/-- Among these objects the content address determines the source fields. -/
def CollisionFree (env : Env) (objs : List MemoryObject) : Prop :=
  ∀ a ∈ objs, ∀ b ∈ objs, env.objectHash a = env.objectHash b → SameSource a b

instance (env : Env) (objs : List MemoryObject) : Decidable (CollisionFree env objs) :=
  inferInstanceAs (Decidable (∀ a ∈ objs, ∀ b ∈ objs, _ → _))

/-- A digest without collisions on what is hashed gives addresses without collisions. -/
theorem collisionFree_of_injOn {env : Env} {objs : List MemoryObject} (hsize : ∀ a ∈ objs, Sized a)
    (hinj : ∀ a ∈ objs, ∀ b ∈ objs, env.hashHex (objectPreimage a) = env.hashHex (objectPreimage b) →
      objectPreimage a = objectPreimage b) : CollisionFree env objs := by
  intro a ha b hb hab
  exact sameSource_of_objectPreimage_eq (hsize a ha) (hsize b hb) (hinj a ha b hb hab)

/-! ## Local keys -/

/-- The first 16 characters of an address: `&oh[..16]`. -/
def hashPrefix (oh : String) : List Char := oh.toList.take 16

/-- `author_short`. -/
def authorShort : Option Bytes32 → String
  | some a => toHex (a.toList.take 4)
  | none => "anon"

/-- The key an imported object is stored under: `author::key::hash`. -/
def Env.localKey (env : Env) (obj : MemoryObject) : String :=
  authorShort obj.authorId ++ "::" ++ obj.key ++ "::" ++
    String.ofList (hashPrefix (env.objectHash obj))

/-- Among these objects the 16 digits in the local key determine the source fields. -/
def PrefixFree (env : Env) (objs : List MemoryObject) : Prop :=
  ∀ a ∈ objs, ∀ b ∈ objs,
    hashPrefix (env.objectHash a) = hashPrefix (env.objectHash b) → SameSource a b

instance (env : Env) (objs : List MemoryObject) : Decidable (PrefixFree env objs) :=
  inferInstanceAs (Decidable (∀ a ∈ objs, ∀ b ∈ objs, _ → _))

theorem PrefixFree.collisionFree {env : Env} {objs : List MemoryObject} (h : PrefixFree env objs) :
    CollisionFree env objs := fun a ha b hb hab => h a ha b hb (by rw [hab])

theorem length_hashPrefix_objectHash (env : Env) (obj : MemoryObject) :
    (hashPrefix (env.objectHash obj)).length = 16 := by
  rw [hashPrefix, List.length_take, Env.objectHash, Env.length_toList_hashHex]
  rfl

/-- A local key ends in the digits of the address. -/
theorem hashPrefix_eq_of_localKey_eq (env : Env) {a b : MemoryObject}
    (h : env.localKey a = env.localKey b) :
    hashPrefix (env.objectHash a) = hashPrefix (env.objectHash b) := by
  have hlist := congrArg String.toList h
  simp only [Env.localKey, String.toList_append, String.toList_ofList] at hlist
  have hlen := length_hashPrefix_objectHash env
  exact (List.append_inj' hlist (by rw [hlen, hlen])).2

/-- Objects stored under one local key are one object. -/
theorem sameSource_of_localKey_eq {env : Env} {objs : List MemoryObject} (hpf : PrefixFree env objs)
    {a b : MemoryObject} (ha : a ∈ objs) (hb : b ∈ objs) (h : env.localKey a = env.localKey b) :
    SameSource a b := hpf a ha b hb (hashPrefix_eq_of_localKey_eq env h)

theorem localKey_congr (env : Env) {a b : MemoryObject} (h : SameSource a b) :
    env.localKey a = env.localKey b := by
  unfold Env.localKey
  rw [h.authorId, h.key, objectHash_congr env h]

/-! ## A running example -/

/-- A note as a wire object. -/
def note : MemoryObject :=
  { key := "note", content := "ship on monday", createdAt := "2026-01-01 09:00:00",
    visibility := "team" }

/-- The note after an edit. -/
def editedNote : MemoryObject := { note with content := "ship on tuesday" }

/-- The digests of the two notes and of their contents. -/
def noteEnv : Env := .ofRecords
  [(utf8 note.content, 0x057df659c1e192df60dbeac39dec966fdceaa8f5e06f90581adb07ff8ec84bd1),
    (utf8 editedNote.content, 0x245bf963a2162f97ab3678c59ade5b66995ad03d8cef2e467d54fb906054cf00),
    (objectPreimage note, 0x1184fe0a6db52541fcee0e0f162daaeed9fbf95ca3e946311beaceb4669e95bd),
    (objectPreimage editedNote, 0xa77e45c10910131df2325b0a5b41f43773fff04815a031273eb47382dd95e595)] []

example : noteEnv.localKey note = "anon::note::1184fe0a6db52541" := by decide +kernel

/-! ## Trust policies -/

/-- `ImportPolicy`. -/
inductive ImportPolicy where
  | trustedTransport
  | requireSigned (keys : Bytes32 → Option VerifyingKey)

namespace Env

variable (env : Env)

/-- An attestation over `payload` by a known author. -/
def attested (keys : Bytes32 → Option VerifyingKey) (authorId : Option Bytes32)
    (signature : Option (List UInt8)) (payload : List UInt8) : Bool :=
  match authorId, signature with
  | some author, some sigBytes =>
    match keys author, toSignature sigBytes with
    | some vk, some sig => env.verify author vk payload sig
    | _, _ => false
  | _, _ => false

/-- `accepts_object`. -/
def acceptsObject (policy : ImportPolicy) (obj : MemoryObject) (objectHash : String) : Bool :=
  match policy with
  | .trustedTransport => true
  | .requireSigned keys =>
    env.attested keys obj.authorId obj.signature (federationObjectSigningPayload objectHash)

/-- `accepts_tombstone`. -/
def acceptsTombstone (policy : ImportPolicy) (wingId : String) (t : Tombstone) : Bool :=
  match policy with
  | .trustedTransport => true
  | .requireSigned keys =>
    env.attested keys t.authorId t.signature
      (federationTombstoneSigningPayload wingId t.targetHash t.ts)

end Env

end Spectral
