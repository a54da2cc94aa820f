import Spectral.Lib.Encoding
import Mathlib.Data.Rat.Defs

/-!
# Identity: digests, keys and signing payloads

The part of `spectral-core::identity` that federation uses.  A brain is named by the
digest of its public key (`brainIdOf`); `verify` accepts a signature only when the
claimed name belongs to the key.  The payloads that are signed are a domain tag
followed by length-prefixed fields.

The digest and the signature scheme are third-party code, and so is the regular
expression engine behind the classifier that re-derives a memory's wing, hall and
score on import: they are the parameters collected in `Env`.
-/

namespace Spectral

open Spectral.Lib

/-- A 32-byte array: digests, brain ids, device ids. -/
abbrev Bytes32 := Vector UInt8 32

instance : LawfulBEq Bytes32 := inferInstance

/-- A detached signature. -/
abbrev Signature := Vector UInt8 64

/-- An Ed25519 public key, by its compressed bytes. -/
structure VerifyingKey where
  /-- The 32 bytes of `as_bytes`. -/
  bytes : Bytes32
  deriving DecidableEq

/-- The code the model calls and does not contain. -/
structure Env where
  /-- `blake3::hash`. -/
  blake3 : List UInt8 → Bytes32
  /-- Ed25519 verification: `public_key.verify(msg, sig).is_ok()`. -/
  verifySig : VerifyingKey → List UInt8 → Signature → Bool
  /-- `classify_wing`, by key, content and category. -/
  classifyWing : String → String → String → String
  /-- `classify_hall`, by content. -/
  classifyHall : String → String
  /-- `score_memory`, by content and hall. -/
  scoreMemory : String → String → ℚ

namespace Env

variable (env : Env)

/-- `blake3::hash(text).to_hex()`. -/
def hashHex (b : List UInt8) : String := toHex (env.blake3 b).toList

theorem length_toList_hashHex (b : List UInt8) : (env.hashHex b).toList.length = 64 := by
  rw [hashHex, length_toList_toHex, Vector.length_toList]

/-- The brain id of a public key: the digest of its bytes. -/
def brainIdOf (vk : VerifyingKey) : Bytes32 := env.blake3 vk.bytes.toList

/-- The claimed brain id belongs to the key, and the signature verifies under it. -/
def verify (brainId : Bytes32) (publicKey : VerifyingKey) (msg : List UInt8) (sig : Signature) :
    Bool :=
  if env.brainIdOf publicKey ≠ brainId then false else env.verifySig publicKey msg sig

/-- The `k` bytes of a number, most significant first: digests, keys and signatures as they
are printed. -/
def bytesOf (k n : ℕ) : Vector UInt8 k :=
  Vector.ofFn fun i => UInt8.ofNat (n / 256 ^ (k - 1 - i.val) % 256)

/-- The outside code by what it returns on finitely many inputs: the digests of the listed
byte strings, the signatures that were issued, and the classifier's defaults for text that
matches none of its rules. -/
def ofRecords (digests : List (List UInt8 × ℕ))
    (issued : List (VerifyingKey × List UInt8 × Signature)) : Env where
  blake3 b := bytesOf 32 (((digests.find? fun d => d.1 = b).map Prod.snd).getD 0)
  verifySig vk msg sig := decide ((vk, msg, sig) ∈ issued)
  classifyWing _ _ _ := "general"
  classifyHall _ := "event"
  scoreMemory _ _ := 1 / 2

end Env

/-! ## Signing payloads -/

/-- Domain tag for a federation object attestation. -/
def federationObjSigDomain : List UInt8 := utf8 "spectral-federation-obj-sig-v1"

/-- Domain tag for a federation retraction attestation. -/
def federationTombstoneSigDomain : List UInt8 := utf8 "spectral-federation-tombstone-sig-v1"

/-- The domain, then every field preceded by its length in four bytes. -/
def lengthPrefixed (domain : List UInt8) (fields : List String) : List UInt8 :=
  domain ++ fields.flatMap fun f => withLength 4 (utf8 f)

/-- The payload signed for an object: its content address. -/
def federationObjectSigningPayload (objectHash : String) : List UInt8 :=
  lengthPrefixed federationObjSigDomain [objectHash]

/-- The payload signed for a retraction: the wing, the target and the time stamp. -/
def federationTombstoneSigningPayload (wingId targetHash ts : String) : List UInt8 :=
  lengthPrefixed federationTombstoneSigDomain [wingId, targetHash, ts]

/-- `MEMORY_SIG_DOMAIN`: the scheme that does not bind the key of a memory. -/
def memorySigDomain : List UInt8 := utf8 "spectral-memory-sig-v1"

/-- `MEMORY_SIG_DOMAIN_V2`. -/
def memorySigDomainV2 : List UInt8 := utf8 "spectral-memory-sig-v2"

/-- `memory_signing_payload`. -/
def memorySigningPayload (sourceBrainId : Bytes32) (contentHash createdAt visibility : String) :
    List UInt8 :=
  lengthPrefixed (memorySigDomain ++ sourceBrainId.toList) [contentHash, createdAt, visibility]

/-- `memory_signing_payload_v2`. -/
def memorySigningPayloadV2 (sourceBrainId : Bytes32) (key contentHash createdAt visibility : String) :
    List UInt8 :=
  lengthPrefixed (memorySigDomainV2 ++ sourceBrainId.toList) [key, contentHash, createdAt, visibility]

/-- `verify_memory_signature`: the current scheme, and failing that the older one. -/
def Env.verifyMemorySignature (env : Env) (sourceBrainId : Bytes32) (publicKey : VerifyingKey)
    (key contentHash createdAt visibility : String) (sig : Signature) : Bool :=
  env.verify sourceBrainId publicKey
      (memorySigningPayloadV2 sourceBrainId key contentHash createdAt visibility) sig ||
    env.verify sourceBrainId publicKey
      (memorySigningPayload sourceBrainId contentHash createdAt visibility) sig

/-- `BrainIdentity`: a key pair. -/
structure BrainIdentity where
  verifyingKey : VerifyingKey
  /-- `SigningKey::sign`. -/
  sign : List UInt8 → Signature

/-- The id of the brain with this identity. -/
def BrainIdentity.brainId (identity : BrainIdentity) (env : Env) : Bytes32 :=
  env.brainIdOf identity.verifyingKey

/-- `sign_memory`. -/
def BrainIdentity.signMemory (identity : BrainIdentity) (env : Env)
    (key contentHash createdAt visibility : String) : Signature :=
  identity.sign
    (memorySigningPayloadV2 (identity.brainId env) key contentHash createdAt visibility)

/-- A stored signature blob as a signature, if it has the right length. -/
def toSignature (bytes : List UInt8) : Option Signature :=
  if h : bytes.length = 64 then some ⟨bytes.toArray, by simpa using h⟩ else none

theorem toSignature_toList (sig : Signature) : toSignature sig.toList = some sig := by
  unfold toSignature
  rw [dif_pos (Vector.length_toList)]
  cases sig
  rfl

end Spectral
