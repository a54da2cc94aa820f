import Spectral.Core.Identity

/-!
# The four signing payloads are domain separated

A brain signs four kinds of bytes: a memory under the older scheme, a memory under
the current one, a federation object and a federation retraction.  A payload opens
with the domain of its kind, no domain is a prefix of another, and every field after
it is preceded by its length: the bytes determine which encoder was called and with
which fields (`SigningPayload.bytes_inj`), so a signature over one payload is a
signature over no other.
-/

namespace Spectral

open Spectral.Lib

/-- The four payload encoders. -/
inductive PayloadEncoder where
  | memory
  | memoryV2
  | federationObject
  | federationTombstone
  deriving DecidableEq

namespace PayloadEncoder

/-- The domain an encoder opens its payloads with. -/
def domain : PayloadEncoder → List UInt8
  | memory => memorySigDomain
  | memoryV2 => memorySigDomainV2
  | federationObject => federationObjSigDomain
  | federationTombstone => federationTombstoneSigDomain

/-- No domain is a prefix of another one. -/
theorem domain_prefix_free {e e' : PayloadEncoder} (h : e.domain <+: e'.domain) : e = e' := by
  cases e <;> cases e' <;> first | rfl | exact absurd h (by decide +kernel)

end PayloadEncoder

/-- A call of one of the four payload encoders, with its arguments. -/
inductive SigningPayload where
  | memory (sourceBrainId : Bytes32) (contentHash createdAt visibility : String)
  | memoryV2 (sourceBrainId : Bytes32) (key contentHash createdAt visibility : String)
  | federationObject (objectHash : String)
  | federationTombstone (wingId targetHash ts : String)
  deriving DecidableEq

namespace SigningPayload

/-- What the call returns. -/
def bytes : SigningPayload → List UInt8
  | memory brain contentHash createdAt visibility =>
      memorySigningPayload brain contentHash createdAt visibility
  | memoryV2 brain key contentHash createdAt visibility =>
      memorySigningPayloadV2 brain key contentHash createdAt visibility
  | federationObject objectHash => federationObjectSigningPayload objectHash
  | federationTombstone wingId targetHash ts =>
      federationTombstoneSigningPayload wingId targetHash ts

/-- The encoder that is called. -/
def encoder : SigningPayload → PayloadEncoder
  | memory .. => .memory
  | memoryV2 .. => .memoryV2
  | federationObject .. => .federationObject
  | federationTombstone .. => .federationTombstone

/-- The author's id, which the two memory schemes write without a length: it always has
32 bytes. -/
def author : SigningPayload → List UInt8
  | memory brain .. => brain.toList
  | memoryV2 brain .. => brain.toList
  | federationObject .. => []
  | federationTombstone .. => []

/-- The text fields, in the order in which they are written. -/
def fields : SigningPayload → List String
  | memory _ contentHash createdAt visibility => [contentHash, createdAt, visibility]
  | memoryV2 _ key contentHash createdAt visibility => [key, contentHash, createdAt, visibility]
  | federationObject objectHash => [objectHash]
  | federationTombstone wingId targetHash ts => [wingId, targetHash, ts]

/-- Every field is short enough for its length to fit in the four bytes in front of it. -/
def Sized (p : SigningPayload) : Prop := ∀ f ∈ p.fields, (utf8 f).length < 2 ^ 32

instance (p : SigningPayload) : Decidable p.Sized :=
  inferInstanceAs (Decidable (∀ f ∈ p.fields, (utf8 f).length < 2 ^ 32))

/-- Every payload is laid out alike: the domain, the author's id, and the fields with their
lengths. -/
theorem bytes_eq (p : SigningPayload) :
    p.bytes = p.encoder.domain ++ (p.author ++ (p.fields.map utf8).flatMap (withLength 4)) := by
  cases p <;> simp [bytes, memorySigningPayload, memorySigningPayloadV2,
    federationObjectSigningPayload, federationTombstoneSigningPayload, lengthPrefixed, encoder,
    PayloadEncoder.domain, author, fields]

theorem encoder_eq_of_bytes {p q : SigningPayload} (h : p.bytes = q.bytes) :
    p.encoder = q.encoder := by
  have hp : p.encoder.domain <+: q.bytes := ⟨_, by rw [← h, bytes_eq]⟩
  have hq : q.encoder.domain <+: q.bytes := ⟨_, (bytes_eq q).symm⟩
  obtain hpq | hqp := List.prefix_or_prefix_of_prefix hp hq
  · exact PayloadEncoder.domain_prefix_free hpq
  · exact (PayloadEncoder.domain_prefix_free hqp).symm

/-- One encoder always writes the same number of bytes for the author. -/
theorem length_author_of_encoder {p q : SigningPayload} (h : p.encoder = q.encoder) :
    p.author.length = q.author.length := by
  cases p <;> cases q <;> simp_all [encoder, author]

/-- The encoder, the author and the fields are the whole call. -/
theorem eq_of_parts {p q : SigningPayload} (hencoder : p.encoder = q.encoder)
    (hauthor : p.author = q.author) (hfields : p.fields = q.fields) : p = q := by
  cases p <;> cases q <;> simp_all [encoder, author, fields, Vector.toList_inj]

theorem fields_inj {p q : SigningPayload} (hp : p.Sized) (hq : q.Sized)
    (h : (p.fields.map utf8).flatMap (withLength 4) = (q.fields.map utf8).flatMap (withLength 4)) :
    p.fields = q.fields := by
  have hsized : ∀ r : SigningPayload, r.Sized → ∀ b ∈ r.fields.map utf8, b.length < 256 ^ 4 := by
    intro r hr b hb
    obtain ⟨f, hf, rfl⟩ := List.mem_map.mp hb
    exact hr f hf
  have hmap := flatMap_withLength_inj (by omega) (hsized p hp) (hsized q hq) h
  exact utf8_injective.list_map hmap

/-- Domain separation: two encoder calls with the same bytes are the same call. -/
theorem bytes_inj {p q : SigningPayload} (hp : p.Sized) (hq : q.Sized) :
    p.bytes = q.bytes ↔ p = q := by
  refine ⟨fun h => ?_, fun h => by rw [h]⟩
  have hencoder := encoder_eq_of_bytes h
  rw [bytes_eq, bytes_eq, hencoder] at h
  have hrest := List.append_cancel_left h
  obtain ⟨hauthor, hfields⟩ := List.append_inj hrest (length_author_of_encoder hencoder)
  exact eq_of_parts hencoder hauthor (fields_inj hp hq hfields)

/-- Moving a letter from one field of a retraction to the next changes what is signed. -/
theorem bytes_ne_shifted :
    (federationTombstone "ab" "c" "t").bytes ≠ (federationTombstone "a" "bc" "t").bytes := by
  rw [Ne, bytes_inj (by decide +kernel) (by decide +kernel)]
  decide

end SigningPayload

end Spectral
