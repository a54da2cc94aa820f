import Mathlib.Data.List.Basic
import Mathlib.Tactic.Ring

/-!
# Unambiguous byte encodings

Strings as UTF-8 bytes, fixed-width little-endian numbers, length-prefixed fields and
lower-case hexadecimal, with the facts that make a concatenation of fields readable
back: a length-prefixed field determines where it ends
(`withLength_append_inj`), so two sequences of fields with equal bytes are equal
field by field.  Fields of one width are read back (`ofLeBytes_leBytes`, `chunks_flatMap`).
-/

namespace Spectral.Lib

/-- The UTF-8 bytes of a string. -/
def utf8 (s : String) : List UInt8 := s.toByteArray.data.toList

theorem utf8_injective : Function.Injective utf8 := by
  rintro ⟨⟨⟨a⟩⟩, ha⟩ ⟨⟨⟨b⟩⟩, hb⟩ h
  have hab : a = b := h
  subst hab
  rfl

theorem utf8_append (s t : String) : utf8 (s ++ t) = utf8 s ++ utf8 t := by
  unfold utf8
  rw [String.toByteArray_append, ByteArray.toList_data_append]

/-! ## Little-endian numbers -/

/-- The `k` low bytes of `n`, least significant first. -/
def leBytes : ℕ → ℕ → List UInt8
  | 0, _ => []
  | k + 1, n => UInt8.ofNat (n % 256) :: leBytes k (n / 256)

@[simp] theorem length_leBytes (k n : ℕ) : (leBytes k n).length = k := by
  induction k generalizing n with
  | zero => rfl
  | succ k ih => simp [leBytes, ih]

/-- Numbers that fit in `k` bytes are determined by them. -/
theorem leBytes_inj {k m n : ℕ} (hm : m < 256 ^ k) (hn : n < 256 ^ k)
    (h : leBytes k m = leBytes k n) : m = n := by
  induction k generalizing m n with
  | zero => rw [pow_zero] at hm hn; omega
  | succ k ih =>
    simp only [leBytes, List.cons.injEq] at h
    obtain ⟨hlow, hhigh⟩ := h
    have hmod : m % 256 = n % 256 := by
      have := congrArg UInt8.toNat hlow
      simpa [UInt8.toNat_ofNat', Nat.mod_mod] using this
    have hdiv : m / 256 = n / 256 := by
      rw [pow_succ] at hm hn
      exact ih (by omega) (by omega) hhigh
    omega

/-- The number of some bytes, least significant first. -/
def ofLeBytes : List UInt8 → ℕ
  | [] => 0
  | b :: bs => b.toNat + 256 * ofLeBytes bs

/-- A number that fits is read back. -/
theorem ofLeBytes_leBytes {k n : ℕ} (h : n < 256 ^ k) : ofLeBytes (leBytes k n) = n := by
  induction k generalizing n with
  | zero =>
    rw [pow_zero] at h
    simp [leBytes, ofLeBytes]
    omega
  | succ k ih =>
    rw [pow_succ] at h
    have hlow : (UInt8.ofNat (n % 256)).toNat = n % 256 := by
      simp [UInt8.toNat_ofNat']
    rw [leBytes, ofLeBytes, ih (by omega), hlow]
    omega

/-! ## Fields of one width -/

/-- The first `n` pieces of `k` elements. -/
def chunks {α : Type*} (k : ℕ) : ℕ → List α → List (List α)
  | 0, _ => []
  | n + 1, l => l.take k :: chunks k n (l.drop k)

theorem length_flatMap_of_length {α β : Type*} {k : ℕ} {f : α → List β} (hf : ∀ a, (f a).length = k)
    (l : List α) : (l.flatMap f).length = k * l.length := by
  induction l with
  | nil => simp
  | cons a l ih =>
    rw [List.flatMap_cons, List.length_append, ih, hf, List.length_cons]
    ring

/-- The fields are read back. -/
theorem chunks_flatMap {α β : Type*} {k : ℕ} {f : α → List β} (hf : ∀ a, (f a).length = k)
    (l : List α) : chunks k l.length (l.flatMap f) = l.map f := by
  induction l with
  | nil => rfl
  | cons a l ih =>
    have htake : (f a ++ l.flatMap f).take k = f a := by rw [← hf a, List.take_left]
    have hdrop : (f a ++ l.flatMap f).drop k = l.flatMap f := by rw [← hf a, List.drop_left]
    rw [List.length_cons, List.flatMap_cons, chunks, htake, hdrop, ih, List.map_cons]

/-! ## Length-prefixed fields -/

/-- A field preceded by its length in `k` bytes; the length is truncated as the
numeric cast of the source truncates it. -/
def withLength (k : ℕ) (b : List UInt8) : List UInt8 := leBytes k b.length ++ b

/-- A length-prefixed field can be split off the front of any byte sequence. -/
theorem withLength_append_inj {k : ℕ} {a b r s : List UInt8} (ha : a.length < 256 ^ k)
    (hb : b.length < 256 ^ k) (h : withLength k a ++ r = withLength k b ++ s) :
    a = b ∧ r = s := by
  simp only [withLength, List.append_assoc] at h
  obtain ⟨hlen, hrest⟩ := List.append_inj h (by simp)
  exact List.append_inj hrest (leBytes_inj ha hb hlen)

/-- So can a whole sequence of them: the bytes determine how many fields there are and
each one's text. -/
theorem flatMap_withLength_inj {k : ℕ} (hk : 0 < k) {as bs : List (List UInt8)}
    (ha : ∀ a ∈ as, a.length < 256 ^ k) (hb : ∀ b ∈ bs, b.length < 256 ^ k)
    (h : as.flatMap (withLength k) = bs.flatMap (withLength k)) : as = bs := by
  induction as generalizing bs with
  | nil =>
    cases bs with
    | nil => rfl
    | cons b bs =>
      have hlen := congrArg List.length h
      simp [withLength] at hlen
      omega
  | cons a as ih =>
    cases bs with
    | nil =>
      have hlen := congrArg List.length h
      simp [withLength] at hlen
      omega
    | cons b bs =>
      simp only [List.flatMap_cons] at h
      obtain ⟨hab, hrest⟩ := withLength_append_inj (ha a (by simp)) (hb b (by simp)) h
      rw [hab, ih (fun x hx => ha x (by simp [hx])) (fun x hx => hb x (by simp [hx])) hrest]

/-! ## Hexadecimal -/

/-- The lower-case hexadecimal digit of a number below 16. -/
def hexDigit (n : ℕ) : Char :=
  if n < 10 then Char.ofNat (48 + n) else Char.ofNat (87 + n)

/-- A byte as two lower-case hexadecimal digits: the format `{:02x}`. -/
def hexByte (b : UInt8) : List Char := [hexDigit (b.toNat / 16), hexDigit (b.toNat % 16)]

/-- A byte sequence as lower-case hexadecimal text. -/
def toHex (b : List UInt8) : String := String.ofList (b.flatMap hexByte)

theorem length_toList_toHex (b : List UInt8) : (toHex b).toList.length = 2 * b.length := by
  rw [toHex, String.toList_ofList]
  induction b with
  | nil => rfl
  | cons x b ih => rw [List.flatMap_cons, List.length_append, ih, hexByte, List.length_cons]; simp; ring

theorem hexDigit_inj {m n : ℕ} (hm : m < 16) (hn : n < 16) (h : hexDigit m = hexDigit n) : m = n := by
  have hall : ∀ m n : Fin 16, hexDigit m = hexDigit n → m = n := by decide
  exact Fin.mk.inj_iff.1 (hall ⟨m, hm⟩ ⟨n, hn⟩ h)

theorem hexByte_injective : Function.Injective hexByte := by
  intro a b h
  have hbound : ∀ b : UInt8, b.toNat / 16 < 16 ∧ b.toNat % 16 < 16 := by
    intro b
    have hlt := b.toNat_lt
    omega
  obtain ⟨hhigh, hlow⟩ : hexDigit (a.toNat / 16) = hexDigit (b.toNat / 16) ∧
      hexDigit (a.toNat % 16) = hexDigit (b.toNat % 16) := by simpa [hexByte] using h
  have hdiv := hexDigit_inj (hbound a).1 (hbound b).1 hhigh
  have hmod := hexDigit_inj (hbound a).2 (hbound b).2 hlow
  exact UInt8.toNat_inj.1 (by omega)

/-- Hexadecimal text is read back. -/
theorem toHex_injective : Function.Injective toHex := by
  intro a b h
  have hchars : a.flatMap hexByte = b.flatMap hexByte := by
    simpa [toHex] using congrArg String.toList h
  have hlength : ∀ b, (hexByte b).length = 2 := fun _ => rfl
  have hsize : a.length = b.length := by
    have heq := congrArg List.length hchars
    rw [length_flatMap_of_length hlength, length_flatMap_of_length hlength] at heq
    omega
  have ha := chunks_flatMap hlength a
  rw [hchars, hsize, chunks_flatMap hlength b] at ha
  exact (List.map_injective_iff.2 hexByte_injective ha).symm

end Spectral.Lib
