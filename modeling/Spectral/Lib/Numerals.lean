import Mathlib.Algebra.Group.Nat.Defs
import Mathlib.Data.Char
import Mathlib.Data.Int.Notation
import Mathlib.Data.List.Lex
import Mathlib.Order.Defs.LinearOrder

/-!
# Numerals

What a text of decimals stands for.

* `numeral` — the value of some digits; `numeral_lt_iff` — of numerals of one length, the lesser comes
  first as a text.
* `parseUnsigned`, `parseSigned` — `parse` for the integer types, where nothing overflows;
  `natAbs_parseSigned_lt` — a text of `n` characters stands for less than `10 ^ n`.
-/

namespace Spectral.Lib

/-- The value of a digit. -/
def digitValue (c : Char) : ℕ := c.toNat - 48

/-- The number some digits stand for, after a number before them. -/
def numeralFrom (n : ℕ) (cs : List Char) : ℕ := cs.foldl (fun n c => 10 * n + digitValue c) n

/-- The number some digits stand for. -/
def numeral (cs : List Char) : ℕ := numeralFrom 0 cs

/-- `parse::<u32>()`: digits, after a plus sign or without. -/
def parseUnsigned : List Char → Option ℕ
  | '+' :: cs => if cs ≠ [] ∧ cs.all Char.isDigit then some (numeral cs) else none
  | cs => if cs ≠ [] ∧ cs.all Char.isDigit then some (numeral cs) else none

/-- `parse::<i32>()`: the sign can be a minus. -/
def parseSigned : List Char → Option ℤ
  | '-' :: cs => if cs ≠ [] ∧ cs.all Char.isDigit then some (-(numeral cs : ℤ)) else none
  | cs => (parseUnsigned cs).map Int.ofNat

theorem digitValue_lt {c : Char} (h : c.isDigit = true) : digitValue c < 10 := by
  have hrange : (48 : UInt32) ≤ c.val ∧ c.val ≤ 57 := by simpa [Char.isDigit] using h
  have hlast : c.val.toNat ≤ 57 := hrange.2
  change c.val.toNat - 48 < 10
  omega

theorem digitValue_lt_iff {c c' : Char} (h : c.isDigit = true) (h' : c'.isDigit = true) :
    digitValue c < digitValue c' ↔ c < c' := by
  have hrange : (48 : UInt32) ≤ c.val ∧ c.val ≤ 57 := by simpa [Char.isDigit] using h
  have hrange' : (48 : UInt32) ≤ c'.val ∧ c'.val ≤ 57 := by simpa [Char.isDigit] using h'
  have hfirst : 48 ≤ c.val.toNat := hrange.1
  have hfirst' : 48 ≤ c'.val.toNat := hrange'.1
  change c.val.toNat - 48 < c'.val.toNat - 48 ↔ c.val.toNat < c'.val.toNat
  omega

/-- The digits in front count for more than all that follow. -/
theorem numeralFrom_lt {cs cs' : List Char} (hlen : cs.length = cs'.length)
    (h : cs.all Char.isDigit = true) {n n' : ℕ} (hlt : n < n') :
    numeralFrom n cs < numeralFrom n' cs' := by
  induction cs generalizing cs' n n' with
  | nil =>
    obtain rfl := List.length_eq_zero_iff.1 hlen.symm
    exact hlt
  | cons c cs ih =>
    cases cs' with
    | nil => cases hlen
    | cons c' cs' =>
      obtain ⟨hc, hcs⟩ := Bool.and_eq_true_iff.1 h
      have hdigit := digitValue_lt hc
      change numeralFrom (10 * n + digitValue c) cs < numeralFrom (10 * n' + digitValue c') cs'
      exact ih (Nat.succ.inj hlen) hcs (by omega)

theorem numeralFrom_lt_iff {cs cs' : List Char} (hlen : cs.length = cs'.length)
    (h : cs.all Char.isDigit = true) (h' : cs'.all Char.isDigit = true) (n : ℕ) :
    numeralFrom n cs < numeralFrom n cs' ↔ cs < cs' := by
  induction cs generalizing cs' n with
  | nil =>
    obtain rfl := List.length_eq_zero_iff.1 hlen.symm
    simp
  | cons c cs ih =>
    cases cs' with
    | nil => cases hlen
    | cons c' cs' =>
      have hlen' := Nat.succ.inj hlen
      obtain ⟨hc, hcs⟩ := Bool.and_eq_true_iff.1 h
      obtain ⟨hc', hcs'⟩ := Bool.and_eq_true_iff.1 h'
      rw [List.cons_lt_cons_iff]
      change numeralFrom (10 * n + digitValue c) cs < numeralFrom (10 * n + digitValue c') cs' ↔ _
      rcases lt_trichotomy c c' with hlt | rfl | hgt
      · have hvalue := (digitValue_lt_iff hc hc').2 hlt
        exact iff_of_true (numeralFrom_lt hlen' hcs (by omega)) (Or.inl hlt)
      · rw [ih hlen' hcs hcs']
        simp
      · have hvalue := (digitValue_lt_iff hc' hc).2 hgt
        have hfirst : 10 * n + digitValue c' < 10 * n + digitValue c := by omega
        have hback := numeralFrom_lt hlen'.symm hcs' hfirst
        refine iff_of_false hback.not_gt ?_
        rintro (hlt | ⟨rfl, -⟩)
        · exact lt_asymm hlt hgt
        · exact lt_irrefl _ hgt

/-- **Numerals of one length** are in the order of their texts. -/
theorem numeral_lt_iff {cs cs' : List Char} (hlen : cs.length = cs'.length)
    (h : cs.all Char.isDigit = true) (h' : cs'.all Char.isDigit = true) :
    numeral cs < numeral cs' ↔ cs < cs' := numeralFrom_lt_iff hlen h h' 0

/-! ## What parses -/

theorem numeralFrom_lt_pow {cs : List Char} (h : cs.all Char.isDigit = true) (n : ℕ) :
    numeralFrom n cs < (n + 1) * 10 ^ cs.length := by
  induction cs generalizing n with
  | nil => exact Nat.lt_of_lt_of_eq (Nat.lt_succ_self n) (Nat.mul_one _).symm
  | cons c cs ih =>
    obtain ⟨hc, hcs⟩ := Bool.and_eq_true_iff.1 h
    have hdigit := digitValue_lt hc
    have hnext : 10 * n + digitValue c + 1 ≤ (n + 1) * 10 := by omega
    have hle := Nat.mul_le_mul_right (10 ^ cs.length) hnext
    rw [Nat.mul_assoc, ← Nat.pow_succ'] at hle
    exact Nat.lt_of_lt_of_le (ih hcs _) hle

/-- A numeral of so many digits. -/
theorem numeral_lt_pow {cs : List Char} (h : cs.all Char.isDigit = true) :
    numeral cs < 10 ^ cs.length := Nat.one_mul (10 ^ cs.length) ▸ numeralFrom_lt_pow h 0

/-- **Digits parse** to what they stand for. -/
theorem parseSigned_of_digits {cs : List Char} (hne : cs ≠ []) (h : cs.all Char.isDigit = true) :
    parseSigned cs = some (numeral cs : ℤ) := by
  unfold parseSigned
  split
  · exact absurd (Bool.and_eq_true_iff.1 h).1 (by decide)
  · unfold parseUnsigned
    split
    · exact absurd (Bool.and_eq_true_iff.1 h).1 (by decide)
    · rw [if_pos ⟨hne, h⟩]
      rfl

theorem parseUnsigned_lt_pow {cs : List Char} {n : ℕ} (h : parseUnsigned cs = some n) :
    n < 10 ^ cs.length := by
  unfold parseUnsigned at h
  split at h
  · rename_i cs
    rw [Option.ite_none_right_eq_some] at h
    obtain ⟨⟨-, hdigits⟩, hn⟩ := h
    obtain rfl := Option.some.inj hn
    exact Nat.lt_of_lt_of_le (numeral_lt_pow hdigits) (Nat.pow_le_pow_right (by decide) (Nat.le_succ _))
  · rw [Option.ite_none_right_eq_some] at h
    obtain ⟨⟨-, hdigits⟩, hn⟩ := h
    obtain rfl := Option.some.inj hn
    exact numeral_lt_pow hdigits

/-- What parses is no longer than its text. -/
theorem natAbs_parseSigned_lt {cs : List Char} {n : ℤ} (h : parseSigned cs = some n) :
    n.natAbs < 10 ^ cs.length := by
  unfold parseSigned at h
  split at h
  · rename_i cs
    rw [Option.ite_none_right_eq_some] at h
    obtain ⟨⟨-, hdigits⟩, hn⟩ := h
    obtain rfl := Option.some.inj hn
    rw [Int.natAbs_neg, Int.natAbs_natCast]
    exact Nat.lt_of_lt_of_le (numeral_lt_pow hdigits) (Nat.pow_le_pow_right (by decide) (Nat.le_succ _))
  · obtain ⟨k, hk, rfl⟩ := Option.map_eq_some_iff.1 h
    exact parseUnsigned_lt_pow hk

end Spectral.Lib
