/-!
# Numerals

Unsigned numerals in a base of at most 16, as options and settings are written: an optional plus
sign, then at least one digit, letters in either case, any number of leading zeros, no blanks.
Main function: `Numeral.unsigned?`, which also bounds the value.
-/

namespace Comet.Numeral

/-- The value of a hexadecimal digit, in either case; 0 for any other character. -/
def digitValue (c : Char) : Nat :=
  if c.isDigit then c.toNat - '0'.toNat
  else if 'a' ≤ c ∧ c ≤ 'f' then c.toNat - 'a'.toNat + 10
  else if 'A' ≤ c ∧ c ≤ 'F' then c.toNat - 'A'.toNat + 10
  else 0

def isHexDigit (c : Char) : Bool := c.isDigit || ('a' ≤ c && c ≤ 'f') || ('A' ≤ c && c ≤ 'F')

/-- The value of a run of digits, highest first. -/
def value (base : Nat) (digits : List Char) : Nat :=
  digits.foldl (fun total c => total * base + digitValue c) 0

theorem digitValue_lt (c : Char) : digitValue c < 16 := by
  have htoNat (c : Char) : c.val.toNat = c.toNat := rfl
  unfold digitValue
  simp only [Char.isDigit, Bool.and_eq_true, decide_eq_true_eq, Char.le_def,
    UInt32.le_iff_toNat_le, htoNat]
  split
  · have : '9'.toNat = 57 ∧ '0'.toNat = 48 := by decide
    omega
  split
  · have : 'f'.toNat = 102 ∧ 'a'.toNat = 97 := by decide
    omega
  split
  · have : 'F'.toNat = 70 ∧ 'A'.toNat = 65 := by decide
    omega
  · omega

/-- The value of hexadecimal digits read behind others: four bits for each. -/
theorem foldl_digitValue_lt (total : Nat) (digits : List Char) :
    digits.foldl (fun total c => total * 16 + digitValue c) total <
      (total + 1) <<< (4 * digits.length) := by
  induction digits generalizing total with
  | nil => exact total.lt_succ_self
  | cons c digits ih =>
    have hc := digitValue_lt c
    have hstep : total * 16 + digitValue c + 1 ≤ (total + 1) <<< 4 := by
      rw [Nat.shiftLeft_eq]
      omega
    have hbits : 4 * (digits.length + 1) = 4 + 4 * digits.length := by omega
    refine Nat.lt_of_lt_of_le (ih (total * 16 + digitValue c)) ?_
    rw [List.length_cons, hbits, Nat.shiftLeft_add, Nat.shiftLeft_eq,
      Nat.shiftLeft_eq _ (4 * digits.length)]
    exact Nat.mul_le_mul_right _ hstep

theorem value_lt_of_length_le {digits : List Char} (h : digits.length ≤ 4) :
    value 16 digits < 0x10000 := by
  have hlt := foldl_digitValue_lt 0 digits
  have hbits : 4 * digits.length ≤ 16 := by omega
  refine Nat.lt_of_lt_of_le hlt ?_
  rw [Nat.shiftLeft_eq]
  exact Nat.mul_le_mul_left _ (Nat.pow_le_pow_right (by decide) hbits)

/-- The two ways in which an address may be written. -/
inductive Radix
  | decimal
  | hexadecimal
  deriving DecidableEq, Repr

namespace Radix

/-- The number of values that a digit can have. -/
def base : Radix → Nat
  | decimal => 10
  | hexadecimal => 16

def isDigit : Radix → Char → Bool
  | decimal => Char.isDigit
  | hexadecimal => isHexDigit

end Radix

/-- A plain numeral: one or more digits. -/
def digits? (radix : Radix) (cs : List Char) : Option Nat :=
  if cs ≠ [] ∧ cs.all radix.isDigit then some (value radix.base cs) else none

/-- A numeral with an optional plus sign whose value is below `bound`. -/
def unsigned? (radix : Radix) (bound : Nat) (cs : List Char) : Option Nat :=
  let unsignedPart := if cs.head? = some '+' then cs.tail else cs
  (digits? radix unsignedPart).filter (· < bound)

end Comet.Numeral
