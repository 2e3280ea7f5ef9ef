import Comet.Register
import Comet.Text.Numeral
import Comet.Source.Error

/-!
# Operands

The text of an operand belongs to one of five languages: register names, hexadecimal literals,
decimal literals, character constants and labels. `Operand.ofText?` tells them apart by how the
text begins and says why a text belongs to none.
-/

namespace Comet

/-- The character that opens and closes a character constant. -/
def quote : Char := '\''

inductive Operand
  | register (r : Reg)
  | symbol (name : String)
  /-- A literal as written, from -32768 to 65535. -/
  | integer (value : Int)
  /-- The characters between the quotes of a constant, a doubled quote read as one. -/
  | chars (text : String)
  deriving DecidableEq, Repr

namespace Operand

/-- An integer lies in the range in which literals are read. -/
def InRange (o : Operand) : Prop :=
  ∀ value, o = integer value → -32768 ≤ value ∧ value ≤ 65535

@[simp] theorem inRange_integer {value : Int} :
    (integer value).InRange ↔ -32768 ≤ value ∧ value ≤ 65535 := by simp [InRange]

@[simp] theorem inRange_register (r : Reg) : (register r).InRange := nofun

@[simp] theorem inRange_symbol (name : String) : (symbol name).InRange := nofun

@[simp] theorem inRange_chars (text : String) : (chars text).InRange := nofun

instance : DecidablePred InRange
  | integer _ => decidable_of_iff _ inRange_integer.symm
  | register r => isTrue (inRange_register r)
  | symbol name => isTrue (inRange_symbol name)
  | chars text => isTrue (inRange_chars text)

end Operand

/-- Whether a text is a label: a letter, then letters and digits, all ASCII, and no register. -/
def isLabel : List Char → Bool
  | [] => false
  | c :: cs =>
    c.isAlpha && cs.all Char.isAlphanum && (Reg.ofName? (String.ofList (c :: cs))).isNone

namespace Operand

/-- Reads what follows the `#` of a hexadecimal literal. -/
def hexLiteral (digits : List Char) : Except OperandFault Operand :=
  if digits ≠ [] ∧ digits.length ≤ 4 ∧ digits.all Numeral.isHexDigit then
    .ok (.integer (Numeral.value 16 digits))
  else
    .error .hexLiteral

/-- Reads a decimal literal: the digits, and whether a minus sign stands before them. -/
def decimalLiteral (negative : Bool) (digits : List Char) : Except OperandFault Operand :=
  if digits.all Char.isDigit then
    let magnitude : Int := Numeral.value 10 digits
    let value := if negative then -magnitude else magnitude
    if -32768 ≤ value ∧ value ≤ 65535 then .ok (.integer value) else .error .outOfRange
  else
    .error .decimalLiteral

/-- Reads the characters between the quotes of a constant onto those already read. -/
def constantBody (done : List Char) : List Char → Except OperandFault (List Char)
  | [] => .ok done.reverse
  | c :: rest =>
    if c = quote then
      match rest with
      | [] => .error .loneQuote
      | d :: rest => if d = quote then constantBody (quote :: done) rest else .error .loneQuote
    else if 0xFFFF < c.toNat then .error .wideCharacter
    else constantBody (c :: done) rest

/-- Reads what follows the opening quote of a character constant. -/
def charConstant (text : List Char) : Except OperandFault Operand :=
  if text.getLast? = some quote then
    match constantBody [] text.dropLast with
    | .error fault => .error fault
    | .ok [] => .error .emptyConstant
    | .ok body => .ok (.chars (String.ofList body))
  else
    .error .unterminated

/-- Reads a sign and splits it from the rest of the text. -/
def splitSign : List Char → Bool × List Char
  | '-' :: cs => (true, cs)
  | '+' :: cs => (false, cs)
  | cs => (false, cs)

/-- Reads an operand that is neither a register nor marked by its first character. -/
def literalOrLabel (text : List Char) : Except OperandFault Operand :=
  let (negative, digits) := splitSign text
  if digits.head?.any Char.isDigit then decimalLiteral negative digits
  else if isLabel text then .ok (.symbol (String.ofList text))
  else .error .unrecognised

/-- Reads an operand from its text without surrounding blanks. -/
def ofText? (text : List Char) : Except OperandFault Operand :=
  match Reg.ofName? (String.ofList text) with
  | some r => .ok (.register r)
  | none =>
    match text with
    | '#' :: digits => hexLiteral digits
    | c :: rest => if c = quote then charConstant rest else literalOrLabel text
    | [] => literalOrLabel text

/-! ## Integers are in range -/

variable {text : List Char} {o : Operand}

theorem inRange_of_hexLiteral (h : hexLiteral text = .ok o) : o.InRange := by
  unfold hexLiteral at h
  split at h
  · next hdigits =>
    cases h
    have hlt := Numeral.value_lt_of_length_le hdigits.2.1
    exact inRange_integer.2 (by omega)
  · cases h

theorem inRange_of_decimalLiteral {negative : Bool} (h : decimalLiteral negative text = .ok o) :
    o.InRange := by
  unfold decimalLiteral at h
  split at h
  · dsimp only at h
    generalize (if negative then _ else _ : Int) = value at h
    split at h
    · next hrange =>
      cases h
      exact inRange_integer.2 hrange
    · cases h
  · cases h

theorem inRange_of_charConstant (h : charConstant text = .ok o) : o.InRange := by
  unfold charConstant at h
  split at h
  · split at h
    · cases h
    · cases h
    · cases h; simp
  · cases h

theorem inRange_of_literalOrLabel (h : literalOrLabel text = .ok o) : o.InRange := by
  unfold literalOrLabel at h
  dsimp only at h
  split at h
  · exact inRange_of_decimalLiteral h
  split at h
  · cases h; simp
  · cases h

/-- **What is read is in range.** -/
theorem inRange_of_ofText? (h : ofText? text = .ok o) : o.InRange := by
  unfold ofText? at h
  split at h
  · cases h; simp
  split at h
  · exact inRange_of_hexLiteral h
  · split at h
    · exact inRange_of_charConstant h
    · exact inRange_of_literalOrLabel h
  · exact inRange_of_literalOrLabel h

end Operand

end Comet
