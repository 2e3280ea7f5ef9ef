/-!
# Words

The machine computes on 16-bit words. A word has an unsigned reading (`UInt16.toNat`) and a two's
complement reading (`Word.signed`), splits into an opcode byte and two register fields, and is
written as four hexadecimal digits.
-/

namespace Comet

/-- A machine word: 16 bits. -/
abbrev Word := UInt16

/-! ## Hexadecimal text -/

/-- The hexadecimal digit of a value below 16, letters in upper case. -/
def hexDigit (value : Nat) : Char := (Nat.digitChar value).toUpper

/-- The lowest `width` hexadecimal digits of `value`, highest first. -/
def hexDigits : (width value : Nat) → List Char
  | 0, _ => []
  | width + 1, value => hexDigits width (value / 16) ++ [hexDigit (value % 16)]

@[simp] theorem length_hexDigits (width value : Nat) : (hexDigits width value).length = width := by
  induction width generalizing value with
  | zero => rfl
  | succ width ih => simp [hexDigits, ih]

namespace Word

def signed (w : Word) : Int := w.toInt16.toInt

def negative (w : Word) : Bool := 0x8000 ≤ w

/-- The high byte, where an instruction has its operation code. -/
def high (w : Word) : UInt8 := UInt8.ofNat (w.toNat / 256)

def low (w : Word) : UInt8 := UInt8.ofNat (w.toNat % 256)

def ofBytes (high low : UInt8) : Word := UInt16.ofNat (high.toNat * 256 + low.toNat)

/-- Bits 4 to 7, the first register field of an instruction. -/
def upperField (w : Word) : Nat := w.toNat / 16 % 16

/-- Bits 0 to 3, the second register field of an instruction. -/
def lowerField (w : Word) : Nat := w.toNat % 16

def hex (w : Word) : String := String.ofList (hexDigits 4 w.toNat)

@[simp] theorem high_ofBytes (h l : UInt8) : (ofBytes h l).high = h := by
  have := h.toNat_lt
  have := l.toNat_lt
  apply UInt8.toNat_inj.1
  simp only [high, ofBytes, UInt8.toNat_ofNat', UInt16.toNat_ofNat']
  omega

@[simp] theorem low_ofBytes (h l : UInt8) : (ofBytes h l).low = l := by
  have := h.toNat_lt
  have := l.toNat_lt
  apply UInt8.toNat_inj.1
  simp only [low, ofBytes, UInt8.toNat_ofNat', UInt16.toNat_ofNat']
  omega

@[simp] theorem ofBytes_high_low (w : Word) : ofBytes w.high w.low = w := by
  have := w.toNat_lt
  apply UInt16.toNat_inj.1
  simp only [high, low, ofBytes, UInt8.toNat_ofNat', UInt16.toNat_ofNat']
  omega

@[simp] theorem length_hex (w : Word) : w.hex.length = 4 := by simp [hex]

end Word

end Comet
