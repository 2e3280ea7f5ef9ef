import Comet.Instr.Opcode
import Comet.Machine.Flags

/-!
# Arithmetic on words

What the operations of the machine compute from two words. Arithmetic ones read words as signed
numbers, logical ones as unsigned numbers; both keep the low 16 bits of the exact result and report
in the overflow flag that the exact result does not fit.
-/

namespace Comet

/-- Whether a number is outside the signed range of a word. -/
def outsideSigned (n : Int) : Bool := n < -32768 || 32767 < n

/-- The result of an operation, and whether it overflows. -/
def Alu.apply : Alu → Word → Word → Word × Bool
  | adda, a, b => (a + b, outsideSigned (a.signed + b.signed))
  | suba, a, b => (a - b, outsideSigned (a.signed - b.signed))
  | addl, a, b => (a + b, 0xFFFF < a.toNat + b.toNat)
  | subl, a, b => (a - b, a < b)
  | and, a, b => (a &&& b, false)
  | or, a, b => (a ||| b, false)
  | xor, a, b => (a ^^^ b, false)

def Comparison.apply : Comparison → Word → Word → Ordering
  | arithmetic, a, b => compare a.signed b.signed
  | logical, a, b => compare a b

/-- A word shifted by the low four bits of `count`. A left arithmetic shift keeps the sign bit, a
right one copies it. -/
def Shift.apply (op : Shift) (value count : Word) : Word :=
  let n := count % 16
  match op with
  | leftArithmetic => (value &&& 0x8000) ||| ((value <<< n) &&& 0x7FFF)
  | rightArithmetic => (value.toInt16 >>> n.toInt16).toUInt16
  | leftLogical => value <<< n
  | rightLogical => value >>> n

def Condition.holds : Condition → Flags → Bool
  | always, _ => true
  | plus, f => !f.sign && !f.zero
  | minus, f => f.sign
  | nonzero, f => !f.zero
  | zero, f => f.zero
  | overflow, f => f.overflow

end Comet
