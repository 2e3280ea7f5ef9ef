import Comet.Word

/-!
# Condition flags

Loads, arithmetic, logic, comparisons and shifts set the three flags; branches test them.
-/

namespace Comet

structure Flags where
  overflow : Bool := false
  sign : Bool := false
  zero : Bool := false
  deriving DecidableEq, Repr, Inhabited

namespace Flags

def ofResult (value : Word) (overflow : Bool) : Flags :=
  ⟨overflow, value.negative, value == 0⟩

/-- The flags of a comparison: less sets the sign flag, equal the zero flag. -/
def ofOrdering (order : Ordering) : Flags := ⟨false, order == .lt, order == .eq⟩

def digit (flag : Bool) : String := if flag then "1" else "0"

def text (f : Flags) : String :=
  "OF=" ++ digit f.overflow ++ " SF=" ++ digit f.sign ++ " ZF=" ++ digit f.zero

/-- All flags as three bits: overflow, sign, zero. -/
def bits (f : Flags) : String := digit f.overflow ++ digit f.sign ++ digit f.zero

end Flags

end Comet
