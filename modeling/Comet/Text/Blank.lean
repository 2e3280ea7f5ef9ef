/-!
# Blank characters

The characters that separate words: those with the Unicode property `White_Space`. Every operation
on text that skips or trims blanks uses this one table.
-/

namespace Comet.Text

/-- The ranges of code points with the Unicode property `White_Space`, ends included. -/
def blankRanges : List (Nat × Nat) :=
  [(0x9, 0xD), (0x20, 0x20), (0x85, 0x85), (0xA0, 0xA0), (0x1680, 0x1680), (0x2000, 0x200A),
    (0x2028, 0x2029), (0x202F, 0x202F), (0x205F, 0x205F), (0x3000, 0x3000)]

/-- The property covers 25 code points. -/
example : blankRanges.foldl (fun total (lo, hi) => total + (hi + 1 - lo)) 0 = 25 := by decide

def isBlank (c : Char) : Bool := blankRanges.any fun (lo, hi) => lo ≤ c.toNat && c.toNat ≤ hi

def trimStart (cs : List Char) : List Char := cs.dropWhile isBlank

def trimEnd (cs : List Char) : List Char := (cs.reverse.dropWhile isBlank).reverse

def trim (cs : List Char) : List Char := trimEnd (trimStart cs)

/-- The leading blank-free run of a text. -/
def word (cs : List Char) : List Char := cs.takeWhile fun c => !isBlank c

theorem trimStart_append_eq (cs : List Char) : cs.takeWhile isBlank ++ trimStart cs = cs :=
  List.takeWhile_append_dropWhile

end Comet.Text
