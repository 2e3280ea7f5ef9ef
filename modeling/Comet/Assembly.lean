import Comet.Assembly.Code

/-!
# Assemblies

The result of assembling a source text: its layout and its image. From both comes the listing,
which shows every statement beside its address and its first words.
-/

namespace Comet

/-- An assembled source text. -/
structure Assembly where
  layout : Layout
  image : Image
  deriving DecidableEq, Repr

namespace Assembly

def ofSource? (source : String) : Except AsmError Assembly := do
  let layout ← Layout.ofLines? (Line.split source.toList)
  let image ← layout.image? layout.symbols
  return ⟨layout, image⟩

def symbols (a : Assembly) : SymbolTable := a.layout.symbols

/-- The listing line of one statement: line number, address, at most two of its words with a plus
sign if there are more, and the source. -/
def listingLine (image : Image) (p : Placed) : String :=
  let shown := image.words.extract p.address (p.address + min p.size 2)
  Text.padLeft 4 (Nat.repr p.statement.line) ++ " " ++
    String.ofList (hexDigits 4 p.address) ++ " " ++
    Text.padRight 9 (" ".intercalate (shown.toList.map Word.hex)) ++
    (if 2 < p.size then "+" else " ") ++ " " ++ p.statement.source ++ "\n"

/-- The listing: a line for every statement. -/
def listing (a : Assembly) : String :=
  String.join (a.layout.placed.toList.map (listingLine a.image))

/-- One line for every label, in order of definition. -/
def symbolLines (a : Assembly) : String :=
  String.join (a.symbols.entries.map fun (label, address) =>
    Text.padRight 8 label ++ " " ++ address.hex ++ "\n")

end Assembly

end Comet
