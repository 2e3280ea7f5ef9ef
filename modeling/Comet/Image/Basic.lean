import Comet.Text.Column
import Comet.Word

/-!
# Images

An image is an assembled program: the words that are loaded from address 0 on, and the address at
which execution starts. The last address of the machine is never accessible, so an image is one
word shorter than memory at most.
-/

namespace Comet

/-- The words that may be loaded at most. -/
def imageLimit : Nat := 0xFFFF

structure Image where
  words : Array Word
  entry : Word
  deriving DecidableEq, Repr

/-- Why words or bytes are no image. -/
inductive ImageError
  | empty
  | unaligned
  | tooLarge
  deriving DecidableEq, Repr

namespace ImageError

def message : ImageError → String
  | empty => "object file is empty"
  | unaligned => "object file is not aligned to 16 bits"
  | tooLarge => "program is too long and cannot fit in memory"

end ImageError

namespace Image

def size (image : Image) : Nat := image.words.size

/-- The image of these words, if they fit. -/
def ofWords? (words : Array Word) (entry : Word) : Except ImageError Image :=
  if imageLimit < words.size then .error .tooLarge else .ok ⟨words, entry⟩

/-- One row of the hexadecimal dump: the eight words from address `8 * row` on. -/
def dumpRow (image : Image) (row : Nat) : String :=
  let words := (image.words.extract (8 * row) (8 * row + 8)).toList
  String.ofList (hexDigits 4 (8 * row)) ++ ":" ++
    String.join (words.map fun w => " " ++ w.hex) ++ "\n"

/-- The hexadecimal dump: the entry address, then eight words a row. -/
def dump (image : Image) : String :=
  "entry " ++ image.entry.hex ++ "\n" ++
    String.join ((List.range ((image.size + 7) / 8)).map image.dumpRow)

theorem ofWords?_eq_ok {words : Array Word} {entry : Word} {image : Image}
    (h : ofWords? words entry = .ok image) :
    image = ⟨words, entry⟩ ∧ words.size ≤ imageLimit := by
  unfold ofWords? at h
  split at h
  · cases h
  · next hle => cases h; exact ⟨rfl, Nat.le_of_not_lt hle⟩

end Image

end Comet
