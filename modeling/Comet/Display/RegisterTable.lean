import Comet.Text.Column
import Comet.Text.Style
import Comet.Machine.Basic

/-!
# The register table

The registers of a machine, boxed for reading or as a plain list. The boxed table has a row of fixed
width for every register; words are shown in hexadecimal, unsigned, signed and, where they are a
character, as that character. Nothing that a register holds can break the table.
-/

namespace Comet

open Text (Appearance padLeft padRight)

def signedText : Int → String
  | .ofNat n => Nat.repr n
  | .negSucc n => "-" ++ Nat.repr (n + 1)

namespace RegisterTable

def width : Nat := 37

/-- A word as a character, three columns wide: names for the control characters that matter. -/
def charText (w : Word) : String :=
  if w = 0x00 then "NUL"
  else if w = 0x08 then "BS "
  else if w = 0x09 then "HT "
  else if w = 0x0A then "LF "
  else if w = 0x0D then "CR "
  else if w = 0x1B then "ESC"
  else if w = 0x7F then "DEL"
  else if w = 0x20 then "[_]"
  else if 0x21 ≤ w ∧ w ≤ 0x7E then padRight 3 (String.ofList [Char.ofNat w.toNat])
  else if w ≤ 0x7F then "───"
  else "┄┄┄"

def wordText (w : Word) : String :=
  "0x" ++ w.hex ++ "  " ++ padLeft 6 (Nat.repr w.toNat) ++ "  " ++
    padLeft 6 (signedText w.signed) ++ "  " ++ charText w

def side (look : Appearance) (left right : Char) : String :=
  look.paint .dim (String.ofList (left :: (List.replicate width '─' ++ [right]))) ++ "\n"

def heading (look : Appearance) : String :=
  look.paint .dim "│" ++
    look.paint .dimItalic (padRight width "       hex     uint     int  char") ++
    look.paint .dim "│" ++ "\n"

def row (look : Appearance) (name body : String) : String :=
  look.paint .dim "│" ++ " " ++ look.paint .bold (padRight 3 name) ++ " " ++
    padRight (width - 5) body ++ look.paint .dim "│" ++ "\n"

/-- The general registers with their numbers. -/
def registerList (registers : Registers) : List (Reg × Word) :=
  (List.finRange 8).map fun r => (r, registers.read r)

def boxed {σ : Type} (look : Appearance) (m : Machine σ) : String :=
  side look '┌' '┐' ++ heading look ++
    String.join ((registerList m.registers).map fun (r, w) => row look r.name (wordText w)) ++
    row look "SP" ("0x" ++ m.sp.hex) ++ row look "PC" ("0x" ++ m.pc.hex) ++
    row look "FR" m.flags.text ++ side look '└' '┘'

def plain {σ : Type} (m : Machine σ) : String :=
  String.join ((registerList m.registers).map fun (r, w) =>
      r.name ++ " " ++ signedText w.signed ++ "\n") ++
    "SP " ++ Nat.repr m.sp.toNat ++ "\n" ++ "PC " ++ Nat.repr m.pc.toNat ++ "\n" ++
    "FR " ++ m.flags.bits ++ "\n"

end RegisterTable

def Machine.registerText {σ : Type} (look : Appearance) (m : Machine σ) : String :=
  if look.minimal then RegisterTable.plain m else RegisterTable.boxed look m

end Comet
