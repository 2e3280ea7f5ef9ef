import Comet.Text.Blank
import Comet.Source.Operand

/-!
# Source lines

The source is read line by line. A line runs up to and including its newline; the newline and
any carriage returns before it are not part of its text. Inside a line, quotes hide the
characters that would end the code (`;`) or an operand (`,`): a quote switches hiding on or off.
-/

namespace Comet

structure Line where
  text : List Char
  /-- The line number, from 1. -/
  number : Nat
  /-- The byte at which the line starts. -/
  offset : Nat
  deriving DecidableEq, Repr

namespace Line

/-- A line without the newline and carriage returns at its end. -/
def withoutBreak (raw : List Char) : List Char :=
  (raw.reverse.dropWhile fun c => c == '\n' || c == '\r').reverse

/-- Reads the lines of a text onto those already read. `current` holds, in reverse, what has been
read of the line that starts at byte `offset`. -/
def splitOnto (done : Array Line) (current : List Char) (number offset : Nat) :
    List Char → Array Line
  | [] =>
    if current = [] then done
    else done.push ⟨withoutBreak current.reverse, number, offset⟩
  | c :: cs =>
    if c = '\n' then
      let raw := (c :: current).reverse
      splitOnto (done.push ⟨withoutBreak raw, number, offset⟩) [] (number + 1)
        (offset + Text.byteLength raw) cs
    else
      splitOnto done (c :: current) number offset cs

def split (source : List Char) : List Line := (splitOnto #[] [] 1 0 source).toList

/-! ## Quotes within a line -/

/-- Splits a text at the first `stop` character that is not between quotes: what comes before it,
and the rest from it on. `done` holds, in reverse, what has been read. -/
def breakUnquoted (stop : Char) (quoted : Bool) (done : List Char) :
    List Char → List Char × List Char
  | [] => (done.reverse, [])
  | c :: cs =>
    if c = stop ∧ quoted = false then (done.reverse, c :: cs)
    else breakUnquoted stop (quoted != (c == quote)) (c :: done) cs

/-- The code of a line: what precedes its comment. -/
def code (text : List Char) : List Char := (breakUnquoted ';' false [] text).1

/-- Splits a text at every comma that is not between quotes. `done` holds the finished pieces
and `current` the piece being read, both in reverse. -/
def piecesOnto (done : List (List Char)) (current : List Char) (quoted : Bool) :
    List Char → List (List Char)
  | [] => (current.reverse :: done).reverse
  | c :: cs =>
    if c = ',' ∧ quoted = false then piecesOnto (current.reverse :: done) [] quoted cs
    else piecesOnto done (c :: current) (quoted != (c == quote)) cs

def pieces (field : List Char) : List (List Char) := piecesOnto [] [] false field

end Line

end Comet
