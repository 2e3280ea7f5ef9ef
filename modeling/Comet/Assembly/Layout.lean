import Comet.Assembly.Form
import Comet.SymbolTable

/-!
# Layouts

A layout gives every statement its address and every label the address of its statement.
Statements are placed one after another, without gaps, until an END statement or the first error;
what follows is not read (`Layout.readOnto` returns it).
-/

namespace Comet

/-- A statement with the address and the number of its words. -/
structure Placed where
  address : Nat
  size : Nat
  statement : Statement
  deriving DecidableEq, Repr

/-- Statements in the order of their addresses, the labels they define, and the next address. -/
structure Layout where
  placed : Array Placed := #[]
  symbols : SymbolTable := .empty
  size : Nat := 0
  deriving DecidableEq, Repr

namespace Layout

/-- The first address that no program reaches. -/
def limit : Nat := 0xFFFF

def start? (l : Layout) : Option Placed :=
  l.placed.find? (·.statement.mnemonic == .directive .start)

/-- Binds the label of a statement to the next address. -/
def bind? (l : Layout) (s : Statement) : Except AsmError SymbolTable :=
  match s.label with
  | none => .ok l.symbols
  | some label =>
    match l.symbols.define? label.text (UInt16.ofNat l.size) with
    | some symbols => .ok symbols
    | none => .error ⟨.duplicateLabel label.text, s.line, label.span⟩

def place? (l : Layout) (s : Statement) : Except AsmError Layout :=
  match s.size? with
  | .error e => .error e
  | .ok size =>
    match l.bind? s with
    | .error e => .error e
    | .ok symbols =>
      if limit < l.size + size then .error (s.malformed .programTooLarge)
      else if s.mnemonic = .directive .start ∧ l.start?.isSome then
        .error (s.malformed .startTwice)
      else
        .ok { placed := l.placed.push ⟨l.size, size, s⟩, symbols, size := l.size + size }

/-- Places statements as they are read, until END, an error or the end of input. Returns the
outcome and the input that was not read. -/
def readOnto (l : Layout) : List (Except AsmError (Option Statement)) →
    Except AsmError Layout × List (Except AsmError (Option Statement))
  | [] => (.ok l, [])
  | .error e :: rest => (.error e, rest)
  | .ok none :: rest => l.readOnto rest
  | .ok (some s) :: rest =>
    match l.place? s with
    | .error e => (.error e, rest)
    | .ok l => if s.mnemonic = .directive .finish then (.ok l, rest) else l.readOnto rest

def ofLines? (lines : List Line) : Except AsmError Layout :=
  (readOnto {} (lines.map Line.statement?)).1

end Layout

end Comet
