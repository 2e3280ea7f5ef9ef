import Comet.Source.Line

/-!
# Statements

A line holds at most one statement: an optional label, a mnemonic, and operands between commas.
`Line.statement?` reads it, or says what is wrong and where. Operands are classified but not yet
checked against the mnemonic.
-/

namespace Comet

/-- A piece of text and where it stands in the source. -/
structure Located where
  text : String
  span : Span
  deriving DecidableEq, Repr

/-- An operand, the text it was read from and where that stands. -/
@[ext]
structure Arg where
  operand : Operand
  text : String
  span : Span
  /-- Other integers are not read. -/
  inRange : operand.InRange
  deriving DecidableEq, Repr

structure Statement where
  label : Option Located
  mnemonic : Mnemonic
  mnemonicSpan : Span
  args : List Arg
  /-- The line number, from 1. -/
  line : Nat
  /-- The code of the line, without surrounding blanks. -/
  source : String
  deriving DecidableEq, Repr

namespace Line

def malformed (line : Line) (fault : SyntaxFault) (span : Span) : AsmError :=
  ⟨.malformed fault, line.number, span⟩

/-- Where the operand stands in a piece that starts at byte `start`. -/
def argSpan (start : Nat) (piece : List Char) : Span :=
  ⟨start + Text.byteLength (piece.takeWhile Text.isBlank), Text.byteLength (Text.trim piece)⟩

/-- Reads one piece of the operand field that starts at byte `start`. -/
def arg? (line : Line) (start : Nat) (piece : List Char) : Except AsmError Arg :=
  let text := Text.trim piece
  if text = [] then
    .error (line.malformed .emptyOperand ⟨start, Text.byteLength piece⟩)
  else
    match h : Operand.ofText? text with
    | .ok operand =>
      .ok ⟨operand, String.ofList text, argSpan start piece, Operand.inRange_of_ofText? h⟩
    | .error reason =>
      .error ⟨.unsupportedOperand (String.ofList text) reason, line.number, argSpan start piece⟩

section

variable {line : Line} {start : Nat} {piece text : List Char}

theorem arg?_of_ok {operand : Operand} (htext : Text.trim piece = text) (hne : text ≠ [])
    (h : Operand.ofText? text = .ok operand) :
    line.arg? start piece =
      .ok ⟨operand, String.ofList text, argSpan start piece, Operand.inRange_of_ofText? h⟩ := by
  subst htext
  simp only [arg?, if_neg hne]
  split
  · next o ho =>
    obtain rfl : o = operand := Except.ok.inj (ho.symm.trans h)
    rfl
  · next reason hreason => cases hreason.symm.trans h

theorem arg?_of_error {reason : OperandFault} (htext : Text.trim piece = text) (hne : text ≠ [])
    (h : Operand.ofText? text = .error reason) :
    line.arg? start piece = .error ⟨.unsupportedOperand (String.ofList text) reason, line.number,
      argSpan start piece⟩ := by
  subst htext
  simp only [arg?, if_neg hne]
  split
  · next o ho => cases ho.symm.trans h
  · next reason' hreason =>
    obtain rfl : reason' = reason := Except.error.inj (hreason.symm.trans h)
    rfl

end

/-- Reads pieces onto the operands already read, in reverse; the first piece starts at byte
`start`. -/
def argsOnto (line : Line) (done : List Arg) (start : Nat) :
    List (List Char) → Except AsmError (List Arg)
  | [] => .ok done.reverse
  | piece :: rest =>
    match line.arg? start piece with
    | .error e => .error e
    | .ok arg => line.argsOnto (arg :: done) (start + Text.byteLength piece + 1) rest

/-- Reads the operand field, which starts at byte `start`. A blank field holds no operands. -/
def args? (line : Line) (start : Nat) (field : List Char) : Except AsmError (List Arg) :=
  if field.all Text.isBlank then .ok [] else line.argsOnto [] start (pieces field)

/-- Reads the mnemonic, which starts after the blanks of `field`, and the operands after it.
`start` is the byte at which the field starts. -/
def body? (line : Line) (label : Option Located) (start : Nat) (field : List Char) :
    Except AsmError Statement :=
  let word := Text.word (Text.trimStart field)
  let wordStart := start + Text.byteLength (field.takeWhile Text.isBlank)
  let span : Span := ⟨wordStart, Text.byteLength word⟩
  match Mnemonic.ofName? (String.ofList word) with
  | none => .error ⟨.unknownMnemonic (String.ofList word), line.number, span⟩
  | some mnemonic =>
    match line.args? span.stop ((Text.trimStart field).drop word.length) with
    | .error e => .error e
    | .ok args =>
      .ok { label, mnemonic, mnemonicSpan := span, args, line := line.number,
            source := String.ofList (Text.trim (code line.text)) }

/-- Reads the statement of a line; blank lines and comments hold none. The first word is the
label unless it is a mnemonic. -/
def statement? (line : Line) : Except AsmError (Option Statement) :=
  let field := code line.text
  let word := Text.word (Text.trimStart field)
  let span : Span :=
    ⟨line.offset + Text.byteLength (field.takeWhile Text.isBlank), Text.byteLength word⟩
  if word = [] then .ok none
  else if (Mnemonic.ofName? (String.ofList word)).isSome then
    (line.body? none line.offset field).map some
  else if isLabel word = false then
    .error (line.malformed (.invalidLabel (String.ofList word)) span)
  else
    let rest := (Text.trimStart field).drop word.length
    if rest.all Text.isBlank then .error (line.malformed .missingInstruction span)
    else (line.body? (some ⟨String.ofList word, span⟩) span.stop rest).map some

end Line

namespace Statement

/-- The statements of a source text, each read or in error, one for every line that holds one. -/
def ofSource (source : List Char) : List (Except AsmError Statement) :=
  (Line.split source).filterMap fun line =>
    match line.statement? with
    | .ok none => none
    | .ok (some s) => some (.ok s)
    | .error e => some (.error e)

end Statement

end Comet
