import Comet.Mnemonic
import Comet.Source.Span

/-!
# Assembly errors

An assembly stops at the first error it meets. An error has a cause, the line it is on and the span
of the token it is about. The wording of every cause is here: `AsmError.message` for one line of
text, `AsmError.diagnostic` for display beside the source.
-/

namespace Comet

inductive OperandFault
  | hexLiteral
  | decimalLiteral
  | outOfRange
  | unrecognised
  | unterminated
  | loneQuote
  | wideCharacter
  | emptyConstant
  | storageLength
  | notARegister
  | zeroIndex
  | indexedRegister
  | reservedAddress
  | registerAsAddress
  | charsAsAddress
  deriving DecidableEq, Repr

namespace OperandFault

def text : OperandFault → String
  | hexLiteral => "hex literals are `#` followed by 1 to 4 hex digits"
  | decimalLiteral => "not a decimal literal"
  | outOfRange => "ranges from -32,768 to 32,767 or 0 to 65,535 are allowed"
  | unrecognised => "expected a register, literal or label"
  | unterminated => "unterminated character constant"
  | loneQuote => "a quote inside a character constant must be doubled"
  | wideCharacter => "character does not fit in one word"
  | emptyConstant => "empty character constant"
  | storageLength => "DS expects a non-negative decimal length"
  | notARegister => "expected a register"
  | zeroIndex => "GR0 cannot be used as an index register"
  | indexedRegister => "register to register form takes no index register"
  | reservedAddress => "address #FFFF is reserved to mark the register form"
  | registerAsAddress => "expected an address, found a register"
  | charsAsAddress => "character constants are only allowed in DC"

end OperandFault

/-- What is wrong with the form of a statement or of the program. -/
inductive SyntaxFault
  | invalidLabel (label : String)
  | missingInstruction
  | emptyOperand
  | operandCount (mnemonic : Mnemonic) (found : Nat)
  | tooManyConstants
  | programTooLarge
  | startTwice
  deriving DecidableEq, Repr

namespace SyntaxFault

def text : SyntaxFault → String
  | invalidLabel label => "invalid label `" ++ label ++ "`"
  | missingInstruction => "missing instruction"
  | emptyOperand => "empty operand"
  | operandCount mnemonic found =>
    "`" ++ mnemonic.name ++ "` expects " ++ mnemonic.arity.text ++ " operands, found " ++
      Nat.repr found
  | tooManyConstants => "too many constants"
  | programTooLarge => "program does not fit in memory"
  | startTwice => "START set twice"

end SyntaxFault

inductive AsmCause
  | malformed (fault : SyntaxFault)
  | unknownMnemonic (name : String)
  | duplicateLabel (label : String)
  | undefinedLabel (label : String)
  /-- An operand is of the wrong kind for its place, or is no operand at all. -/
  | unsupportedOperand (text : String) (reason : OperandFault)
  deriving DecidableEq, Repr

/-- A failed assembly: its cause, its line (from 1) and the token it is about. -/
structure AsmError where
  cause : AsmCause
  line : Nat
  span : Span
  deriving DecidableEq, Repr

/-- An error laid out for display beside the source: `label` is written under `span`. -/
structure Diagnostic where
  message : String
  code : String
  help : String
  label : String
  span : Span
  deriving DecidableEq, Repr

/-- The lines of source that are shown on each side of an error's line. -/
def Diagnostic.contextLines : Nat := 8

namespace AsmError

def message (e : AsmError) : String :=
  "line " ++ Nat.repr e.line ++ ": " ++
    match e.cause with
    | .malformed fault => "syntax error: " ++ fault.text
    | .unknownMnemonic name => "unknown opcode `" ++ name ++ "`"
    | .duplicateLabel label => "duplicate label `" ++ label ++ "`"
    | .undefinedLabel label => "undefined label `" ++ label ++ "`"
    | .unsupportedOperand text reason => "unsupported operand `" ++ text ++ "`: " ++ reason.text

/-- The error as it is shown beside the source. -/
def diagnostic (e : AsmError) : Diagnostic :=
  match e.cause with
  | .malformed fault =>
    { message := "Syntax error on line " ++ Nat.repr e.line ++ ": " ++ fault.text
      code := "parse::syntax"
      help := "each line is `[label] mnemonic [operand, ...]`"
      label := "malformed statement"
      span := e.span }
  | .unknownMnemonic name =>
    { message := "Encountered an unknown opcode `" ++ name ++ "`"
      code := "parse::unknown_opcode"
      help := "check the list of available instructions in the documentation."
      label := "unknown opcode"
      span := e.span }
  | .duplicateLabel label =>
    { message := "Duplicate label `" ++ label ++ "`"
      code := "parse::duplicate_label"
      help := "labels are only allowed once per program"
      label := "duplicate label"
      span := e.span }
  | .undefinedLabel label =>
    { message := "Reference to undefined label `" ++ label ++ "`"
      code := "asm::undefined_symbol"
      help := "define the label somewhere before `END`"
      label := "undefined label"
      span := e.span }
  | .unsupportedOperand text reason =>
    { message := "Unsupported operand `" ++ text ++ "`: " ++ reason.text
      code := "asm::unsupported_operand"
      help := "check the operands for this instruction"
      label := "unsupported operand"
      span := e.span }

end AsmError

end Comet
