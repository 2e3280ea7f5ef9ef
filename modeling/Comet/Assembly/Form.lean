import Comet.Instr.Basic
import Comet.Source.Statement

/-!
# Statement forms

A form is a statement whose operands have been dealt out to the roles that its mnemonic gives
them. `Statement.form?` fails exactly when the number of operands is wrong or a storage length is no
length; what kind an operand must be is checked later, when labels have addresses. The form alone
fixes the number of words (`Form.size`).
-/

namespace Comet

/-- A statement by the roles of its operands. -/
inductive Form
  | twoForm (op : TwoFormOp) (r second : Arg) (index : Option Arg)
  | registerAddress (op : RegisterAddressOp) (r address : Arg) (index : Option Arg)
  | address (op : AddressOp) (address : Arg) (index : Option Arg)
  | register (op : RegisterOp) (r : Arg)
  | bare (op : BareOp)
  | start (entry : Option Arg)
  | finish
  | storage (length : Nat)
  | constants (args : List Arg)
  deriving DecidableEq, Repr

/-- The words that a constant operand stands for: one for each character, else one. -/
def Arg.constantSize (arg : Arg) : Nat :=
  match arg.operand with
  | .chars text => text.length
  | _ => 1

namespace Form

def size : Form → Nat
  | twoForm .. | registerAddress .. | address .. => 2
  | register .. | bare .. => 1
  | start _ | finish => 0
  | storage length => length
  | constants args => args.foldl (fun total arg => total + arg.constantSize) 0

end Form

namespace Statement

/-- The error of a statement that is malformed as a whole. -/
def malformed (s : Statement) (fault : SyntaxFault) : AsmError :=
  ⟨.malformed fault, s.line, s.mnemonicSpan⟩

/-- The error of an operand that does not suit its place. -/
def unsupported (s : Statement) (arg : Arg) (reason : OperandFault) : AsmError :=
  ⟨.unsupportedOperand arg.text reason, s.line, arg.span⟩

/-- The length that the operand of a storage directive gives. -/
def storageLength? (s : Statement) (arg : Arg) : Except AsmError Nat :=
  match arg.operand with
  | .integer length =>
    if 0 ≤ length then .ok length.toNat else .error (s.unsupported arg .storageLength)
  | _ => .error (s.unsupported arg .storageLength)

def form? (s : Statement) : Except AsmError Form :=
  match s.mnemonic, s.args with
  | .machine (.twoForm op), [r, second] => .ok (.twoForm op r second none)
  | .machine (.twoForm op), [r, second, index] => .ok (.twoForm op r second (some index))
  | .machine (.registerAddress op), [r, address] => .ok (.registerAddress op r address none)
  | .machine (.registerAddress op), [r, address, index] =>
    .ok (.registerAddress op r address (some index))
  | .machine (.address op), [address] => .ok (.address op address none)
  | .machine (.address op), [address, index] => .ok (.address op address (some index))
  | .machine (.register op), [r] => .ok (.register op r)
  | .machine (.bare op), [] => .ok (.bare op)
  | .directive .start, [] => .ok (.start none)
  | .directive .start, [entry] => .ok (.start (some entry))
  | .directive .finish, [] => .ok .finish
  | .directive .storage, [length] => (s.storageLength? length).map .storage
  | .directive .constant, arg :: args => .ok (.constants (arg :: args))
  | mnemonic, args => .error (s.malformed (.operandCount mnemonic args.length))

/-- The words that a statement will emit. Constants may be too many for an image; a storage length
is in range and so never is. -/
def size? (s : Statement) : Except AsmError Nat :=
  match s.form? with
  | .error e => .error e
  | .ok (.constants args) =>
    let size := (Form.constants args).size
    if size ≤ 0xFFFF then .ok size else .error (s.malformed .tooManyConstants)
  | .ok form => .ok form.size

end Statement

end Comet
