import Comet.Assembly.Layout
import Comet.Image.Basic

/-!
# Emitted code

With an address for every label, each statement of a layout stands for words: an instruction for
its encoding, a constant for its value, storage for zeros. `Layout.image?` puts the words of all
statements together and finds the address at which the program starts.
-/

namespace Comet

namespace Statement

/-- The value of an address or constant operand. -/
def address? (s : Statement) (symbols : SymbolTable) (arg : Arg) : Except AsmError Word :=
  match arg.operand with
  | .integer value => .ok (UInt16.ofInt value)
  | .symbol name =>
    match symbols.get? name with
    | some address => .ok address
    | none => .error ⟨.undefinedLabel name, s.line, arg.span⟩
  | .register _ => .error (s.unsupported arg .registerAsAddress)
  | .chars _ => .error (s.unsupported arg .charsAsAddress)

def register? (s : Statement) (arg : Arg) : Except AsmError Reg :=
  match arg.operand with
  | .register r => .ok r
  | _ => .error (s.unsupported arg .notARegister)

/-- The index register of an address operand. Without one it is GR0, which cannot be named. -/
def index? (s : Statement) : Option Arg → Except AsmError Reg
  | none => .ok noIndex
  | some arg => do
    let r ← s.register? arg
    if r = noIndex then .error (s.unsupported arg .zeroIndex) else .ok r

/-- The second operand of an instruction that takes a register or a place in memory. -/
def secondOperand? (s : Statement) (symbols : SymbolTable) (second : Arg) (index : Option Arg) :
    Except AsmError SecondOperand :=
  match second.operand, index with
  | .register r, none => .ok (.register r)
  | .register _, some extra => .error (s.unsupported extra .indexedRegister)
  | _, index => do
    let base ← s.address? symbols second
    if base = noMemory then .error (s.unsupported second .reservedAddress)
    else
      let x ← s.index? index
      return .memory ⟨base, x⟩

def constant? (s : Statement) (symbols : SymbolTable) (arg : Arg) : Except AsmError (List Word) :=
  match arg.operand with
  | .chars text => .ok (text.toList.map fun c => UInt16.ofNat c.toNat)
  | _ => do return [← s.address? symbols arg]

def words? (s : Statement) (symbols : SymbolTable) : Form → Except AsmError (List Word)
  | .twoForm op r second index => do
    let r ← s.register? r
    let source ← s.secondOperand? symbols second index
    return (Instr.twoForm op r source).encode
  | .registerAddress op r address index => do
    let r ← s.register? r
    let base ← s.address? symbols address
    let x ← s.index? index
    return (Instr.registerAddress op r ⟨base, x⟩).encode
  | .address op address index => do
    let base ← s.address? symbols address
    let x ← s.index? index
    return (Instr.address op ⟨base, x⟩).encode
  | .register op r => do
    let r ← s.register? r
    return (Instr.register op r).encode
  | .bare op => .ok (Instr.bare op).encode
  | .start _ | .finish => .ok []
  | .storage length => .ok (List.replicate length 0)
  | .constants args => do
    let words ← args.mapM (s.constant? symbols)
    return words.flatten

def code? (s : Statement) (symbols : SymbolTable) : Except AsmError (List Word) := do
  let form ← s.form?
  s.words? symbols form

end Statement

namespace Layout

/-- Emits the words of statements onto those already emitted. -/
def codeOnto (symbols : SymbolTable) (words : Array Word) :
    List Placed → Except AsmError (Array Word)
  | [] => .ok words
  | p :: rest =>
    match p.statement.code? symbols with
    | .error e => .error e
    | .ok code => codeOnto symbols (words ++ code) rest

/-- The address at which the program starts: what the operand of START gives, else the address of
START, else 0. -/
def entry? (l : Layout) (symbols : SymbolTable) : Except AsmError Word :=
  match l.start? with
  | none => .ok 0
  | some p =>
    match p.statement.args with
    | [] => .ok (UInt16.ofNat p.address)
    | arg :: _ => p.statement.address? symbols arg

/-- The image of a layout with its labels resolved by `symbols`. Statements are resolved in order,
and the entry address after all of them. -/
def image? (l : Layout) (symbols : SymbolTable) : Except AsmError Image := do
  let words ← codeOnto symbols #[] l.placed.toList
  let entry ← l.entry? symbols
  return ⟨words, entry⟩

end Layout

end Comet
