import Comet.Register
import Comet.Instr.Opcode

/-!
# Instructions

An instruction with its operands, and its one or two words: the operation code, two four-bit
register fields, and an address word for the shapes that have one. The address word `0xFFFF` marks
an operand that is a register instead of a place in memory. `Instr.ofWords` reads back what
`Instr.encode` writes, except for a memory operand at that one address.
-/

namespace Comet

/-- The address that holds no memory; as an address word it marks a register operand. -/
def noMemory : Word := 0xFFFF

/-- The register that stands for no index. -/
def noIndex : Reg := 0

/-- An address operand: a base and an index register. -/
structure Address where
  base : Word
  index : Reg := noIndex
  deriving DecidableEq, Repr

/-- Where the second operand of an instruction `r1, r2` or `r, adr[, x]` comes from. -/
inductive SecondOperand
  | register (r : Reg)
  | memory (address : Address)
  deriving DecidableEq, Repr

inductive Instr
  | twoForm (op : TwoFormOp) (r : Reg) (source : SecondOperand)
  | registerAddress (op : RegisterAddressOp) (r : Reg) (address : Address)
  | address (op : AddressOp) (address : Address)
  | register (op : RegisterOp) (r : Reg)
  | bare (op : BareOp)
  deriving DecidableEq, Repr

namespace Instr

def opcode : Instr → Opcode
  | twoForm op _ _ => .twoForm op
  | registerAddress op _ _ => .registerAddress op
  | address op _ => .address op
  | register op _ => .register op
  | bare op => .bare op

def head (op : Opcode) (r x : Reg) : Word :=
  UInt16.ofNat (op.code.toNat * 256 + r.val * 16 + x.val)

def encode : Instr → List Word
  | twoForm op r (.register r2) => [head (.twoForm op) r r2, noMemory]
  | twoForm op r (.memory a) => [head (.twoForm op) r a.index, a.base]
  | registerAddress op r a => [head (.registerAddress op) r a.index, a.base]
  | address op a => [head (.address op) 0 a.index, a.base]
  | register op r => [head (.register op) r 0]
  | bare op => [head (.bare op) 0 0]

/-- The register that a field names, or the field itself if it names none. -/
def fieldReg (field : Nat) : Except Nat Reg :=
  if h : field < 8 then .ok ⟨field, h⟩ else .error field

/-- Reads the operands of an instruction from its first word and its address word, if it has one.
Fails with the first register field in use that names no register. -/
def ofWords (op : Opcode) (first base : Word) : Except Nat Instr :=
  match op with
  | .twoForm op => do
    let r ← fieldReg first.upperField
    let x ← fieldReg first.lowerField
    if base = noMemory then return twoForm op r (.register x)
    else return twoForm op r (.memory ⟨base, x⟩)
  | .registerAddress op => do
    let r ← fieldReg first.upperField
    let x ← fieldReg first.lowerField
    return registerAddress op r ⟨base, x⟩
  | .address op => do
    let x ← fieldReg first.lowerField
    return address op ⟨base, x⟩
  | .register op => do
    let r ← fieldReg first.upperField
    return register op r
  | .bare op => return bare op

/-- The words of a memory operand do not look like those of a register operand. -/
def Encodable : Instr → Prop
  | twoForm _ _ (.memory a) => a.base ≠ noMemory
  | _ => True

theorem length_encode (i : Instr) : i.encode.length = i.opcode.words := by
  rcases i with ⟨op, r, _ | a⟩ | _ | _ | _ | _ <;> rfl

@[simp] theorem high_head (op : Opcode) (r x : Reg) : (head op r x).high = op.code := by
  have := op.code.toNat_lt
  apply UInt8.toNat_inj.1
  simp only [head, Word.high, UInt8.toNat_ofNat', UInt16.toNat_ofNat']
  omega

@[simp] theorem upperField_head (op : Opcode) (r x : Reg) : (head op r x).upperField = r.val := by
  have := op.code.toNat_lt
  simp only [head, Word.upperField, UInt16.toNat_ofNat']
  omega

@[simp] theorem lowerField_head (op : Opcode) (r x : Reg) : (head op r x).lowerField = x.val := by
  have := op.code.toNat_lt
  simp only [head, Word.lowerField, UInt16.toNat_ofNat']
  omega

@[simp] theorem fieldReg_val (r : Reg) : fieldReg r.val = .ok r := by simp [fieldReg]

/-- The first word of an instruction carries its operation code. -/
theorem ofCode?_head_encode (i : Instr) :
    (i.encode.head?.map Word.high).bind Opcode.ofCode? = some i.opcode := by
  rcases i with ⟨op, r, _ | a⟩ | _ | _ | _ | _ <;> simp [encode, opcode]

theorem ofWords_encode (i : Instr) (h : i.Encodable) :
    ofWords i.opcode (i.encode.getD 0 0) (i.encode.getD 1 0) = .ok i := by
  rcases i with ⟨op, r, r2 | a⟩ | _ | _ | _ | _
  case twoForm.memory =>
    have : a.base ≠ noMemory := h
    simp [encode, opcode, ofWords, bind, Except.bind, pure, Except.pure, this]
  all_goals simp [encode, opcode, ofWords, bind, Except.bind, pure, Except.pure]

end Instr

end Comet
