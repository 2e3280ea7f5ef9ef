import Comet.Word

/-!
# Operation codes

The machine instructions, grouped by the shape of their operands: the shape decides how an
instruction is encoded, how many words it takes and how its operands are read. `Opcode.all` lists
them in the order of the instruction table; names and codes identify an instruction
(`ofName?_name`, `ofCode?_code`).
-/

namespace Comet

/-- Operations of two words that store a result. -/
inductive Alu
  | adda
  | suba
  | addl
  | subl
  | and
  | or
  | xor
  deriving DecidableEq, Repr

/-- The order in which two words are compared. -/
inductive Comparison
  | arithmetic
  | logical
  deriving DecidableEq, Repr

/-- Shifts: arithmetic ones keep the sign bit. -/
inductive Shift
  | leftArithmetic
  | rightArithmetic
  | leftLogical
  | rightLogical
  deriving DecidableEq, Repr

/-- When a branch is taken, in terms of the flags. -/
inductive Condition
  | always
  | plus
  | minus
  | nonzero
  | zero
  | overflow
  deriving DecidableEq, Repr

/-- Instructions `r1, r2` or `r, adr[, x]`. -/
inductive TwoFormOp
  | load
  | alu (op : Alu)
  | compare (order : Comparison)
  | shift (op : Shift)
  deriving DecidableEq, Repr

inductive RegisterAddressOp
  | store
  | loadAddress
  deriving DecidableEq, Repr

inductive AddressOp
  | jump (condition : Condition)
  | push
  | call
  | supervisor
  deriving DecidableEq, Repr

inductive RegisterOp
  | pop
  deriving DecidableEq, Repr

inductive BareOp
  | nop
  | ret
  | halt
  deriving DecidableEq, Repr

inductive Opcode
  | twoForm (op : TwoFormOp)
  | registerAddress (op : RegisterAddressOp)
  | address (op : AddressOp)
  | register (op : RegisterOp)
  | bare (op : BareOp)
  deriving DecidableEq, Repr

namespace Opcode

/-- Every machine instruction, in table order. -/
def all : List Opcode :=
  [ bare .nop, twoForm .load, registerAddress .store, registerAddress .loadAddress,
    twoForm (.alu .adda), twoForm (.alu .suba), twoForm (.alu .addl), twoForm (.alu .subl),
    twoForm (.alu .and), twoForm (.alu .or), twoForm (.alu .xor),
    twoForm (.compare .arithmetic), twoForm (.compare .logical),
    twoForm (.shift .leftArithmetic), twoForm (.shift .rightArithmetic),
    twoForm (.shift .leftLogical), twoForm (.shift .rightLogical),
    address (.jump .always), address (.jump .plus), address (.jump .minus),
    address (.jump .nonzero), address (.jump .zero), address (.jump .overflow),
    address .push, register .pop, address .call, bare .ret, address .supervisor, bare .halt ]

def name : Opcode → String
  | bare .nop => "NOP"
  | twoForm .load => "LD"
  | registerAddress .store => "ST"
  | registerAddress .loadAddress => "LAD"
  | twoForm (.alu .adda) => "ADDA"
  | twoForm (.alu .suba) => "SUBA"
  | twoForm (.alu .addl) => "ADDL"
  | twoForm (.alu .subl) => "SUBL"
  | twoForm (.alu .and) => "AND"
  | twoForm (.alu .or) => "OR"
  | twoForm (.alu .xor) => "XOR"
  | twoForm (.compare .arithmetic) => "CPA"
  | twoForm (.compare .logical) => "CPL"
  | twoForm (.shift .leftArithmetic) => "SLA"
  | twoForm (.shift .rightArithmetic) => "SRA"
  | twoForm (.shift .leftLogical) => "SLL"
  | twoForm (.shift .rightLogical) => "SRL"
  | address (.jump .always) => "JUMP"
  | address (.jump .plus) => "JPL"
  | address (.jump .minus) => "JMI"
  | address (.jump .nonzero) => "JNZ"
  | address (.jump .zero) => "JZE"
  | address (.jump .overflow) => "JOV"
  | address .push => "PUSH"
  | register .pop => "POP"
  | address .call => "CALL"
  | bare .ret => "RET"
  | address .supervisor => "SVC"
  | bare .halt => "HALT"

/-- The code in the high byte of the first word. -/
def code : Opcode → UInt8
  | bare .nop => 0x00
  | twoForm .load => 0x10
  | registerAddress .store => 0x11
  | registerAddress .loadAddress => 0x12
  | twoForm (.alu .adda) => 0x20
  | twoForm (.alu .suba) => 0x21
  | twoForm (.alu .addl) => 0x22
  | twoForm (.alu .subl) => 0x23
  | twoForm (.alu .and) => 0x30
  | twoForm (.alu .or) => 0x31
  | twoForm (.alu .xor) => 0x32
  | twoForm (.compare .arithmetic) => 0x40
  | twoForm (.compare .logical) => 0x41
  | twoForm (.shift .leftArithmetic) => 0x50
  | twoForm (.shift .rightArithmetic) => 0x51
  | twoForm (.shift .leftLogical) => 0x52
  | twoForm (.shift .rightLogical) => 0x53
  | address (.jump .always) => 0x60
  | address (.jump .plus) => 0x61
  | address (.jump .minus) => 0x62
  | address (.jump .nonzero) => 0x63
  | address (.jump .zero) => 0x64
  | address (.jump .overflow) => 0x65
  | address .push => 0x70
  | register .pop => 0x71
  | address .call => 0x80
  | bare .ret => 0x81
  | address .supervisor => 0x90
  | bare .halt => 0xFF

/-- Whether an address word follows the first word. -/
def hasAddressWord : Opcode → Bool
  | twoForm _ | registerAddress _ | address _ => true
  | register _ | bare _ => false

def words (op : Opcode) : Nat := if op.hasAddressWord then 2 else 1

def ofCode? (code : UInt8) : Option Opcode := all.find? (·.code == code)

theorem mem_all (op : Opcode) : op ∈ all := by
  rcases op with (_ | op | op | op) | op | (op | _ | _ | _) | op | op <;> (try cases op) <;> decide

@[simp] theorem ofCode?_code (op : Opcode) : ofCode? op.code = some op := by
  rcases op with (_ | op | op | op) | op | (op | _ | _ | _) | op | op <;> (try cases op) <;> rfl

theorem code_of_ofCode? {code : UInt8} {op : Opcode} (h : ofCode? code = some op) :
    op.code = code := by
  simpa using List.find?_some h

end Opcode

end Comet
