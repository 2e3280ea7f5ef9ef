import Comet.Machine.Arithmetic
import Comet.Machine.Basic
import Comet.Proofs.Layout.Denotation

/-!
# Programs as they are written

`SourceMachine` executes the statements of a layout without their encoding. It reads the statement
at the program counter, never a word of code: an operand that is a label stands for the address of
the statement that carries it, a literal for its value modulo 2^16, an index register adds its
contents, and a second operand that is a register is no place in memory.

* `place?`: what an address operand with its index stands for.
* `execute?`: what one instruction does with its operands.
* `step?`, `run?`: the statement at the program counter, and so many of them in a row. Both have no
  result where no instruction stands at the program counter.
* `start?`: the machine before the first statement.
-/

namespace Comet

variable {σ : Type}

/-- Whether the statement is a machine instruction. -/
def Statement.isInstruction (s : Statement) : Bool :=
  match s.mnemonic with
  | .machine _ => true
  | .directive _ => false

/-- The machine instruction that stands at an address. -/
def Layout.instructionAt? (l : Layout) (address : Word) : Option Placed :=
  l.placed.find? fun p => p.statement.isInstruction && p.address == address.toNat

/-- The state of a program that is executed statement by statement. -/
structure SourceMachine (σ : Type) where
  registers : Registers
  memory : Memory
  sp : Word
  pc : Word
  flags : Flags
  status : Status
  host : σ

namespace SourceMachine

/-! ## Parts of instructions -/

/-- The address that an operand, with an index register or without, stands for. -/
def place? (resolve : String → Option Word) (m : SourceMachine σ) : List Operand → Option Word
  | [base] => base.value? resolve
  | [base, .register x] => do
    let address ← base.value? resolve
    return address + m.registers.read x
  | _ => none

/-- Control goes to an address. -/
def goto (m : SourceMachine σ) (pc : Word) : SourceMachine σ := { m with pc }

/-- Stops at the instruction that cannot be executed. -/
def fault (m : SourceMachine σ) : SourceMachine σ := { m with status := .faulted }

/-- Goes on with the contents of a cell, if there is memory at the address. -/
def load (m : SourceMachine σ) (address : Word) (next : Word → SourceMachine σ) :
    SourceMachine σ :=
  if address = 0xFFFF then m.fault else next (m.memory.read address)

/-- Goes on with a cell replaced, if there is memory at the address. -/
def store (m : SourceMachine σ) (address value : Word)
    (next : SourceMachine σ → SourceMachine σ) : SourceMachine σ :=
  if address = 0xFFFF then m.fault else next { m with memory := m.memory.write address value }

/-- Sets a register, and the flags by its new contents. -/
def setResult (m : SourceMachine σ) (r : Reg) (value : Word) (overflow : Bool) : SourceMachine σ :=
  { m with registers := m.registers.write r value, flags := .ofResult value overflow }

/-- Operates on a register and a word. Only the low four bits of the word count for a shift. -/
def operate (m : SourceMachine σ) (r : Reg) (w : Word) : TwoFormOp → SourceMachine σ
  | .load => m.setResult r w false
  | .alu op =>
    let (result, overflow) := op.apply (m.registers.read r) w
    m.setResult r result overflow
  | .compare order => { m with flags := .ofOrdering (order.apply (m.registers.read r) w) }
  | .shift op => m.setResult r (op.apply (m.registers.read r) (w &&& 0xF)) false

/-- The supervisor sees and changes the registers and all cells but the last. -/
def callSupervisor (svc : Supervisor σ) (code : Word) (m : SourceMachine σ) : SourceMachine σ :=
  let (cells, last) := m.memory.unsnoc
  let (view, host) := svc code ⟨m.registers, cells⟩ m.host
  { m with registers := view.registers, memory := view.memory.push last, host }

/-! ## Instructions and programs -/

/-- The machine after one instruction with these operands; `next` is the address after it. -/
def execute? (svc : Supervisor σ) (resolve : String → Option Word) (next : Word)
    (m : SourceMachine σ) : Opcode → List Operand → Option (SourceMachine σ)
  | .twoForm op, [.register r, .register r₂] =>
    some ((m.operate r (m.registers.read r₂) op).goto next)
  | .twoForm (.shift op), .register r :: place => do
    let count ← m.place? resolve place
    return (m.operate r count (.shift op)).goto next
  | .twoForm op, .register r :: place => do
    let address ← m.place? resolve place
    return m.load address fun value => (m.operate r value op).goto next
  | .registerAddress .store, .register r :: place => do
    let address ← m.place? resolve place
    return m.store address (m.registers.read r) fun m => m.goto next
  | .registerAddress .loadAddress, .register r :: place => do
    let address ← m.place? resolve place
    return (m.setResult r address false).goto next
  | .address (.jump condition), place => do
    let target ← m.place? resolve place
    return m.goto (if condition.holds m.flags then target else next)
  | .address .push, place => do
    let value ← m.place? resolve place
    return m.store (m.sp - 1) value fun m => { m with sp := m.sp - 1, pc := next }
  | .address .call, place => do
    let target ← m.place? resolve place
    return m.store (m.sp - 1) next fun m => { m with sp := m.sp - 1, pc := target }
  | .address .supervisor, place => do
    let code ← m.place? resolve place
    return (m.callSupervisor svc code).goto next
  | .register .pop, [.register r] =>
    some (m.load m.sp fun value =>
      { m with registers := m.registers.write r value, sp := m.sp + 1, pc := next })
  | .bare .nop, [] => some (m.goto next)
  | .bare .ret, [] =>
    some (if m.sp = stackEmpty then { m with status := .halted, pc := next }
      else m.load m.sp fun target => { m with sp := m.sp + 1, pc := target })
  | .bare .halt, [] => some { m with status := .halted, pc := next }
  | _, _ => none

/-- Executes the statement at the program counter. A machine that does not run stays as it is, and
one whose program counter has left the program halts. -/
def step? (svc : Supervisor σ) (l : Layout) (m : SourceMachine σ) : Option (SourceMachine σ) :=
  if m.status ≠ .running then some m
  else if l.size ≤ m.pc.toNat then some { m with status := .halted }
  else do
    let p ← l.instructionAt? m.pc
    match p.statement.mnemonic with
    | .machine op =>
      m.execute? svc (Layout.labelAddress? l.placed.toList) (UInt16.ofNat (p.address + p.size)) op
        p.statement.operands
    | .directive _ => none

/-- The machine after `n` steps. -/
def run? (svc : Supervisor σ) (l : Layout) (m : SourceMachine σ) : Nat → Option (SourceMachine σ)
  | 0 => some m
  | n + 1 => do (← m.run? svc l n).step? svc l

/-- The machine at the start of a program, with nothing on the stack. -/
def start? (l : Layout) (memory : Memory) (registers : Registers) (host : σ) :
    Option (SourceMachine σ) := do
  let pc ← l.startAddress?
  return { registers, memory, sp := stackEmpty, pc, flags := {}, status := .running, host }

end SourceMachine

end Comet
