import Comet.Machine.Arithmetic
import Comet.Machine.Basic

/-!
# Executing one instruction

A step fetches the instruction at the program counter, settles its effect, and only then changes the
machine. Fetching and settling only read, so a fault changes nothing but the status, and the program
counter still points at the instruction.
-/

namespace Comet

/-- An instruction as it stands in memory. -/
structure Fetched where
  address : Word
  word : Word
  /-- The address word, if the instruction has one. -/
  operand : Option Word
  instr : Instr
  deriving DecidableEq, Repr

namespace Fetched

def next (f : Fetched) : Word := f.address + if f.operand.isSome then 2 else 1

/-- The record of the instruction, given what it did and the flags it left. -/
def entry (f : Fetched) (effect : Effect) (flags : Flags) : TraceEntry :=
  ⟨f.address, f.word, f.operand, f.instr.opcode, effect, flags⟩

end Fetched

namespace Machine

variable {σ : Type}

/-- Reads a cell; there is none at `0xFFFF`. -/
def read (m : Machine σ) (address : Word) : Except Fault Word :=
  if address = noMemory then .error (.outOfBounds address) else .ok (m.memory.read address)

/-- The address word of an instruction of this kind at the program counter. -/
def fetchOperand (m : Machine σ) (op : Opcode) : Except Fault (Option Word) :=
  if op.hasAddressWord then (m.read (m.pc + 1)).map some else .ok none

def fetch (m : Machine σ) : Except Fault Fetched := do
  let word ← m.read m.pc
  match Opcode.ofCode? word.high with
  | none => .error (.illegalOpcode word.high m.pc)
  | some op =>
    let operand ← m.fetchOperand op
    match Instr.ofWords op word (operand.getD 0) with
    | .ok instr => .ok ⟨m.pc, word, operand, instr⟩
    | .error field => .error (.illegalRegister field m.pc)

/-- The word that a second operand stands for. -/
def operand (m : Machine σ) : SecondOperand → Except Fault Word
  | .register r => .ok (m.registers.read r)
  | .memory a => m.read (m.registers.effective a)

/-- The number that a second operand gives a shift: an address counts itself, not its cell. -/
def shiftCount (m : Machine σ) : SecondOperand → Word
  | .register r => m.registers.read r
  | .memory a => m.registers.effective a

/-- An effect that needs the cell at `address`. -/
def guarded (address : Word) (effect : Effect) : Except Fault Effect :=
  if address = noMemory then .error (.outOfBounds address) else .ok effect

/-- What an instruction does in this state; `next` is the address after it. -/
def effect (m : Machine σ) (next : Word) : Instr → Except Fault Effect
  | .twoForm .load r source => do
    let value ← m.operand source
    return .result r value false
  | .twoForm (.alu op) r source => do
    let value ← m.operand source
    let (result, overflow) := op.apply (m.registers.read r) value
    return .result r result overflow
  | .twoForm (.compare order) r source => do
    let value ← m.operand source
    return .compare (order.apply (m.registers.read r) value)
  | .twoForm (.shift op) r source =>
    .ok (.result r (op.apply (m.registers.read r) (m.shiftCount source)) false)
  | .registerAddress .store r a =>
    let address := m.registers.effective a
    guarded address (.store address (m.registers.read r))
  | .registerAddress .loadAddress r a => .ok (.result r (m.registers.effective a) false)
  | .address (.jump condition) a =>
    .ok (.branch (m.registers.effective a) (condition.holds m.flags))
  | .address .push a => guarded (m.sp - 1) (.push (m.sp - 1) (m.registers.effective a))
  | .address .call a => guarded (m.sp - 1) (.call (m.registers.effective a) next)
  | .address .supervisor a => .ok (.supervisor (m.registers.effective a))
  | .register .pop r => do
    let value ← m.read m.sp
    return .pop r value
  | .bare .nop => .ok .idle
  | .bare .ret =>
    if m.sp = stackEmpty then .ok .halt
    else do
      let target ← m.read m.sp
      return .ret target
  | .bare .halt => .ok .halt

/-- The machine after a supervisor call. The host gets all memory but the last cell, which is put
back after it. -/
def callSupervisor (svc : Supervisor σ) (code : Word) : Machine σ → Machine σ
  | ⟨registers, memory, sp, pc, flags, status, steps, stop, trace, host⟩ =>
    let (cells, last) := memory.unsnoc
    let (view, host) := svc code ⟨registers, cells⟩ host
    ⟨view.registers, view.memory.push last, sp, pc, flags, status, steps, stop, trace, host⟩

/-- The machine after an effect; `next` is the address after the instruction. -/
def perform (svc : Supervisor σ) (next : Word) (m : Machine σ) : Effect → Machine σ
  | .idle => { m with pc := next }
  | .result r value overflow =>
    { m with registers := m.registers.write r value, flags := .ofResult value overflow, pc := next }
  | .compare order => { m with flags := .ofOrdering order, pc := next }
  | .store address value => { m with memory := m.memory.write address value, pc := next }
  | .branch target taken => { m with pc := if taken then target else next }
  | .push address value =>
    { m with memory := m.memory.write address value, sp := address, pc := next }
  | .pop r value =>
    { m with registers := m.registers.write r value, sp := m.sp + 1, pc := next }
  | .call target back =>
    { m with memory := m.memory.write (m.sp - 1) back, sp := m.sp - 1, pc := target }
  | .ret target => { m with sp := m.sp + 1, pc := target }
  | .supervisor code => { m.callSupervisor svc code with pc := next }
  | .halt => { m with status := .halted, pc := next }

/-- The instruction at the program counter and what it does. -/
def upcoming (m : Machine σ) : Except Fault (Fetched × Effect) := do
  let fetched ← m.fetch
  let effect ← m.effect fetched.next fetched.instr
  return (fetched, effect)

/-- The machine after an instruction, counted and recorded. -/
def commit (svc : Supervisor σ) (fetched : Fetched) (effect : Effect) (m : Machine σ) :
    Machine σ :=
  let m := m.perform svc fetched.next effect
  { m with
    steps := m.steps + 1
    trace := m.trace.map fun entries => entries.push (fetched.entry effect m.flags) }

/-- Executes one instruction. A machine that does not run stays as it is, and one whose program
counter has left the program halts. -/
def step (svc : Supervisor σ) (m : Machine σ) : Except (Stopped σ) (Machine σ) :=
  if m.status ≠ .running then .ok m
  else if m.stop ≤ m.pc then .ok { m with status := .halted }
  else
    match m.upcoming with
    | .error fault => .error ⟨fault, { m with status := .faulted }⟩
    | .ok (fetched, effect) => .ok (m.commit svc fetched effect)

end Machine

end Comet
