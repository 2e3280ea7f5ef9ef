import Comet.Image.Basic
import Comet.Machine.Memory
import Comet.Machine.Trace

/-!
# The machine

The machine has eight registers, memory, a stack pointer, a program counter and flags. It is loaded
with an image at address 0 and runs until the program halts it, until the program counter leaves the
image, or until a fault. The address `0xFFFF` holds no memory: every access to it is a fault, and a
stack pointer there means an empty stack.

A supervisor is the host's side of `SVC`. Its own state is carried in the machine as `host`.
-/

namespace Comet

variable {σ τ : Type}

/-- The stack pointer of an empty stack. -/
def stackEmpty : Word := 0xFFFF

/-- Whether a machine still executes instructions. -/
inductive Status
  | running
  | halted
  | faulted
  deriving DecidableEq, Repr

inductive Fault
  /-- The word at `address` has no instruction for its opcode. -/
  | illegalOpcode (opcode : UInt8) (address : Word)
  /-- A register field of the instruction at `address` names no register. -/
  | illegalRegister (field : Nat) (address : Word)
  /-- An access to the one address without memory. -/
  | outOfBounds (address : Word)
  /-- The program still runs after this many instructions. -/
  | stepLimit (limit : Nat)
  deriving DecidableEq, Repr

namespace Fault

def text : Fault → String
  | illegalOpcode opcode address =>
    "illegal opcode " ++ String.ofList (hexDigits 2 opcode.toNat) ++ " at address " ++ address.hex
  | illegalRegister field address =>
    "illegal register " ++ Nat.repr field ++ " at address " ++ address.hex
  | outOfBounds address => "memory access out of bounds at " ++ address.hex
  | stepLimit limit => "step limit of " ++ Nat.repr limit ++ " instructions exceeded"

end Fault

/-- The state of the machine, with a host state of type `σ`. -/
structure Machine (σ : Type) where
  registers : Registers
  memory : Memory
  sp : Word
  pc : Word
  flags : Flags
  status : Status
  steps : Nat
  /-- The first address after the loaded program; reaching it ends execution. -/
  stop : Word
  /-- The executed instructions, if they are recorded. -/
  trace : Option (Array TraceEntry)
  host : σ

/-- What a supervisor may read and change: the registers and all memory there is. -/
structure HostView where
  registers : Registers
  memory : Vector Word 0xFFFF

/-- The host's side of a supervisor call, given the code of the call. -/
abbrev Supervisor (σ : Type) := (code : Word) → HostView → σ → HostView × σ

def Supervisor.idle : Supervisor σ := fun _ view host => (view, host)

/-- A machine stopped by a fault, as it was when the fault arose. -/
structure Stopped (σ : Type) where
  fault : Fault
  machine : Machine σ

def Stopped.message (s : Stopped σ) : String :=
  s.fault.text ++ " (PC " ++ s.machine.pc.hex ++ ")"

namespace Machine

/-- The machine with an image loaded, about to execute the instruction at its entry. -/
def load (image : Image) (host : σ) : Machine σ where
  registers := Vector.replicate 8 0
  memory := Memory.ofWords image.words
  sp := stackEmpty
  pc := image.entry
  flags := {}
  status := .running
  steps := 0
  stop := UInt16.ofNat image.size
  trace := none
  host

def withEntry (m : Machine σ) (entry : Word) : Machine σ := { m with pc := entry }

/-- Records instructions from now on, forgetting any recorded before. -/
def withTrace (m : Machine σ) : Machine σ := { m with trace := some #[] }

def withHost (m : Machine σ) (host : τ) : Machine τ := { m with host }

/-- Sets a register; the flags stay. -/
def setRegister (m : Machine σ) (r : Reg) (value : Word) : Machine σ :=
  { m with registers := m.registers.write r value }

/-- The recorded instructions, none if recording is off. -/
def entries (m : Machine σ) : Array TraceEntry := m.trace.getD #[]

end Machine

end Comet
