import Comet.Instr.Basic
import Comet.Machine.Flags

/-!
# Effects and traces

An effect is what one instruction does to the machine, settled before anything changes. A trace
entry records an executed instruction: its address and words, its effect and the flags it left.
-/

namespace Comet

inductive Effect
  | idle
  /-- Stores a value in a register and sets the flags by it. -/
  | result (r : Reg) (value : Word) (overflow : Bool)
  /-- Sets the flags by the order of two words. -/
  | compare (order : Ordering)
  | store (address value : Word)
  | branch (target : Word) (taken : Bool)
  /-- Stores a value at an address, which becomes the top of the stack. -/
  | push (address value : Word)
  /-- Moves the top of the stack, which is `value`, to a register. -/
  | pop (r : Reg) (value : Word)
  /-- Pushes the address to return to and goes to `target`. -/
  | call (target back : Word)
  /-- Goes to the address on top of the stack, which is `target`. -/
  | ret (target : Word)
  | supervisor (code : Word)
  | halt
  deriving DecidableEq, Repr

namespace Effect

def text : Effect → String
  | idle => ""
  | result r value _ | pop r value => r.name ++ " <- " ++ value.hex
  | compare _ => "compare"
  | store address value | push address value => "[" ++ address.hex ++ "] <- " ++ value.hex
  | branch target true => "jump " ++ target.hex
  | branch _ false => "no jump"
  | call target back => "call " ++ target.hex ++ " (return " ++ back.hex ++ ")"
  | ret target => "return " ++ target.hex
  | supervisor code => "svc " ++ code.hex
  | halt => "halt"

end Effect

structure TraceEntry where
  address : Word
  /-- The first word of the instruction. -/
  word : Word
  /-- The address word, if the instruction has one. -/
  operand : Option Word
  opcode : Opcode
  effect : Effect
  flags : Flags
  deriving DecidableEq, Repr

end Comet
