import Comet.Instr.Basic

/-!
# Memory and registers

Memory has a cell for every word-sized address; reading and writing it by address is total
(`Memory.read_write`). Which addresses a program may use is up to the machine.
-/

namespace Comet

abbrev memorySize : Nat := 0x10000

/-- All cells of the machine. -/
abbrev Memory := Vector Word memorySize

abbrev Registers := Vector Word 8

namespace Memory

def read (memory : Memory) (address : Word) : Word :=
  have inside : address.toNat < memorySize := address.toNat_lt
  memory[address.toNat]

def write (memory : Memory) (address value : Word) : Memory :=
  memory.set address.toNat value address.toNat_lt

/-- Splits off the last cell, which no program can use. Both parts are computed at once, so that
memory which nothing else holds is not copied. -/
@[noinline] def unsnoc (memory : Memory) : Vector Word 0xFFFF × Word :=
  let last := memory.back
  (memory.pop, last)

/-- Memory that holds these words from address 0 on and zeros after them. -/
def ofWords (words : Array Word) : Memory := Vector.ofFn fun i => words.getD i.val 0

theorem read_ofWords (words : Array Word) (address : Word) :
    (ofWords words).read address = words.getD address.toNat 0 := by
  simp [read, ofWords]

theorem read_write (memory : Memory) (address value other : Word) :
    (memory.write address value).read other =
      if address = other then value else memory.read other := by
  simp [read, write, Vector.getElem_set, UInt16.toNat_inj]

end Memory

namespace Registers

def read (registers : Registers) (r : Reg) : Word := registers[r]

def write (registers : Registers) (r : Reg) (value : Word) : Registers :=
  registers.set r.val value r.isLt

theorem read_write (registers : Registers) (r other : Reg) (value : Word) :
    (registers.write r value).read other = if r = other then value else registers.read other := by
  simp [read, write, Vector.getElem_set, Fin.ext_iff]

/-- The address that an operand stands for: its base plus its index register, GR0 adding nothing. -/
def effective (registers : Registers) (a : Address) : Word :=
  if a.index = noIndex then a.base else a.base + registers.read a.index

end Registers

end Comet
