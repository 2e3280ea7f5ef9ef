import Comet.Instr.Opcode

/-!
# Mnemonics

What may stand in the instruction column of a statement: a directive to the assembler or a machine
instruction. A mnemonic is known by its name (`ofName?_name`), and the names are case sensitive.
-/

namespace Comet

/-- Instructions to the assembler itself. -/
inductive Directive
  | start
  | finish
  | storage
  | constant
  deriving DecidableEq, Repr

namespace Directive

def all : List Directive := [start, finish, storage, constant]

def name : Directive → String
  | start => "START"
  | finish => "END"
  | storage => "DS"
  | constant => "DC"

/-- The fewest words that the directive emits: constants are at least one, storage may be empty. -/
def leastWords : Directive → Nat
  | constant => 1
  | start | finish | storage => 0

end Directive

inductive Arity
  | none
  | one
  | atMostOne
  | oneOrTwo
  | twoOrThree
  | atLeastOne
  deriving DecidableEq, Repr

namespace Arity

def admits : Arity → Nat → Bool
  | none, n => n == 0
  | one, n => n == 1
  | atMostOne, n => n ≤ 1
  | oneOrTwo, n => 1 ≤ n && n ≤ 2
  | twoOrThree, n => 2 ≤ n && n ≤ 3
  | atLeastOne, n => 1 ≤ n

/-- The accepted counts as an error message gives them. -/
def text : Arity → String
  | none => "no"
  | one => "1"
  | atMostOne => "at most 1"
  | oneOrTwo => "1 or 2"
  | twoOrThree => "2 or 3"
  | atLeastOne => "at least 1"

end Arity

inductive Mnemonic
  | directive (d : Directive)
  | machine (op : Opcode)
  deriving DecidableEq, Repr

namespace Mnemonic

/-- Every mnemonic, directives first. -/
def all : List Mnemonic := Directive.all.map directive ++ Opcode.all.map machine

def name : Mnemonic → String
  | directive d => d.name
  | machine op => op.name

/-- The fewest words that a statement with this mnemonic emits. -/
def leastWords : Mnemonic → Nat
  | directive d => d.leastWords
  | machine op => op.words

def arity : Mnemonic → Arity
  | machine (.twoForm _) | machine (.registerAddress _) => .twoOrThree
  | machine (.address _) => .oneOrTwo
  | machine (.register _) | directive .storage => .one
  | machine (.bare _) | directive .finish => .none
  | directive .start => .atMostOne
  | directive .constant => .atLeastOne

def ofName? (name : String) : Option Mnemonic := all.find? (·.name == name)

theorem mem_all (m : Mnemonic) : m ∈ all := by
  rcases m with d | op
  · cases d <;> decide
  · exact List.mem_append_right _ (List.mem_map_of_mem (Opcode.mem_all op))

theorem name_of_ofName? {name : String} {m : Mnemonic} (h : ofName? name = some m) :
    m.name = name := by
  simpa using List.find?_some h

@[simp] theorem ofName?_name (m : Mnemonic) : ofName? m.name = some m := by
  have key : ∀ m ∈ all, ofName? m.name = some m := by decide
  exact key m (mem_all m)

end Mnemonic

end Comet
