import Comet.Word

/-!
# Symbol tables

A symbol table binds labels to addresses. It keeps the order in which labels were defined, and a
label keeps its first address.
-/

namespace Comet

/-- Labels and their addresses, in order of definition. -/
structure SymbolTable where
  entries : List (String × Word) := []
  deriving DecidableEq, Repr

namespace SymbolTable

def empty : SymbolTable := {}

def get? (table : SymbolTable) (label : String) : Option Word := table.entries.lookup label

/-- Binds a label that is not bound yet. -/
def define? (table : SymbolTable) (label : String) (address : Word) : Option SymbolTable :=
  if (table.get? label).isSome then none else some ⟨table.entries ++ [(label, address)]⟩

def size (table : SymbolTable) : Nat := table.entries.length

/-- The table that binds each label of a list to its first address. -/
def ofList (bindings : List (String × Word)) : SymbolTable :=
  bindings.foldl (fun table (label, address) => (table.define? label address).getD table) empty

/-- Whether two tables bind the same labels to the same addresses, in any order. -/
def sameBindings (a b : SymbolTable) : Bool :=
  a.size == b.size && a.entries.all fun (label, address) => b.get? label == some address

@[simp] theorem get?_empty (label : String) : empty.get? label = none := rfl

end SymbolTable

end Comet
