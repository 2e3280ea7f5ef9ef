/-!
# General registers

The eight registers GR0 to GR7. GR0 counts as "no index" wherever an index register is expected.
-/

namespace Comet

/-- A general register, by number. -/
abbrev Reg := Fin 8

namespace Reg

/-- The written name, `GR0` to `GR7`. -/
def name (r : Reg) : String := "GR" ++ Nat.repr r.val

def ofName? (name : String) : Option Reg := (List.finRange 8).find? (·.name == name)

@[simp] theorem ofName?_name (r : Reg) : ofName? r.name = some r := by
  revert r; decide

theorem name_of_ofName? {name : String} {r : Reg} (h : ofName? name = some r) : r.name = name := by
  simpa using List.find?_some h

end Reg

end Comet
