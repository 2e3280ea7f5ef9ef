import Comet.Text.Blank
import Comet.Text.Numeral

/-!
# Settings from the environment

Two environment variables change how programs run. They are read once, when the process starts, and
kept in a cell that refuses to be filled twice or read while it is empty.
-/

namespace Comet

structure Settings where
  /-- The limit on executed instructions, if one is given. -/
  stepLimit : Option Nat := none
  trace : Bool := false
  deriving DecidableEq, Repr

/-- Reads a number of instructions: a numeral below `2 ^ 64`. -/
def stepCount? (text : List Char) : Option Nat := Numeral.unsigned? .decimal UInt64.size text

namespace Settings

/-- Reads the settings from the variables that are set. A limit may have blanks around it, and one
that is no number is as good as none. -/
def ofEnvironment (environment : String → Option String) : Settings where
  stepLimit := (environment "CASL_STEP_LIMIT").bind fun text => stepCount? (Text.trim text.toList)
  trace := environment "CASL_TRACE" == some "1"

/-- The instructions that a program may execute unless something else is set. -/
def defaultStepLimit : Nat := 1000000

end Settings

/-- A place for settings, empty until they are read. -/
structure SettingsCell where
  settings : Option Settings := none
  deriving DecidableEq, Repr

inductive SettingsError
  | filledTwice
  | empty
  deriving DecidableEq, Repr

namespace SettingsError

def message : SettingsError → String
  | filledTwice => "tried to initialize environment state multiple times"
  | empty => "tried to access environment state before initialization"

end SettingsError

namespace SettingsCell

def fill (cell : SettingsCell) (settings : Settings) : Except SettingsError SettingsCell :=
  if cell.settings.isSome then .error .filledTwice else .ok ⟨some settings⟩

def get (cell : SettingsCell) : Except SettingsError Settings :=
  match cell.settings with
  | some settings => .ok settings
  | none => .error .empty

end SettingsCell

end Comet
