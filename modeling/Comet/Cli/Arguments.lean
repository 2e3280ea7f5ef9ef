import Comet.Settings
import Comet.Word

/-!
# Command line arguments

Arguments ask for a subcommand with its options, or name a file to run. Options are read from left
to right; `--` ends them, and what is left stands for file names. Long options are spelled out and
may hold a value after `=`; short ones may be joined, the last of them taking a value.
`Request.ofArguments?` refuses arguments with a `UsageError`.
-/

namespace Comet

/-- How a program is to be run. -/
structure RunOptions where
  steps : Option Nat := none
  trace : Bool := false
  minimal : Bool := false
  /-- The address to start at instead of the program's own. -/
  entry : Option Word := none
  deriving DecidableEq, Repr

inductive Request
  | banner
  | version
  | help
  | run (path : String) (options : RunOptions)
  | compile (path : String) (target : Option String)
  | check (path : String)
  | dump (path : String)
  deriving DecidableEq, Repr

inductive UsageError
  | unexpected (argument : String)
  | missingValue (option : String)
  | invalidValue (option value : String)
  | repeated (option : String)
  | unwantedValue (option : String)
  | emptyName
  | missingName
  deriving DecidableEq, Repr

namespace UsageError

def message : UsageError → String
  | unexpected argument => "unexpected argument " ++ argument
  | missingValue option => "a value is required for " ++ option
  | invalidValue option value => "invalid value " ++ value ++ " for " ++ option
  | repeated option => option ++ " cannot be used multiple times"
  | unwantedValue option => option ++ " takes no value"
  | emptyName => "a file name is empty"
  | missingName => "a file name is required"

end UsageError

inductive Subcommand
  | run
  | compile
  | check
  | dump
  deriving DecidableEq, Repr

inductive Flag
  | steps
  | trace
  | minimal
  | entry
  | help
  deriving DecidableEq, Repr

namespace Flag

/-- The name after two dashes. -/
def long : Flag → String
  | steps => "steps"
  | trace => "trace"
  | minimal => "minimal"
  | entry => "entry"
  | help => "help"

/-- The letter after one dash. -/
def short : Flag → Char
  | steps => 's'
  | trace => 't'
  | minimal => 'm'
  | entry => 'e'
  | help => 'h'

def takesValue : Flag → Bool
  | steps | entry => true
  | trace | minimal | help => false

end Flag

namespace Subcommand

def all : List Subcommand := [run, compile, check, dump]

def name : Subcommand → String
  | run => "run"
  | compile => "compile"
  | check => "check"
  | dump => "dump"

def ofName? (name : String) : Option Subcommand := all.find? (·.name == name)

def flags : Subcommand → List Flag
  | run => [.steps, .trace, .minimal, .entry, .help]
  | compile | check | dump => [.help]

/-- The file names that the subcommand takes at most. -/
def mostNames : Subcommand → Nat
  | compile => 2
  | run | check | dump => 1

end Subcommand

/-- Reads an address: a decimal numeral, or a hexadecimal one after `#`. -/
def address? (text : List Char) : Option Word :=
  let number? :=
    match text with
    | '#' :: digits => Numeral.unsigned? .hexadecimal 0x10000 digits
    | digits => Numeral.unsigned? .decimal 0x10000 digits
  number?.map UInt16.ofNat

/-- An argument by its shape. -/
inductive ArgumentShape
  /-- Two dashes alone: only file names follow. -/
  | endOfOptions
  /-- Two dashes and a name, perhaps with a value after `=`. -/
  | long (name : String) (value : Option String)
  /-- One dash and letters. -/
  | short (letters : List Char)
  | plain
  deriving DecidableEq, Repr

/-- The shape of an argument. A dash alone is plain. -/
def ArgumentShape.of (argument : String) : ArgumentShape :=
  match argument.toList with
  | ['-', '-'] => endOfOptions
  | '-' :: '-' :: rest =>
    let name := String.ofList (rest.takeWhile (· ≠ '='))
    match rest.dropWhile (· ≠ '=') with
    | '=' :: value => long name (some (String.ofList value))
    | _ => long name none
  | '-' :: c :: letters => short (c :: letters)
  | _ => plain

/-- What has been read of the arguments of a subcommand. -/
structure Draft where
  names : List String := []
  options : RunOptions := {}
  deriving DecidableEq, Repr

namespace Draft

def addName (d : Draft) (command : Subcommand) (name : String) : Except UsageError Draft :=
  if command.mostNames ≤ d.names.length then .error (.unexpected name)
  else if name = "" then .error .emptyName
  else .ok { d with names := d.names ++ [name] }

def switch (d : Draft) (flag : Flag) : Except UsageError Draft :=
  match flag with
  | .trace =>
    if d.options.trace then .error (.repeated flag.long)
    else .ok { d with options := { d.options with trace := true } }
  | .minimal =>
    if d.options.minimal then .error (.repeated flag.long)
    else .ok { d with options := { d.options with minimal := true } }
  | .steps | .entry | .help => .ok d

def assign (d : Draft) (flag : Flag) (value : String) : Except UsageError Draft :=
  match flag with
  | .steps =>
    if d.options.steps.isSome then .error (.repeated flag.long)
    else
      match stepCount? value.toList with
      | none => .error (.invalidValue flag.long value)
      | some steps => .ok { d with options := { d.options with steps := some steps } }
  | .entry =>
    if d.options.entry.isSome then .error (.repeated flag.long)
    else
      match address? value.toList with
      | none => .error (.invalidValue flag.long value)
      | some entry => .ok { d with options := { d.options with entry := some entry } }
  | .trace | .minimal | .help => .ok d

def request (d : Draft) (command : Subcommand) : Except UsageError Request :=
  match command, d.names with
  | _, [] => .error .missingName
  | .run, name :: _ => .ok (.run name d.options)
  | .compile, name :: rest => .ok (.compile name rest.head?)
  | .check, name :: _ => .ok (.check name)
  | .dump, name :: _ => .ok (.dump name)

end Draft

/-- How reading goes on after an option. -/
inductive OptionStep
  | proceed (draft : Draft)
  /-- The next argument is the value of the option. -/
  | awaitValue (flag : Flag) (draft : Draft)
  | help
  deriving DecidableEq, Repr

namespace Subcommand

def longOption (command : Subcommand) (d : Draft) (name : String) (value : Option String) :
    Except UsageError OptionStep :=
  match command.flags.find? (·.long == name), value with
  | none, _ => .error (.unexpected name)
  | some flag, none =>
    if flag = .help then .ok .help
    else if flag.takesValue then .ok (.awaitValue flag d)
    else (d.switch flag).map .proceed
  | some flag, some value =>
    if flag.takesValue then (d.assign flag value).map .proceed
    else .error (.unwantedValue name)

/-- Reads joined short options; a value may follow the last one directly or after `=`. -/
def shortOptions (command : Subcommand) (d : Draft) : List Char → Except UsageError OptionStep
  | [] => .ok (.proceed d)
  | letter :: rest =>
    match command.flags.find? (·.short == letter) with
    | none => .error (.unexpected (String.ofList [letter]))
    | some flag =>
      if flag = .help then .ok .help
      else if flag.takesValue then
        match rest with
        | [] => .ok (.awaitValue flag d)
        | '=' :: value => (d.assign flag (String.ofList value)).map .proceed
        | value => (d.assign flag (String.ofList value)).map .proceed
      else
        match d.switch flag with
        | .error e => .error e
        | .ok d => command.shortOptions d rest

/-- Reads the arguments of a subcommand onto what has been read. -/
def requestOnto (command : Subcommand) (d : Draft) (namesOnly : Bool) :
    List String → Except UsageError Request
  | [] => d.request command
  | argument :: rest =>
    let shape := if namesOnly then .plain else ArgumentShape.of argument
    let step : Except UsageError OptionStep :=
      match shape with
      | .endOfOptions => .ok (.proceed d)
      | .long name value => command.longOption d name value
      | .short letters => command.shortOptions d letters
      | .plain => (d.addName command argument).map .proceed
    match step, rest with
    | .error e, _ => .error e
    | .ok .help, _ => .ok .help
    | .ok (.proceed d), rest => command.requestOnto d (namesOnly || shape = .endOfOptions) rest
    | .ok (.awaitValue flag _), [] => .error (.missingValue flag.long)
    | .ok (.awaitValue flag d), value :: rest =>
      if ArgumentShape.of value = .plain then
        match d.assign flag value with
        | .error e => .error e
        | .ok d => command.requestOnto d namesOnly rest
      else .error (.missingValue flag.long)

end Subcommand

namespace Request

/-- Reads what may follow the word `help`. -/
def helpTopic : List String → Except UsageError Request
  | [] => .ok .help
  | [topic] =>
    if topic = "help" ∨ (Subcommand.ofName? topic).isSome then .ok .help
    else .error (.unexpected topic)
  | _ :: argument :: _ => .error (.unexpected argument)

/-- Reads arguments after the file name to run, if one has been read. A subcommand is recognised
even after it. -/
def ofArgumentsAfter (path : Option String) (namesOnly : Bool) :
    List String → Except UsageError Request
  | [] =>
    match path with
    | none => .ok .banner
    | some path => .ok (.run path {})
  | argument :: rest =>
    let shape := if namesOnly then .plain else ArgumentShape.of argument
    match shape with
    | .endOfOptions => ofArgumentsAfter path true rest
    | .long name value =>
      if value.isSome then .error (.unexpected argument)
      else if name = "help" then .ok .help
      else if name = "version" then .ok .version
      else .error (.unexpected argument)
    | .short letters =>
      if letters.head? = some 'h' then .ok .help
      else if letters.head? = some 'V' then .ok .version
      else .error (.unexpected argument)
    | .plain =>
      match if namesOnly then none else Subcommand.ofName? argument with
      | some command => command.requestOnto {} false rest
      | none =>
        if namesOnly = false ∧ argument = "help" then helpTopic rest
        else if path.isSome then .error (.unexpected argument)
        else if argument = "" then .error .emptyName
        else ofArgumentsAfter (some argument) namesOnly rest

def ofArguments? (arguments : List String) : Except UsageError Request :=
  ofArgumentsAfter none false arguments

end Request

end Comet
