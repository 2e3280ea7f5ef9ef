import Comet.Cli.Script

/-!
# The command line program

Takes the script of the arguments' request to the console and the file system.
-/

namespace Comet

/-- Takes the actions of a script in order; the result is the exit code. -/
def performActions : List Action → IO UInt32
  | [] => return 0
  | .print text :: rest => do
    IO.print text
    performActions rest
  | .printTrace text :: rest => do
    IO.eprint text
    performActions rest
  | .fail message :: _ => do
    IO.eprintln ("Error: " ++ message)
    return 1
  | .save path bytes :: rest => do
    match ← (IO.FS.writeBinFile path ⟨bytes.toArray⟩).toBaseIO with
    | .ok _ => performActions rest
    | .error e =>
      IO.eprintln ("Error: " ++ toString e)
      return 1

def readContents (path : String) : IO (Option (List UInt8)) := do
  match ← (IO.FS.readBinFile path).toBaseIO with
  | .ok bytes => return some bytes.data.toList
  | .error _ => return none

def readEnvironment : IO (String → Option String) := do
  let stepLimit ← IO.getEnv "CASL_STEP_LIMIT"
  let trace ← IO.getEnv "CASL_TRACE"
  let color ← IO.getEnv "CLICOLOR_FORCE"
  return fun name =>
    if name = "CASL_STEP_LIMIT" then stepLimit
    else if name = "CASL_TRACE" then trace
    else if name = "CLICOLOR_FORCE" then color
    else none

end Comet

open Comet in
def main (arguments : List String) : IO UInt32 := do
  match Request.ofArguments? arguments with
  | .error e =>
    IO.eprintln ("error: " ++ e.message)
    return 2
  | .ok request =>
    let contents ←
      match request.input? with
      | some path => readContents path
      | none => pure none
    let environment ← readEnvironment
    performActions (request.script (Surroundings.ofEnvironment environment) contents)
