import Comet.Assembly
import Comet.Cli.Arguments
import Comet.Cli.Path
import Comet.Display.RegisterTable
import Comet.Display.TraceLine
import Comet.Image.ObjectFile
import Comet.Machine.Run

/-!
# Scripts

What a request does, as a list of actions on the outside world: text to print, a file to save, an
error to end with. A request reads at most one file, and its contents are all that the script
depends on besides the request and the environment. Actions are taken in order, and the first that
fails ends the script.
-/

namespace Comet

open Text (Appearance Style)

inductive Action
  | print (text : String)
  /-- Prints a line about an executed instruction, apart from the output. -/
  | printTrace (text : String)
  | save (path : String) (bytes : List UInt8)
  | fail (message : String)
  deriving DecidableEq, Repr

/-- What a script depends on besides the request. -/
structure Surroundings where
  settings : Settings := {}
  color : Bool := false
  deriving DecidableEq, Repr

/-- Reads the environment. Colours are forced by any value but `0`. -/
def Surroundings.ofEnvironment (environment : String → Option String) : Surroundings where
  settings := Settings.ofEnvironment environment
  color := (environment "CLICOLOR_FORCE").any (· != "0")

/-- The text of a file, if its bytes are UTF-8. -/
def textOfBytes? (bytes : List UInt8) : Option String := String.fromUTF8? ⟨bytes.toArray⟩

namespace Script

/-- A line on the progress of a request. -/
def status (look : Appearance) (style : Style) (word text : String) : Action :=
  .print (look.paint style (Text.padLeft 12 word) ++ " " ++ text ++ "\n")

/-- A line on what is being done to a file. -/
def fileStatus (look : Appearance) (word path : String) : Action :=
  status look .green word ("target " ++ path)

/-- The error of a file that cannot be read or written. -/
def fileError (path : String) : Action := .fail ("cannot access file " ++ path)

/-- Assembles the source file with these contents, or says why that fails. -/
def assemble (path : String) (contents : Option (List UInt8)) : Except Action Assembly :=
  match contents with
  | none => .error (fileError path)
  | some bytes =>
    match textOfBytes? bytes with
    | none => .error (fileError path)
    | some source =>
      match Assembly.ofSource? source with
      | .error e => .error (.fail e.message)
      | .ok assembly => .ok assembly

/-- Loads the object file with these contents, or says why that fails. -/
def loadObject (path : String) (contents : Option (List UInt8)) : Except Action Image :=
  match contents with
  | none => .error (fileError path)
  | some bytes =>
    match Image.ofBytes? bytes with
    | .error e => .error (.fail e.message)
    | .ok image => .ok image

/-- The machine that runs an image with these options. -/
def machine (around : Surroundings) (options : RunOptions) (image : Image) : Machine Unit :=
  let m := (Machine.load image ()).withEntry (options.entry.getD image.entry)
  if options.trace || around.settings.trace then m.withTrace else m

/-- The limit on executed instructions: an option wins over the environment. -/
def stepLimit (around : Surroundings) (options : RunOptions) : Nat :=
  (options.steps.or around.settings.stepLimit).getD Settings.defaultStepLimit

/-- Runs an image and shows the outcome. -/
def runImage (around : Surroundings) (path : String) (options : RunOptions) (image : Image) :
    List Action :=
  let look : Appearance := ⟨options.minimal, around.color⟩
  let outcome := (machine around options image).run .idle (stepLimit around options)
  let m := Machine.finalState outcome
  status look .green "Running" "emitted binary" ::
    m.entries.toList.map (fun e => .printTrace (e.printed look)) ++
    .print (m.registerText look) ::
    match outcome with
    | .ok m =>
      [ status look .green "Halted" ("after " ++ Nat.repr m.steps ++ " instructions"),
        fileStatus look "Completed" path ]
    | .error stopped =>
      [ status look .red "Faulted" "execution stopped", .fail stopped.message ]

/-- Runs a file, which its extension says to be a source text or an object file. -/
def run (around : Surroundings) (path : String) (options : RunOptions)
    (contents : Option (List UInt8)) : List Action :=
  let look : Appearance := ⟨options.minimal, around.color⟩
  match Path.extension? path with
  | none => [.fail "File has no extension. Exiting..."]
  | some extension =>
    if extension = "com" then
      fileStatus look "Loading" path ::
        match loadObject path contents with
        | .error action => [action]
        | .ok image => runImage around path options image
    else if extension = "cas" then
      fileStatus look "Assembling" path ::
        match assemble path contents with
        | .error action => [action]
        | .ok assembly => runImage around path options assembly.image
    else [.fail "File has unknown extension. Exiting..."]

/-- Assembles a file and saves its image, by default beside it. -/
def compile (around : Surroundings) (path : String) (target : Option String)
    (contents : Option (List UInt8)) : List Action :=
  let look : Appearance := ⟨false, around.color⟩
  fileStatus look "Assembling" path ::
    match assemble path contents with
    | .error action => [action]
    | .ok assembly =>
      let target := target.getD (Path.withExtension path "com")
      [ .save target assembly.image.toBytes,
        status look .green "Finished" "emit binary",
        fileStatus look "Saved" target ]

/-- Assembles a file to see whether that succeeds. -/
def check (around : Surroundings) (path : String) (contents : Option (List UInt8)) :
    List Action :=
  let look : Appearance := ⟨false, around.color⟩
  fileStatus look "Checking" path ::
    match assemble path contents with
    | .error action => [action]
    | .ok _ => [status look .green "Success" "no errors found!"]

/-- Shows the listing of a file and its labels. -/
def dump (path : String) (contents : Option (List UInt8)) : List Action :=
  match assemble path contents with
  | .error action => [action]
  | .ok assembly => [.print (assembly.listing ++ "\n" ++ assembly.symbolLines)]

def version : String := "0.1.0"

/-- The greeting of a call without arguments. -/
def bannerText : String :=
  "\n~ casl v" ++ version ++ " ~\n" ++
    "\nWelcome to casl, an all-in-one toolchain for the CASL-II assembly language\n" ++
    "and the COMET-II machine it runs on.\n" ++
    "Please use `-h` or `--help` to access the usage instructions and documentation.\n\n"

def helpText : String :=
  "Usage: casl [PATH]\n" ++
    "       casl run [--steps N] [--trace] [--minimal] [--entry ADDRESS] NAME\n" ++
    "       casl compile NAME [DEST]\n" ++
    "       casl check NAME\n" ++
    "       casl dump NAME\n"

end Script

namespace Request

def input? : Request → Option String
  | run path _ | compile path _ | check path | dump path => some path
  | banner | version | help => none

/-- The script of a request, given the contents of the file it reads. -/
def script (around : Surroundings) (contents : Option (List UInt8)) : Request → List Action
  | banner => [.print Script.bannerText]
  | version => [.print ("casl " ++ Script.version ++ "\n")]
  | help => [.print Script.helpText]
  | run path options => Script.run around path options contents
  | compile path target => Script.compile around path target contents
  | check path => Script.check around path contents
  | dump path => Script.dump path contents

end Request

end Comet
