import Comet.Cli.Directory
import Comet.Cli.Script

/-!
# Sessions

A session takes a command line to its outcome inside a `Directory`: exit code, printed text and the
files afterwards. Refused arguments end with code 2, a failed script with code 1.
-/

namespace Comet

structure Outcome (here : List String := []) where
  code : Nat := 0
  output : String := ""
  trace : String := ""
  directory : Directory here
  deriving DecidableEq, Repr

variable {here : List String}

namespace Outcome

/-- Takes the actions of a script in order, until one fails. -/
def perform (o : Outcome here) : List Action → Outcome here
  | [] => o
  | .print text :: rest => perform { o with output := o.output ++ text } rest
  | .printTrace text :: rest => perform { o with trace := o.trace ++ text } rest
  | .fail _ :: _ => { o with code := 1 }
  | .save path bytes :: rest =>
    match o.directory.write? path bytes with
    | none => { o with code := 1 }
    | some directory => perform { o with directory } rest

end Outcome

/-- Runs a command line in a directory. -/
def Directory.execute (d : Directory here) (environment : String → Option String)
    (arguments : List String) : Outcome here :=
  match Request.ofArguments? arguments with
  | .error _ => { code := 2, directory := d }
  | .ok request =>
    let contents := request.input?.bind d.read?
    let around := Surroundings.ofEnvironment environment
    Outcome.perform { directory := d } (request.script around contents)

end Comet
