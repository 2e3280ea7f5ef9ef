/-!
# File paths

Paths as text, their components between slashes. The extension of a file name is what follows its
last dot; a dot that begins the name does not start an extension.
-/

namespace Comet.Path

/-- A path, in reverse, without slashes and current-directory components at its end. -/
def withoutTail : List Char → List Char
  | '/' :: cs => withoutTail cs
  | '.' :: '/' :: cs => withoutTail cs
  | cs => cs

/-- The name that a path ends in, if it names anything but a directory relative to another. -/
def fileName? (path : String) : Option (List Char) :=
  let name := ((withoutTail path.toList.reverse).takeWhile (· ≠ '/')).reverse
  if name = [] ∨ name = ['.'] ∨ name = ['.', '.'] then none else some name

/-- Splits a file name at its last dot. -/
def splitExtension (name : List Char) : List Char × Option (List Char) :=
  let reversed := name.reverse
  match reversed.dropWhile (· ≠ '.') with
  | '.' :: c :: stem => ((c :: stem).reverse, some (reversed.takeWhile (· ≠ '.')).reverse)
  | _ => (name, none)

/-- The extension of the file that a path names. -/
def extension? (path : String) : Option String := do
  let name ← fileName? path
  let extension ← (splitExtension name).2
  return String.ofList extension

/-- The path after taking off as many characters at its end as the extension of its file has. A path
that ends in the name of its file loses the extension and keeps the dot. -/
def dropExtension (path : String) : String :=
  match extension? path with
  | none => path
  | some old => String.ofList (path.toList.take (path.length - old.length))

/-- The path with the extension of its file set, in place of one it has. A path that names no file
stays as it is. -/
def setExtension (path extension : String) : String :=
  match fileName? path with
  | none => path
  | some name =>
    let folder := ((withoutTail path.toList.reverse).drop name.length).reverse
    String.ofList (folder ++ (splitExtension name).1) ++ "." ++ extension

/-- The path with the extension of its file replaced, or added if there is none. The old extension
goes first, so that a name that is then left as two dots names no file and gets no extension. -/
def withExtension (path extension : String) : String := setExtension (dropExtension path) extension

/-- Splits a path at slashes onto the components already split off, all in reverse. -/
def componentsOnto (done : List String) (current : List Char) : List Char → List String
  | [] => (String.ofList current.reverse :: done).reverse
  | c :: cs =>
    if c = '/' then componentsOnto (String.ofList current.reverse :: done) [] cs
    else componentsOnto done (c :: current) cs

/-- The components of a path between its slashes, empty ones included. -/
def components (path : String) : List String := componentsOnto [] [] path.toList

/-- Whether a path starts at the root. -/
def isAbsolute (path : String) : Bool := path.toList.head? == some '/'

end Comet.Path
