import Comet.Cli.Path

/-!
# Directories

A directory tree as a value, for running commands without a file system, as it looks from a working
directory. Paths are looked up component by component, so that what stands before a slash has to be
a directory: absolute ones from the root, others from the working directory. Names and paths that
are too long lead nowhere.
-/

namespace Comet

/-- A tree of files, each under the components of its path from the root. The components `here` lead
to the working directory, which no command changes. It exists, as do the directories that it is in
and the root; any other directory exists as far as it holds files. -/
structure Directory (here : List String := []) where
  files : List (List String × List UInt8) := []
  deriving DecidableEq, Repr

namespace Directory

variable {here : List String}

/-- The bytes that a file name may take. -/
def nameLimit : Nat := 255

/-- The bytes that a path may take. -/
def pathLimit : Nat := 4095

def file? (d : Directory here) (place : List String) : Option (List UInt8) := d.files.lookup place

def isDirectory (d : Directory here) (place : List String) : Bool :=
  place.isPrefixOf here || d.files.any fun (other, _) =>
    place.length < other.length && other.take place.length == place

/-- Follows the components of a path from a place. Nothing is above the root but itself. -/
def follow? (d : Directory here) (place : List String) : List String → Option (List String)
  | [] => some place
  | name :: rest =>
    if d.isDirectory place = false then none
    else if name = "" ∨ name = "." then d.follow? place rest
    else if name = ".." then d.follow? place.dropLast rest
    else if nameLimit < name.utf8ByteSize then none
    else d.follow? (place ++ [name]) rest

def resolve? (d : Directory here) (path : String) : Option (List String) :=
  if pathLimit < path.utf8ByteSize then none
  else d.follow? (if Path.isAbsolute path then [] else here) (Path.components path)

/-- The contents of the file that a path leads to. -/
def read? (d : Directory here) (path : String) : Option (List UInt8) :=
  (d.resolve? path).bind d.file?

/-- The directory after writing a file; fails where no file can be written. -/
def write? (d : Directory here) (path : String) (bytes : List UInt8) :
    Option (Directory here) := do
  let place ← d.resolve? path
  if d.isDirectory place then none
  else return ⟨(place, bytes) :: d.files.filter fun (other, _) => other != place⟩

end Directory

end Comet
