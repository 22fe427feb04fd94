import GateFusion.Command.FileFault

/-!
# Directories

A directory held in memory, and the rules by which paths lead into it. A path is followed name by
name, and every name but the last has to be that of a directory. Of what lies outside nothing is
known: no file is found there, and what is written there is lost.
-/

namespace GateFusion.Command

/-- Where a directory lies: at the end of some names, or outside. -/
inductive Location where
  | inside (names : List String)
  | outside
deriving DecidableEq

/-- Where a path leads: to a directory, to a file, or to a name that a directory does not have. -/
inductive Place where
  | directory (here : Location)
  | file (names : List String) (text : String)
  | vacant (parent : Location) (name : String)

/-- A directory in memory: the texts of its files by the names that lead to them. -/
structure Directory where
  files : List (List String × String)

namespace Directory

/-- The directory with the given files; names are parted by slashes. -/
def ofFiles (files : List (String × String)) : Directory :=
  ⟨files.map fun f => (f.1.splitOn "/", f.2)⟩

def find (d : Directory) (here : Location) (name : String) : Except FileFault Place :=
  if 255 < name.utf8ByteSize then .error .nameTooLong
  else
    match here with
    | .outside => .ok (.vacant .outside name)
    | .inside names =>
      let full := names ++ [name]
      match d.files.lookup full with
      | some text => .ok (.file full text)
      | none =>
        if d.files.any fun f => full.isPrefixOf f.1 then .ok (.directory (.inside full))
        else .ok (.vacant here name)

/-- Follow one name of a path. A single point stays, two points lead up. -/
def step (d : Directory) (place : Place) (name : String) : Except FileFault Place :=
  match place with
  | .file .. => .error .notDirectory
  | .vacant .. => .error .missing
  | .directory here =>
    if name = "" ∨ name = "." then .ok place
    else if name = ".." then
      match here with
      | .inside (first :: names) => .ok (.directory (.inside (first :: names).dropLast))
      | _ => .ok (.directory .outside)
    else d.find here name

def follow (d : Directory) (path : String) (names : List String) : Except FileFault Place :=
  if path = "" then .error .missing
  else if 4096 ≤ path.utf8ByteSize then .error .nameTooLong
  else
    let start := if path.startsWith "/" then .outside else .inside []
    names.foldlM d.step (.directory start)

def place (d : Directory) (path : String) : Except FileFault Place :=
  d.follow path (path.splitOn "/")

def present (d : Directory) (path : String) : Bool :=
  match d.place path with
  | .ok (.directory _) | .ok (.file ..) => true
  | _ => false

def readText (d : Directory) (path : String) : Except FileFault String := do
  match ← d.place path with
  | .file _ text => return text
  | .directory _ => throw .isDirectory
  | .vacant .. => throw .missing

def insert (d : Directory) (names : List String) (text : String) : Directory :=
  ⟨(names, text) :: d.files.filter fun f => f.1 ≠ names⟩

/-- Write a file. A path with a slash at its end can only be that of a directory. -/
def writeText (d : Directory) (path text : String) : Except FileFault Directory := do
  let names := (path.splitOn "/").reverse.dropWhile (· = "") |>.reverse
  match ← d.follow path names.dropLast with
  | .directory here =>
    if path.endsWith "/" then throw .isDirectory
    match ← d.step (.directory here) (names.getLast?.getD "") with
    | .directory _ => throw .isDirectory
    | .file names _ => return d.insert names text
    | .vacant (.inside names) name => return d.insert (names ++ [name]) text
    | .vacant .outside _ => return d
  | .file .. => throw .notDirectory
  | .vacant .. => throw .missing

end Directory

end GateFusion.Command
