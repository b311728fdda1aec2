import Milp.Search.Error

/-!
# Directories of instances

Files with their texts lie in a tree of directories. A path names a file or a directory by its way
down from the top of the tree; paths are ordered name by name, so what lies in one directory stays
together. A directory is a place in the tree: it is there when something lies below it or when it
was made, and it lists the files below it.
-/

namespace Milp

/-- Why a source has no instance. -/
inductive InstanceError (α : Type) where
  | listing (path cause : String)
  | exhausted
  | loading (path : String) (cause : SolverError α)

/-- The error in words. -/
def InstanceError.message : InstanceError Float → String
  | .listing path cause => s!"cannot list instances in {path}: {cause}"
  | .exhausted => "no instances left"
  | .loading path cause => s!"cannot load instance {path}: " ++ cause.message

/-- The way from the top of a tree down to a file or a directory, name by name. -/
abbrev InstancePath := List String

namespace InstancePath

/-- The path in words. -/
def text (p : InstancePath) : String := "/".intercalate p

/-- The path moved on by a name: an empty name and `.` stay where they are, `..` goes up. -/
def move (p : InstancePath) (name : String) : InstancePath :=
  if name.isEmpty || name = "." then p
  else if name = ".." then p.dropLast
  else p ++ [name]

/-- The path with the given words. -/
def ofText (s : String) : InstancePath := (s.splitOn "/").foldl move []

/-- The order of paths, name by name. -/
def atMost : InstancePath → InstancePath → Bool
  | [], _ => true
  | _ :: _, [] => false
  | a :: p, b :: q => a < b || (a = b && atMost p q)

end InstancePath

/-- A directory: a place in a tree of files and of directories that were made. All paths count from
the top of the tree, which messages call by its name. -/
structure Directory where
  top : String
  place : InstancePath := []
  files : List (InstancePath × String) := []
  made : List InstancePath := []

namespace Directory

/-- Writes a file; it replaces the file that was there. -/
def write (d : Directory) (p : InstancePath) (text : String) : Directory :=
  { d with files := (p, text) :: d.files.filter (·.1 != p) }

/-- The directory with the given entries of its tree: files, written one after the other, and
directories. -/
def ofEntries (top place : String) (files : List (String × String)) (made : List String) :
    Directory :=
  let start : Directory := {
    top
    place := .ofText place
    made := made.map .ofText }
  files.foldl (fun d (p, text) => d.write (.ofText p) text) start

/-- What messages call a path. -/
def nameOf (d : Directory) (p : InstancePath) : String := InstancePath.text (d.top :: p)

/-- Whether the path lies in the directory or is the directory itself. -/
def covers (d : Directory) (p : InstancePath) : Bool := d.place.isPrefixOf p

/-- Whether the directory is there. -/
def isThere (d : Directory) : Bool :=
  d.place.isEmpty || d.files.any (d.covers ·.1) || d.made.any d.covers

/-- Why the directory cannot be listed, if so: its place holds a file, or nothing. -/
def obstacle? (d : Directory) : Option String :=
  if d.files.any (·.1 == d.place) then some LoadError.notDirectory
  else if d.isThere then none
  else some LoadError.nothingThere

/-- The paths of the files, with or without those in directories below, in no particular order. -/
def paths (d : Directory) (recursive : Bool) : Except (InstanceError Float) (List InstancePath) :=
  match d.obstacle? with
  | some cause => .error (.listing (d.nameOf d.place) cause)
  | none =>
    .ok ((d.files.map (·.1)).filter fun p =>
      d.covers p && (recursive || p.length == d.place.length + 1))

/-- The text of a file. -/
def text? (d : Directory) (p : InstancePath) : Option String := d.files.lookup p

/-- Reads the problem in a file. -/
def problem (d : Directory) (p : InstancePath) : Attempt LoadError (Problem Float) :=
  match d.text? p with
  | none => Attempt.fail .missingFile
  | some text => Problem.ofText false text

end Directory
end Milp
