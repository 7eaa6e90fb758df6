/-
Walking a project.

A walk starts at a path and gives the files there in the order of their names, those in
a directory where the directory's own name stands.  What ignore files exclude is left
out, with all that lies below it; the start itself never is.  A directory that lies too
far down for a path is found, but not what it holds; a file that does cannot be read.
-/
import AtomicCss.Ignore.Table

namespace AtomicCss

/-- A file as a walk finds it. -/
structure FoundFile where
  /-- The path of the start, followed by the names that lead from there to the file. -/
  path : List Char
  content : ByteArray

/-- The text of a file. -/
def FoundFile.text (f : FoundFile) : Except Fault String :=
  if Path.isPathLength f.path then Project.decodeText f.content else .error .nameTooLong

/-- What a walk finds. -/
structure Found where
  files : List FoundFile
  /-- The paths of the directories that are not looked into. -/
  unlisted : List (List Char) := []

namespace Project

open Text

/-- Whether a walk from `start`, which lies at `base`, leaves out what lies at `below`
from there. -/
def skips (table : IgnoreTable) (start : List Char) (base below : Location)
    (isDirectory : Bool) : Bool :=
  table.ignores (IgnoreTable.scopes start base below) isDirectory

/-- Whether a walk gets to what lies at `below`: neither it nor a directory on the way is
left out, and the directory it lies in can be looked into. -/
def reaches (table : IgnoreTable) (start : List Char) (base below : Location)
    (isDirectory : Bool) : Bool :=
  Path.isPathLength (IgnoreTable.pathFrom start below.dropLast) &&
    (List.range below.length).all fun n =>
      !skips table start base (below.take (n + 1)) (isDirectory || n + 1 < below.length)

/-- The files below a directory of the project. -/
def filesBelow (p : Project) (base : Location) : List (Location × ByteArray) :=
  p.entries.entries.filterMap fun (loc, entry) =>
    match entry, after? base loc with
    | .file content, some below => some (below, content)
    | _, _ => none

/-- The directories below a directory of the project that lie too far down for a path. -/
def distantBelow (p : Project) (start : List Char) (base : Location) : List Location :=
  (p.directories.filterMap (after? base)).filter fun below =>
    !Path.isPathLength (IgnoreTable.pathFrom start below)

/-- What a walk finds in the directory at `base`. -/
def found (p : Project) (gitignore : Bool) (start : List Char) (base : Location) : Found :=
  let table := p.ignoreTable gitignore start base
  let files := (p.filesBelow base).filter fun (below, _) => reaches table start base below false
  let distant := (p.distantBelow start base).filter fun below =>
    reaches table start base below true
  { files := files.map fun (below, content) => ⟨IgnoreTable.pathFrom start below, content⟩
    unlisted := distant.map (IgnoreTable.pathFrom start) }

/-- What a walk finds.  Outside of the project that is nothing. -/
def walk (p : Project) (gitignore : Bool) (start : List Char) : Except Fault Found := do
  match ← p.locate start with
  | .outside => return { files := [] }
  | .inside base =>
    match p.content? base with
    | some content => return { files := [⟨start, content⟩] }
    | none => return p.found gitignore start base

end Project

end AtomicCss
