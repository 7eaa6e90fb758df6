/-
The ignore files of a project.

Three kinds of files say what to ignore: `.ignore`, `.gitignore`, and the exclude file
of a repository.  Each says it for its directory and all below.  Of one kind the nearest
directory that decides counts, and the first kind that decides counts before the others.
-/
import AtomicCss.Ignore.Repository

namespace AtomicCss

/-- The rules of each heeded kind, by directory. -/
abbrev IgnoreTable := List (SortedMap Location (List IgnoreRule))

namespace IgnoreTable

/-- The path of some names. -/
def pathOf (names : List String) : List Char :=
  ['/'].intercalate (names.map String.toList)

/-- The path of what lies at `names` from a start. -/
def pathFrom (start : List Char) (names : List String) : List Char :=
  if names = [] then start else Path.join start (pathOf names)

/-- The path by which a walk from `start`, which lies at `base`, knows a location.  What
does not lie below is known by a path of its own. -/
def pathTo (start : List Char) (base loc : Location) : List Char :=
  match Text.after? base loc with
  | some below => pathFrom start below
  | none => []

end IgnoreTable

namespace Project

/-- All directories of a project. -/
def directories (p : Project) : List Location :=
  [] :: p.entries.entries.filterMap fun (loc, entry) =>
    match entry with
    | .directory => some loc
    | .file _ => none

/-- The rules of one kind, by directory, for a walk from `start`, which lies at `base`. -/
def ignoreRules (p : Project) (start : List Char) (base : Location) (kind : IgnoreKind) :
    SortedMap Location (List IgnoreRule) :=
  .ofList <| p.directories.filterMap fun dir =>
    (p.ignoreFile? (IgnoreTable.pathTo start base dir) dir kind).map fun content =>
      (dir, IgnoreRule.ofFile content)

/-- The rules of a project's ignore files, for a walk from `start`, which lies at
`base`. -/
def ignoreTable (p : Project) (gitignore : Bool) (start : List Char) (base : Location) :
    IgnoreTable :=
  (IgnoreKind.heeded gitignore).map (p.ignoreRules start base)

end Project

namespace IgnoreTable

/-- A path without the dot that it may start with. -/
def withoutDot (path : List Char) : List Char :=
  (Text.after? ['.', '/'] path).getD path

/-- A path without the text of a directory, where that stands in front. -/
def withoutDirectory (dir path : List Char) : List Char :=
  match Text.after? dir path with
  | some rest => (Text.after? ['/'] rest).getD rest
  | none => path

/-- The path by which the ignore file of a directory inside the walk knows a path of the
walk. -/
def innerPath (dir path : List Char) : List Char :=
  let dir := withoutDot dir
  let path := withoutDot (withoutDot path)
  if Path.isHere dir || !path.contains '/' then path else withoutDirectory dir path

/-- The directories whose ignore files say something about what lies at `below` from
`base`, where a walk starts by the path `start`.  The nearest comes first, and with each
comes the path by which its file knows the place. -/
def scopes (start : List Char) (base below : Location) : List (Location × List Char) :=
  let path := pathFrom start below
  let inside := (List.range below.length).reverse.map fun n =>
    (base ++ below.take n, innerPath (pathFrom start (below.take n)) path)
  let above := (List.range base.length).reverse.map fun n =>
    (base.take n, pathOf (base.drop n ++ below))
  inside ++ above

/-- Whether what the scopes know is ignored. -/
def ignores (table : IgnoreTable) (scopes : List (Location × List Char))
    (isDirectory : Bool) : Bool :=
  let decision := table.findSome? fun rules =>
    scopes.findSome? fun (dir, path) => do
      IgnoreRule.decision? (← rules.find? dir) path isDirectory
  decision = some false

end IgnoreTable

end AtomicCss
