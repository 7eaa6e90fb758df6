/-
What a watch needs before it can start.
-/
import AtomicCss.Glob.Root
import AtomicCss.Project.Access

namespace AtomicCss.Rebuild

/-- The directories to watch for some content patterns and a configuration file. -/
def roots (content : List String) (config : Option String) : List (List Char) :=
  let roots := Glob.watchRoots (content.map String.toList)
  match config with
  | none => roots
  | some path => Glob.addRoot roots (Glob.watchRoot path.toList)

/-- Why a directory cannot be watched, for the first that cannot. -/
def rootFault? (project : Project) (roots : List (List Char)) : Option Fault :=
  roots.findSome? fun root =>
    match project.locate root with
    | .ok _ => none
    | .error fault => some fault

/-- The directories of a project that are watched.  What is missing or lies outside is not. -/
def rootLocations (project : Project) (roots : List (List Char)) : List Location :=
  roots.filterMap fun root =>
    match project.locate root with
    | .ok (.inside loc) => some loc
    | _ => none

/-- The text of a fault that keeps a watch from starting. -/
def faultMessage : Fault → String
  | .notFound => "No path was found."
  | fault => fault.message

end AtomicCss.Rebuild
