/-
Edits of a project.

An edit removes files and then puts entries, the directories on the way included.
What is to be removed may be missing.
-/
import AtomicCss.Project.Access

namespace AtomicCss

/-- A change of a project's files. -/
structure Edit where
  /-- The paths of the files to remove. -/
  remove : List String := []
  /-- The entries to put, by path. -/
  put : List (String × Entry) := []

namespace Project

/-- Removes the file that a path leads to, if there is one. -/
def removed (p : Project) (path : String) : Project :=
  match p.locate path.toList with
  | .ok (.inside loc) => p.removeFile loc
  | _ => p

/-- Puts an entry and the directories on the way; changes nothing where that is not
possible. -/
def stored (p : Project) (path : String) (entry : Entry) : Project :=
  let path := path.toList
  let result := match entry with
    | .directory => p.makeDirectories path
    | .file content => do
      let parent := (Path.parent? path).getD []
      let p ← if parent.isEmpty then .ok p else p.makeDirectories parent
      p.writeFile path content
  match result with
  | .ok p => p
  | .error _ => p

/-- The project after an edit. -/
def edited (p : Project) (e : Edit) : Project :=
  e.put.foldl (fun p (path, entry) => p.stored path entry) (e.remove.foldl removed p)

/-- The files that have come or have another content than before. -/
def written (before after : Project) : List (Location × ByteArray) :=
  after.entries.entries.filterMap fun (loc, entry) =>
    match entry with
    | .directory => none
    | .file content =>
      if (before.content? loc).any (·.data = content.data) then none else some (loc, content)

/-- The locations of the files that have come, gone or changed. -/
def changed (before after : Project) : List Location :=
  (written before after ++ written after before).map (·.1)

/-- The project with the given entries. -/
def ofEntries (entries : List (String × Entry)) : Project :=
  empty.edited { put := entries }

end Project

end AtomicCss
