/-
The directory that all matches of a pattern lie in.

Up to its first wildcard a pattern is a plain path; what stands before the last slash
of that part is the root.  A pattern without wildcards is a path: of a file, when it
has an extension, and then its parent is the root, else of a directory.
-/
import AtomicCss.Project.Path

namespace AtomicCss.Glob

/-- The characters that begin a wildcard. -/
def isWildcard (c : Char) : Bool :=
  c == '*' || c == '?' || c == '[' || c == '\x7b'

/-- The characters that separate directories in a pattern. -/
def isSeparator (c : Char) : Bool :=
  c == '/' || c == '\\'

/-- The root of a pattern. -/
def root (pattern : List Char) : List Char :=
  let plain := pattern.takeWhile (!isWildcard ·)
  if plain.length = pattern.length then
    if (pattern.getLast?.map isSeparator).getD false then pattern
    else if (Path.extension? pattern).isSome then (Path.parent? pattern).getD ['.']
    else pattern
  else
    let before := plain.reverse.dropWhile (!isSeparator ·)
    match before with
    | [] => ['.']
    | [_] => ['/']
    | _ :: dir => dir.reverse

/-- The root of a pattern as a directory that can be opened. -/
def watchRoot (pattern : List Char) : List Char :=
  let dir := root pattern
  if dir.isEmpty then ['.'] else dir

/-- Adds a directory to a list unless the list has it already. -/
def addRoot (roots : List (List Char)) (dir : List Char) : List (List Char) :=
  if roots.any fun r => Path.components r = Path.components dir then roots
  else roots ++ [dir]

/-- The directories to watch for a list of patterns, each once. -/
def watchRoots (patterns : List (List Char)) : List (List Char) :=
  patterns.foldl (fun roots p => addRoot roots (watchRoot p)) []

end AtomicCss.Glob
