/-
Where a repository keeps its exclude file.

A repository lies in the directory `.git` of its working tree.  A working tree may also
be linked to a repository elsewhere: then `.git` is a file whose first line leads to a
directory of the link, and the first line of the file `commondir` there leads on to the
repository.  A line that starts with a dot is relative to the directory of the link; all
other paths are relative to the project.
-/
import AtomicCss.Ignore.Rule
import AtomicCss.Project.Access

namespace AtomicCss

namespace Repository

/-- The directory of a link, by the content of the file `.git`. -/
def linkDirectory? (content : ByteArray) : Option (List Char) := do
  Text.after? "gitdir: ".toList (← (IgnoreRule.readableLines content).head?)

/-- The path of a repository, from the directory of a link and the line found there. -/
def pathFromLink (link line : List Char) : List Char :=
  if line.head? = some '.' then Path.join link line else line

/-- The path of the repository that the content of a file `.git` leads to. -/
def linked? (p : Project) (content : ByteArray) : Option (List Char) := do
  let link ← linkDirectory? content
  let target ← p.contentAt? (Path.join link "commondir".toList)
  return pathFromLink link (← (IgnoreRule.readableLines target).head?)

end Repository

/-- The kinds of ignore files. -/
inductive IgnoreKind
  | ignore
  | gitignore
  | exclude
  deriving DecidableEq

/-- Where a file of a kind lies, from the directory it is for. -/
def IgnoreKind.location : IgnoreKind → Location
  | .ignore => [".ignore"]
  | .gitignore => [".gitignore"]
  | .exclude => [".git", "info", "exclude"]

/-- The kinds that are heeded, the one that counts first in front. -/
def IgnoreKind.heeded (gitignore : Bool) : List IgnoreKind :=
  if gitignore then [.ignore, .gitignore, .exclude] else [.ignore]

namespace Project

/-- The content of a directory's own file at a location, unless it is too far down for a
path; `path` is the path of the directory. -/
def ownFile? (p : Project) (path : List Char) (dir below : Location) : Option ByteArray :=
  let names := ['/'].intercalate (below.map String.toList)
  if Path.isPathLength (Path.join path names) then p.content? (dir ++ below) else none

/-- The content of the ignore file of a kind for a directory; `path` is the path of the
directory. -/
def ignoreFile? (p : Project) (path : List Char) (dir : Location) (kind : IgnoreKind) :
    Option ByteArray :=
  match kind, p.ownFile? path dir [".git"] with
  | .exclude, some link => do
    p.contentAt? (Path.join (← Repository.linked? p link) "info/exclude".toList)
  | kind, _ => p.ownFile? path dir kind.location

end Project

end AtomicCss
