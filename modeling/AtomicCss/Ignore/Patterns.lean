/-
The patterns of files to leave out.

A path is left out if one of the patterns matches it.  A pattern that is decided by the
name of a file matches no path that names no file.
-/
import AtomicCss.Glob.Limit

namespace AtomicCss

/-- The patterns of files to leave out. -/
structure IgnorePatterns where
  globs : List Glob
  deriving Inhabited

namespace IgnorePatterns

/-- No patterns. -/
def empty : IgnorePatterns := ⟨[]⟩

/-- Whether a path is left out. -/
def isMatch (patterns : IgnorePatterns) (path : List Char) : Bool :=
  patterns.globs.any fun g => g.isMatch path && (Glob.namesFile path || !g.shape.needsName)

/-- Why a list of patterns cannot be used. -/
inductive Fault
  /-- One of them cannot be read. -/
  | unreadable (pattern : String) (fault : Glob.Fault)
  | tooDeep (fault : Glob.DepthFault)
  deriving DecidableEq

/-- The patterns, unless one of them is too deep. -/
def ofGlobs (globs : List Glob) : Except Fault IgnorePatterns :=
  match Glob.depthFault? globs with
  | some fault => .error (.tooDeep fault)
  | none => .ok ⟨globs⟩

/-- The patterns of a list that can be read, or none at all if one of these is too
deep. -/
def ofReadable (patterns : List String) : IgnorePatterns :=
  ((ofGlobs (patterns.filterMap fun p => (Glob.parse p).toOption)).toOption).getD empty

/-- The patterns of a list; the first that cannot be read is an error. -/
def parse (patterns : List String) : Except Fault IgnorePatterns := do
  ofGlobs (← patterns.mapM fun p => (Glob.parse p).mapError (.unreadable p))

end IgnorePatterns

end AtomicCss
