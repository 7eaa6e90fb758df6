/-
What a scan reports without failing.
-/
import AtomicCss.Glob.Limit
import AtomicCss.Project.Fault

namespace AtomicCss

/-- Something that a scan could not make use of. -/
inductive Warning
  /-- No file matches a content pattern. -/
  | emptyGlob (pattern : String)
  | invalidGlob (pattern : String) (fault : Glob.Fault)
  /-- One of the patterns of files to leave out is too deep. -/
  | deepGlobs (patterns : List String) (fault : Glob.DepthFault)
  /-- What lies in a directory cannot be told. -/
  | unlisted (path : String) (fault : Fault)
  | unreadable (path : String) (fault : Fault)
  deriving DecidableEq

/-- The text of a warning. -/
def Warning.message : Warning → String
  | .emptyGlob pattern => s!"glob '{pattern}' matched no files"
  | .invalidGlob pattern fault => s!"invalid glob pattern '{pattern}': {fault.report pattern}"
  | .deepGlobs patterns fault =>
    let list := ", ".intercalate patterns
    s!"invalid glob pattern '{list}': {fault.message}"
  | .unlisted path fault =>
    s!"failed to read {path}: {path}: IO error for operation on {path}: {fault.message}"
  | .unreadable path fault => s!"failed to read {path}: {fault.message}"

end AtomicCss
