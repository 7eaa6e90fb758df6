/-
The files that content patterns select.

A pattern selects the files of a walk that it matches, by their path from the base or by
their path as a whole.  The files are ordered by the first pattern that selects them,
and for each pattern by the walk.

Patterns of files to leave out are used together, up to a limit to how deep they nest.
Content patterns are matched one by one, here whatever their depth.  What becomes of one beyond
the limit, for which no matcher can be built, is not modelled.
-/
import AtomicCss.Distinct
import AtomicCss.Ignore.Patterns
import AtomicCss.Project.Walk
import AtomicCss.Source.FileKind
import AtomicCss.Source.Warning

namespace AtomicCss

namespace Source

/-- Whether a test holds of a path from the base or of the path as a whole. -/
def eitherPath (test : List Char → Bool) (base path : List Char) : Bool :=
  test (Path.relativeTo base path) || test path

/-- The patterns of a list that can be read, each with its text. -/
def readable (patterns : List String) : List (String × Glob) :=
  patterns.filterMap fun p => ((Glob.parse p).toOption).map (p, ·)

/-- The warnings about the patterns of a list that cannot be read. -/
def unreadable (patterns : List String) : List Warning :=
  patterns.filterMap fun p =>
    match Glob.parse p with
    | .ok _ => none
    | .error fault => some (.invalidGlob p fault)

/-- The patterns of files to leave out.  If one of them cannot be used none counts, and
the first such is reported. -/
def ignorePatterns (patterns : List String) : IgnorePatterns × List Warning :=
  match IgnorePatterns.parse patterns with
  | .ok patterns => (patterns, [])
  | .error (.unreadable pattern fault) => (.empty, [.invalidGlob pattern fault])
  | .error (.tooDeep fault) => (.empty, [.deepGlobs patterns fault])

/-- The files of a walk that may be sources. -/
def files (project : Project) (options : ScanOptions) (ignored : IgnorePatterns) :
    List FoundFile × List Warning :=
  let base := options.base.toList
  match project.walk options.respectGitignore base with
  | .error fault => ([], [.unlisted options.base fault])
  | .ok found =>
    let kept := found.files.filter fun f =>
      !eitherPath ignored.isMatch base f.path && !isExcluded options f.path
    (kept, found.unlisted.map fun path => .unlisted (String.ofList path) .nameTooLong)

/-- The files that a pattern selects. -/
def selectedBy (glob : Glob) (base : List Char) (files : List FoundFile) : List FoundFile :=
  files.filter fun f => eitherPath glob.isMatch base f.path

/-- Whether a change of some files concerns no source: all of them are to be left out.
Patterns that cannot be read do not count. -/
def ignoresEvent (ignore : List String) (base : String) (paths : List String) : Bool :=
  let ignored := IgnorePatterns.ofReadable ignore
  !ignore.isEmpty && !paths.isEmpty &&
    paths.all fun path => eitherPath ignored.isMatch base.toList path.toList

end Source

/-- The files that a list of patterns selects, with what went wrong. -/
structure Selection where
  files : List FoundFile
  warnings : List Warning

namespace Selection

open Source

/-- The selection of a list of content patterns. -/
def of (project : Project) (options : ScanOptions) (patterns : List String) : Selection :=
  let (ignored, ignoreWarnings) := ignorePatterns options.ignore
  let (files, walkWarnings) := Source.files project options ignored
  let perPattern := (readable patterns).map fun (p, glob) =>
    (p, selectedBy glob options.base.toList files)
  let empty := (perPattern.filter (·.2.isEmpty)).map fun (p, _) => Warning.emptyGlob p
  { files := distinctOn (fun f => String.ofList f.path) (perPattern.flatMap (·.2))
    warnings := unreadable patterns ++ ignoreWarnings ++ walkWarnings ++ empty }

/-- The paths of the selected files. -/
def paths (s : Selection) : List String :=
  s.files.map fun f => String.ofList f.path

end Selection

end AtomicCss
