/-
Files that are no sources.

Installed packages, lock files, stylesheets and binary files are left out of a scan
unless they are asked for.
-/
import AtomicCss.Project.Path

namespace AtomicCss

/-- Which files a scan reads. -/
structure ScanOptions where
  /-- Where the walk starts. -/
  base : String := "."
  /-- The patterns of files to leave out. -/
  ignore : List String := []
  /-- Whether ignore files of version control are heeded. -/
  respectGitignore : Bool := true
  includeNodeModules : Bool := false
  includeBinaryFiles : Bool := false
  includeCssFiles : Bool := false
  includeLockFiles : Bool := false
  deriving DecidableEq

namespace Source

/-- The files in which package managers record versions. -/
def lockFileNames : List String :=
  ["package-lock.json", "pnpm-lock.yaml", "yarn.lock", "bun.lockb", "bun.lock",
    "npm-shrinkwrap.json", "Cargo.lock", "composer.lock", "Gemfile.lock", "poetry.lock"]

/-- The extensions of stylesheets. -/
def cssExtensions : List String :=
  ["css", "scss", "sass", "less", "styl", "pcss"]

/-- The extensions of files that are not text. -/
def binaryExtensions : List String :=
  ["png", "jpg", "jpeg", "gif", "webp", "ico", "bmp", "avif", "mp4", "mov", "webm", "mp3",
    "wav", "ogg", "zip", "gz", "tgz", "7z", "pdf", "woff", "woff2", "ttf", "otf", "wasm"]

/-- The directory of installed packages. -/
def packagesName : String := "node_modules"

/-- Whether the extension of a path is one of `extensions`, letter case aside. -/
def hasExtension (extensions : List String) (path : List Char) : Bool :=
  match Path.extension? path with
  | some ext => extensions.contains (String.ofList (ext.map Char.toLower))
  | none => false

/-- Whether the file at a path is no source under the options. -/
def isExcluded (options : ScanOptions) (path : List Char) : Bool :=
  (!options.includeNodeModules &&
      (Path.components path).contains (.name packagesName.toList)) ||
    (!options.includeLockFiles &&
      lockFileNames.contains (String.ofList ((Path.fileName? path).getD []))) ||
    (!options.includeCssFiles && hasExtension cssExtensions path) ||
    (!options.includeBinaryFiles && hasExtension binaryExtensions path)

end Source

end AtomicCss
