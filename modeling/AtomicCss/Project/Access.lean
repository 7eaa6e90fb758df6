/-
Reading and writing by path.

A path is followed from the project's directory, one step for each stretch between
slashes; a slash at the end asks for a directory.  Every step has to start from a
directory, also one that stays there or goes back.  Of the directories that hold the
project nothing is known but that they are directories, so a path that leaves the
project finds no file.
-/
import AtomicCss.Project.Basic
import AtomicCss.Project.Fault

namespace AtomicCss

/-- Where a path leads. -/
inductive Place
  | inside (loc : Location)
  /-- A directory that holds the project. -/
  | outside

/-- The directory that holds a place. -/
def Place.up : Place → Place
  | .inside [] | .outside => .outside
  | .inside loc => .inside loc.dropLast

namespace Project

/-- What stands between the slashes of a path. -/
def stretches (path : List Char) : List (List Char) :=
  (path.splitOnP (· == '/')).filter fun step => !step.isEmpty

/-- Whether a path asks for a directory. -/
def endsWithSlash (path : List Char) : Bool :=
  path.getLast? = some '/'

/-- Whether a path does not start from the project's directory. -/
def isAbsolute (path : List Char) : Bool :=
  path.head? = some '/'

/-- Where a path starts. -/
def startOf (path : List Char) : Place :=
  if isAbsolute path then .outside else .inside []

/-- The steps of a path. -/
def steps (path : List Char) : List (List Char) :=
  stretches path ++ if endsWithSlash path then [['.']] else []

/-- Whether a step leads to no name of its own. -/
def isDots (step : List Char) : Bool :=
  step = ['.'] || step = ['.', '.']

/-- Whether there is a directory at a place. -/
def isDirectoryAt (p : Project) : Place → Bool
  | .inside loc => p.isDirectory loc
  | .outside => true

/-- Where a step leads from a place. -/
def next (p : Project) (place : Place) (step : List Char) : Except Fault Place :=
  if !p.isDirectoryAt place then .error .notDirectory
  else if step = ['.'] then .ok place
  else if step = ['.', '.'] then .ok place.up
  else if !Path.isNameLength step then .error .nameTooLong
  else
    match place with
    | .outside => .error .notFound
    | .inside loc =>
      let loc := loc ++ [String.ofList step]
      if (p.find? loc).isNone then .error .notFound else .ok (.inside loc)

/-- Where the steps of a path lead from a place. -/
def follow (p : Project) (place : Place) (steps : List (List Char)) : Except Fault Place :=
  steps.foldlM p.next place

/-- Fails if a text cannot be a path. -/
def checkPath (path : List Char) : Except Fault Unit :=
  if path.contains '\x00' then .error .nullInPath
  else if path.isEmpty then .error .notFound
  else if !Path.isPathLength path then .error .nameTooLong
  else .ok ()

/-- Where a path leads. -/
def locate (p : Project) (path : List Char) : Except Fault Place := do
  checkPath path
  p.follow (startOf path) (steps path)

/-- Whether a path leads to a directory. -/
def hasDirectory (p : Project) (path : List Char) : Bool :=
  match p.locate path with
  | .ok place => p.isDirectoryAt place
  | .error _ => false

/-- The content of the file that a path leads to. -/
def contentAt? (p : Project) (path : List Char) : Option ByteArray :=
  match p.locate path with
  | .ok (.inside loc) => p.content? loc
  | _ => none

/-- Whether a path leads to a file. -/
def hasFile (p : Project) (path : List Char) : Bool :=
  (p.contentAt? path).isSome

/-- The text of some bytes. -/
def decodeText (content : ByteArray) : Except Fault String :=
  match String.fromUTF8? content with
  | some text => .ok text
  | none => .error .notText

/-- The text of the file that a path leads to. -/
def readText (p : Project) (path : List Char) : Except Fault String := do
  let _ ← p.locate path
  match p.contentAt? path with
  | some content => decodeText content
  | none => .error .isDirectory

/-- The place from which the last step of a path is taken, and that step. -/
def lastStep (p : Project) (path : List Char) : Except Fault (Place × List Char) := do
  checkPath path
  let place ← p.follow (startOf path) (stretches path).dropLast
  if p.isDirectoryAt place then .ok (place, (stretches path).getLastD ['.'])
  else .error .notDirectory

/-- The location of a new entry by the last step of its path. -/
def newEntry (place : Place) (step : List Char) : Except Fault (Location × String) :=
  if !Path.isNameLength step then .error .nameTooLong
  else
    match place with
    | .outside => .error .notFound
    | .inside dir => .ok (dir, String.ofList step)

/-- Makes a directory at a path where nothing is. -/
def makeDirectory (p : Project) (path : List Char) : Except Fault Project := do
  let (place, step) ← p.lastStep path
  if isDots step then .error .alreadyExists
  else
    let (dir, name) ← newEntry place step
    if (p.find? (dir ++ [name])).isSome then .error .alreadyExists
    else .ok (p.put dir name .directory)

/-- Makes a directory unless there is one. -/
def ensureDirectory (p : Project) (path : List Char) : Except Fault Project :=
  match p.makeDirectory path with
  | .ok p => .ok p
  | .error fault => if p.hasDirectory path then .ok p else .error fault

/-- The paths of the directories that a path goes through, itself the last. -/
def throughPaths (path : List Char) : List (List Char) :=
  let names := stretches path
  (List.range names.length).map fun n => ['/'].intercalate (names.take (n + 1))

/-- Makes a directory and those on the way that are missing. -/
def makeDirectories (p : Project) (path : List Char) : Except Fault Project :=
  match p.ensureDirectory path with
  | .error .notFound =>
    if isAbsolute path then .error .notFound
    else (throughPaths path).foldlM ensureDirectory p
  | result => result

/-- Writes a file at a path, in place of an earlier one. -/
def writeFile (p : Project) (path : List Char) (content : ByteArray) : Except Fault Project := do
  let (place, step) ← p.lastStep path
  if endsWithSlash path || isDots step then .error .isDirectory
  else
    let (dir, name) ← newEntry place step
    if p.isDirectory (dir ++ [name]) then .error .isDirectory
    else .ok (p.put dir name (.file content))

end Project

end AtomicCss
