/-
The command line program.

The current directory is read into a project, the command runs on that, and what it
prints and writes is carried over.  A watch reads the directory again and again.
-/
import AtomicCss.Command.Run

namespace AtomicCss.Program

/-- Where a location is in the file system. -/
def placeOf (loc : Location) :=
  (do
    let mut place ← IO.currentDir
    for name in loc do
      place := place / name
    return place : IO _)

/-- Adds what lies in a directory of the current directory to a project.  Links are left
out, as is what cannot be read. -/
partial def addDirectory (dir : Location) (project : Project) : IO Project := do
  let place ← placeOf dir
  let mut project := project
  for entry in ← place.readDir do
    let name := entry.fileName
    match (← entry.path.symlinkMetadata).type with
    | .dir => project ← addDirectory (dir ++ [name]) (project.put dir name .directory)
    | .file =>
      match ← (IO.FS.readBinFile entry.path).toBaseIO with
      | .ok content => project := project.put dir name (.file content)
      | .error _ => pure ()
    | _ => pure ()
  return project

/-- The project in the current directory. -/
def readProject : IO Project :=
  addDirectory [] .empty

/-- Writes the files that have changed. -/
def writeProject (before after : Project) : IO Unit := do
  for (loc, content) in Project.written before after do
    IO.FS.createDirAll (← placeOf loc.dropLast)
    IO.FS.writeBinFile (← placeOf loc) content

/-- What stands for the reader's account of a text that it cannot read. -/
def reason (_ : String) : String :=
  "not a configuration"

/-- The exit code of a program that is broken off. -/
def brokenOff : UInt32 := 101

/-- Prints and writes what a command leaves behind. -/
def deliver (before : Project) (result : Except CommandError Output) : IO UInt32 := do
  match result with
  | .ok output =>
    IO.print output.stdout
    writeProject before output.project
    return 0
  | .error (.config .unordered) =>
    IO.eprintln (SetupError.unordered.message reason)
    return brokenOff
  | .error e =>
    IO.eprintln s!"error: {e.message reason}"
    return 1

/-- Delivers what a loop came to after its first outcomes, and looks at the files again. -/
partial def watch (flags : Flags) (w : Rebuild.Watch) (delivered : Nat) (l : Rebuild.Loop) :
    IO UInt32 := do
  for outcome in l.outcomes.drop delivered do
    match outcome with
    | .built build =>
      discard <| deliver l.project (Command.writeOutput l.project flags.out build.stylesheet.text)
    | .failed e => IO.eprintln s!"build failed: {e.message reason}"
  if l.phase = .broken then deliver l.project (.error (.config .unordered))
  else
    IO.sleep (w.pause l).toUInt32
    let project ← readProject
    watch flags w l.outcomes.length (w.look (← IO.monoMsNow) project l)

/-- Runs a command line. -/
def run (args : List String) : IO UInt32 := do
  let project ← readProject
  match Command.parse args with
  | .ok (.run .watch flags) =>
    match Command.startWatch project flags with
    | .ok (w, l) => watch flags w 0 (w.serve l)
    | .error e => deliver project (.error e)
  | _ => deliver project (Command.executeArgs project args)

end AtomicCss.Program

/-- Runs the command that the arguments ask for. -/
def main (args : List String) : IO UInt32 :=
  AtomicCss.Program.run args
