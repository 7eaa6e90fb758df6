/-
Running a command on a project.

`scan` lists the classes in use that have a rule; `build` makes the stylesheet and
prints it or writes it to a file, which is not scanned itself; `watch` does what `build`
does again and again.  A configuration file is used if one is named or if there is one of
the default name; patterns on the command line replace its content.
-/
import AtomicCss.Command.Args
import AtomicCss.Config.Load
import AtomicCss.Engine.Basic
import AtomicCss.Rebuild.Look
import AtomicCss.Rebuild.Watch

namespace AtomicCss

/-- Why a command fails. -/
inductive CommandError
  | args (error : ArgsError)
  | config (error : SetupError)
  /-- There is neither a pattern nor a configuration file. -/
  | noContent
  | cancelled
  | cannotCreate (path : String) (fault : Fault)
  | cannotWrite (path : String) (fault : Fault)
  | cannotWatch (fault : Fault)
  deriving DecidableEq

/-- The text of an error, given what the reader says about a text it cannot read. -/
def CommandError.message (reason : String → String) : CommandError → String
  | .args error => error.message
  | .config error => error.message reason
  | .noContent => s!"no content to scan: pass at least one glob or create {Config.defaultPath}"
  | .cancelled => Cancelled.cancelled.message
  | .cannotCreate path fault => s!"failed to create {path}: {fault.message}"
  | .cannotWrite path fault => s!"failed to write {path}: {fault.message}"
  | .cannotWatch fault => s!"failed to start watcher: {Rebuild.faultMessage fault}"

/-- What a command leaves behind: what it printed and the project as it is then. -/
structure Output where
  stdout : String := ""
  project : Project

namespace Command

/-- A line for each text. -/
def lines (texts : List String) : String :=
  String.join (texts.map (· ++ "\n"))

/-- How the program is used. -/
def helpText : String :=
  lines [
    "jitwind",
    "",
    "USAGE:",
    "  jitwind scan [--config <path>] [--ignore <glob>] [glob...]",
    "  jitwind build [--output <path>] [--minify] [--config <path>] [--ignore <glob>] [glob...]",
    "  jitwind watch [--output <path>] [--minify] [--config <path>] [--ignore <glob>] [--poll]" ++
      " [--poll-interval <ms>] [glob...]",
    "",
    "Globs given on the command line replace the configured content. Without --config,",
    Config.defaultPath ++ " is used when present.",
    "",
    "EXAMPLES:",
    "  jitwind scan \"src/**/*.rs\"",
    "  jitwind build --output dist/app.css \"src/**/*.\x7brs,html\x7d\"",
    "  jitwind build -c jitwind.toml --minify -o dist/app.css",
    "  jitwind watch -I \"**/generated/**\" -o dist/app.css \"src/**/*.rs\"",
    "  jitwind watch --poll --poll-interval 250 -o dist/app.css"]

/-- The configuration file a command uses, if any. -/
def configPath? (project : Project) (flags : Flags) : Option String :=
  match flags.config with
  | some path => some path
  | none => if project.hasFile Config.defaultPath.toList then some Config.defaultPath else none

/-- The configuration a command uses. -/
def loadConfig (project : Project) (flags : Flags) : Except CommandError Config :=
  match configPath? project flags with
  | some path => (Config.load project path flags.inputs).mapError (.config ∘ .refused)
  | none =>
    if flags.inputs.isEmpty then .error .noContent
    else
      let config : Config := { content := flags.inputs }
      (config.validate.map fun _ => config).mapError (.config ∘ .refused)

/-- The patterns of files that a command leaves out.  The output file is one of them. -/
def ignored (flags : Flags) : List String :=
  flags.ignore ++ flags.out.toList

/-- The engine of a command. -/
def engine (project : Project) (flags : Flags) : Except CommandError Engine := do
  let config ← loadConfig project flags
  let options : EngineOptions := {
    scan := { ignore := ignored flags }
    style := if flags.minify then .minified else .pretty }
  (Engine.ofConfig options config).mapError .config

/-- Lists the classes that are used and have a rule. -/
def runScan (project : Project) (flags : Flags) : Except CommandError Output := do
  let engine ← engine project { flags with out := none, minify := false }
  match engine.scan project .never with
  | .error _ => .error .cancelled
  | .ok (scan, _) =>
    let (classes, _) := engine.matching (scan.candidates.map (·.text))
    return { project, stdout := lines (classes.mergeSort (· ≤ ·)) }

/-- Writes a stylesheet to the output file, or prints it if there is none. -/
def writeOutput (project : Project) (out : Option String) (css : String) :
    Except CommandError Output :=
  match out with
  | none => .ok { project, stdout := css }
  | some path => do
    let parent := (Path.parent? path.toList).getD []
    let project ←
      if parent.isEmpty then .ok project
      else (project.makeDirectories parent).mapError (.cannotCreate (String.ofList parent))
    let project ← (project.writeFile path.toList css.toUTF8).mapError (.cannotWrite path)
    return { project }

/-- Builds the stylesheet once. -/
def runBuild (project : Project) (flags : Flags) : Except CommandError Output := do
  let engine ← engine project flags
  match engine.build project .never with
  | (.error _, _) => .error .cancelled
  | (.ok build, _) => writeOutput project flags.out build.stylesheet.text

/-- Gets ready to watch.  What is polled need not exist. -/
def startWatch (project : Project) (flags : Flags) :
    Except CommandError (Rebuild.Watch × Rebuild.Loop) := do
  let engine ← engine project flags
  let path? := configPath? project flags
  let roots := Rebuild.roots engine.ruleset.config.content path?
  let watch : Rebuild.Watch := {
    source := path?.map fun path => { path, content := flags.inputs }
    roots := Rebuild.rootLocations project roots
    ignored := ignored flags
    interval := flags.interval }
  match Rebuild.rootFault? project roots, flags.poll with
  | some fault, false => .error (.cannotWatch fault)
  | _, _ => return (watch, { engine, project })

/-- Runs a command to its end; of a watch, its start. -/
def execute (project : Project) : Command → Except CommandError Output
  | .help => .ok { project, stdout := helpText }
  | .run .scan flags => runScan project flags
  | .run .build flags => runBuild project flags
  | .run .watch flags => (startWatch project flags).map fun _ => { project }

/-- Runs a command line. -/
def executeArgs (project : Project) (args : List String) : Except CommandError Output := do
  execute project (← (parse args).mapError .args)

end Command

end AtomicCss
