/-
Loading configurations from a project.
-/
import AtomicCss.Config.File
import AtomicCss.Project.Access

namespace AtomicCss.Config

/-- The name of the configuration file that is used if none is named. -/
def defaultPath : String := "jitwind.toml"

/-- The valid configuration of a file in a project, with its content patterns replaced
if any are given. -/
def load (project : Project) (path : String) (given : List String) : Except ConfigError Config :=
  match project.readText path.toList with
  | .error fault => .error (.unreadable path fault)
  | .ok text => ofText (some path) text given

end AtomicCss.Config
