/-
What can be wrong with a configuration.
-/
import AtomicCss.Project.Fault
import AtomicCss.Theme.Value

namespace AtomicCss

/-- The sections of a configuration that are divided by category. -/
inductive Section
  | theme
  | variants
  deriving DecidableEq

/-- The name of a section. -/
def Section.name : Section → String
  | .theme => "theme"
  | .variants => "variants"

/-- Why a configuration is refused. -/
inductive ConfigError
  /-- The file cannot be read. -/
  | unreadable (path : String) (fault : Fault)
  /-- The text, of a file if there is a path, is not a configuration at all. -/
  | malformed (path : Option String) (text : String)
  /-- No content pattern holds more than white space. -/
  | emptyContent
  | unknownDarkMode (name : String)
  | unknownMode (name : String)
  | unknownCategory (part : Section) (name : String)
  /-- A token's value is not of the kind its category asks for. -/
  | invalidToken (category : Category) (token value : String)
  /-- A modifier is enabled that does not exist, or that needs a dark mode. -/
  | unknownVariant (category : Category) (name : String)
  deriving DecidableEq

/-- The text of an error, given what the reader says about a text it cannot read. -/
def ConfigError.message (reason : String → String) : ConfigError → String
  | .unreadable path fault => s!"failed to read config {path}: {fault.message}"
  | .malformed none text => s!"failed to parse config: {reason text}"
  | .malformed (some path) text => s!"failed to parse config: {path}: {reason text}"
  | .emptyContent => "content requires at least one glob pattern"
  | .unknownDarkMode name =>
    s!"unrecognized darkMode strategy '{name}' (expected false, \"media\" or \"class\")"
  | .unknownMode name => s!"unrecognized mode '{name}' (expected \"jit\" or \"aot\")"
  | .unknownCategory part name => s!"unknown {part.name} category '{name}'"
  | .invalidToken category token value =>
    s!"invalid {category.key} token '{token}': '{value}' is not a valid {category.valueKind.describe}"
  | .unknownVariant category name =>
    s!"variants.{category.key} enables unknown modifier '{name}'"

end AtomicCss
