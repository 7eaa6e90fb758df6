/-
Configuration files.

A file is read in two steps.  First the document has to have the right shape: settings
with the right types of values, two spellings of one setting not both present, tables
of tokens and of modifiers.  Then the names of modes and categories are resolved.
Settings of other names are ignored.
-/
import AtomicCss.Config.Validate
import AtomicCss.Toml.Document

namespace AtomicCss

open Toml

/-- The dark mode as a file says it. -/
inductive DarkSetting
  | flag (on : Bool)
  | strategy (name : String)
  deriving DecidableEq

/-- Two layers of settings whose categories are still names. -/
structure NamedLayers (α : Type) where
  base : SortedMap String α := ∅
  extend : SortedMap String α := ∅
  deriving DecidableEq

/-- What a configuration file says. -/
structure ConfigFile where
  mode : Option String := none
  content : List String := []
  darkMode : Option DarkSetting := none
  theme : NamedLayers Tokens := {}
  variants : NamedLayers NameSet := {}
  deriving DecidableEq

namespace ConfigFile

/-! ### The shape of a document -/

/-- The value of a setting with two spellings, of which only one may be present. -/
def setting? (es : Entries) (name synonym : String) : Option (Option Value) :=
  match es.find? name, es.find? synonym with
  | some _, some _ => none
  | some v, none | none, some v => some (some v)
  | none, none => some none

/-- The key under which a moment is read where a table is expected. -/
def momentKey : String := "$__toml_private_datetime"

/-- The entries of a value that can be read as a table. -/
def table? : Value → Option Entries
  | .table _ es => some es
  | .moment text => some [(momentKey, .string text)]
  | _ => none

/-- The text of a string. -/
def string? : Value → Option String
  | .string s => some s
  | _ => none

/-- The texts of an array of strings. -/
def strings? : Value → Option (List String)
  | .array vs => vs.mapM string?
  | .tables _ => none
  | _ => none

/-- Content patterns: an array of them, or a table that has one at `content`. -/
def content? (v : Value) : Option (List String) :=
  match strings? v with
  | some patterns => some patterns
  | none => do strings? (← (← table? v).find? "content")

/-- A dark mode: a flag or the name of a strategy. -/
def darkSetting? : Value → Option DarkSetting
  | .boolean on => some (.flag on)
  | .string name => some (.strategy name)
  | _ => none

/-- The value of a token: a string, or the text of a number. -/
def token? : Value → Option String
  | .string s => some s
  | .integer n => some (toString n)
  | .float x => some x.text
  | _ => none

/-- A table with every value read by `read?`, by key. -/
def tableOf? {α : Type} (read? : Value → Option α) (v : Value) : Option (SortedMap String α) := do
  let es ← (← table? v).mapM fun (key, v) => return (key, ← read? v)
  return .ofList es

/-- Settings by category name, with a second layer at `extend`. -/
def layers? {α : Type} (read? : Value → Option α) (v : Value) : Option (NamedLayers α) := do
  let es ← table? v
  let extend ← match es.find? "extend" with
    | none => some ∅
    | some v => tableOf? read? v
  let base ← (es.filter (·.1 != "extend")).mapM fun (key, v) => return (key, ← read? v)
  return ⟨.ofList base, extend⟩

/-- What a document says, if it has the right shape. -/
def ofEntries? (es : Entries) : Option ConfigFile := do
  let mode ← (es.find? "mode").mapM string?
  let content ← (← setting? es "content" "purge").mapM content?
  let darkMode ← (← setting? es "darkMode" "dark_mode").mapM darkSetting?
  let theme ← (es.find? "theme").mapM (layers? (tableOf? token?))
  let variants ← (es.find? "variants").mapM (layers? fun v => (strings? v).map .ofNames)
  return {
    mode, darkMode
    content := content.getD []
    theme := theme.getD {}
    variants := variants.getD {} }

/-! ### Resolving names -/

/-- The mode of a given name, else the default one. -/
def resolveMode : Option String → Except ConfigError Mode
  | none | some "jit" => .ok .jit
  | some "aot" => .ok .aot
  | some other => .error (.unknownMode other)

/-- The dark mode of a setting, else none. -/
def resolveDarkMode : Option DarkSetting → Except ConfigError DarkMode
  | none | some (.flag false) => .ok .disabled
  | some (.flag true) => .error (.unknownDarkMode "true")
  | some (.strategy "media") => .ok .media
  | some (.strategy "class") => .ok .ancestor
  | some (.strategy other) => .error (.unknownDarkMode other)

/-- A layer by category; the first unknown name is an error. -/
def resolveLayer {α : Type} (part : Section) (layer : SortedMap String α) :
    Except ConfigError (SortedMap Category α) := do
  let es ← layer.entries.mapM fun (name, v) =>
    match Category.ofKey? name with
    | some category => .ok (category, v)
    | none => .error (.unknownCategory part name)
  return .ofList es

/-- Both layers by category, the base first. -/
def resolveLayers {α : Type} (part : Section) (layers : NamedLayers α) :
    Except ConfigError (Layered α) := do
  return ⟨← resolveLayer part layers.base, ← resolveLayer part layers.extend⟩

/-- The configuration that a file describes. -/
def toConfig (f : ConfigFile) : Except ConfigError Config := do
  let mode ← resolveMode f.mode
  let darkMode ← resolveDarkMode f.darkMode
  let theme ← resolveLayers .theme f.theme
  let variants ← resolveLayers .variants f.variants
  return { mode, content := f.content, darkMode, theme, variants }

end ConfigFile

namespace Config

/-- The content patterns that count: those given, if there are any, else the configured
ones. -/
def withContent (c : Config) (given : List String) : Config :=
  if given.isEmpty then c else { c with content := given }

/-- The valid configuration that a file describes, with its content patterns replaced if
any are given. -/
def ofFile (f : ConfigFile) (given : List String) : Except ConfigError Config := do
  let config := (← f.toConfig).withContent given
  config.validate
  return config

/-- The valid configuration of a text, of a file if there is a path, with its content
patterns replaced if any are given. -/
def ofText (path : Option String) (text : String) (given : List String) :
    Except ConfigError Config :=
  match (parse? text).bind ConfigFile.ofEntries? with
  | none => .error (.malformed path text)
  | some file => ofFile file given

end Config

end AtomicCss
