/-
The meaning of a configuration.

What a literal resolves to depends on a configuration only through its theme and its
context of modifiers, so these are worked out once.  A configuration may have none: its
checks may refuse it, and they do not look at the order of its screens.
-/
import AtomicCss.Config.Validate
import AtomicCss.Rule
import AtomicCss.Theme.Default

namespace AtomicCss

/-- Why a configuration has no meaning. -/
inductive SetupError
  /-- The configuration is refused. -/
  | refused (error : ConfigError)
  /-- Its screens cannot be sorted.  Nothing catches this: what is under way breaks off. -/
  | unordered
  deriving DecidableEq

/-- The text of an error, given what the reader says about a text it cannot read. -/
def SetupError.message (reason : String → String) : SetupError → String
  | .refused error => error.message reason
  | .unordered => "user-provided comparison function does not correctly implement a total order"

/-- A configuration that was found valid, with what it means. -/
structure Ruleset where
  config : Config
  theme : Theme
  context : VariantContext
  deriving DecidableEq

namespace Ruleset

/-- The theme of a configuration, if that is valid. -/
def themeOf (config : Config) : Except ConfigError Theme := do
  config.validate
  Theme.resolve Theme.defaults config.theme

/-- The meaning of a configuration, if it is valid and its screens can be sorted. -/
def ofConfig (config : Config) : Except SetupError Ruleset := do
  let theme ← (themeOf config).mapError .refused
  match VariantContext.of? config theme with
  | some context => return { config, theme, context }
  | none => .error .unordered

/-- The rule of a literal. -/
def rule? (r : Ruleset) (literal : String) : Option ClassRule :=
  ClassRule.ofLiteral? r.theme r.context literal

/-- Whether two rulesets may give different rules. -/
def differs (a b : Ruleset) : Bool :=
  a.theme ≠ b.theme || a.context ≠ b.context

end Ruleset

end AtomicCss
