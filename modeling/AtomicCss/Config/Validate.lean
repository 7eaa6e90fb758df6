/-
Checking a configuration.

The checks run in a fixed order and the first that fails is reported: some content
pattern is not blank; every token is valid, overrides before extensions; every set of
modifiers belongs to a utility category and names only modifiers that exist, `dark`
only if there is a dark mode.
-/
import AtomicCss.Variant.Modifier

namespace AtomicCss.Config

/-- Refuses a list of content patterns that are all blank. -/
def checkContent (content : List String) : Except ConfigError Unit :=
  if content.all Text.isBlankText then .error .emptyContent else .ok ()

/-- Refuses a layer with an invalid token. -/
def checkTokens (layer : SortedMap Category Tokens) : Except ConfigError Unit :=
  layer.entries.forM fun (category, tokens) =>
    tokens.entries.forM fun (token, value) => Theme.checkToken category token value

/-- Whether a modifier may be enabled under a dark mode. -/
def canEnable (darkMode : DarkMode) (name : String) : Bool :=
  Modifier.isKnown name && !(name = Modifier.darkName && darkMode = .disabled)

/-- Refuses a set of modifiers that belongs to no utility or names something unknown. -/
def checkNames (darkMode : DarkMode) (category : Category) (names : NameSet) :
    Except ConfigError Unit :=
  if !category.isUtility then .error (.unknownCategory .variants category.key)
  else
    match names.names.find? (!canEnable darkMode ·) with
    | some name => .error (.unknownVariant category name)
    | none => .ok ()

/-- Refuses a configuration that cannot be used. -/
def validate (c : Config) : Except ConfigError Unit := do
  checkContent c.content
  c.theme.toList.forM checkTokens
  c.variants.toList.forM fun layer =>
    layer.entries.forM fun (category, names) => checkNames c.darkMode category names

end AtomicCss.Config
