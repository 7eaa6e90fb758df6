/-
What modifiers mean under a configuration.
-/
import AtomicCss.Variant.Modifier

namespace AtomicCss

/-- All that the expansion of modifiers depends on. -/
structure VariantContext where
  mode : Mode
  darkMode : DarkMode
  screens : List Breakpoint
  /-- For each utility category, the modifiers enabled in it. -/
  enabled : SortedMap Category NameSet
  deriving DecidableEq

namespace VariantContext

/-- The modifiers a configuration enables in a category. -/
def enabledIn (variants : Layered NameSet) (category : Category) : NameSet :=
  let base :=
    (variants.base.find? category).getD (.ofNames (Modifier.enabledByDefault category))
  match variants.extend.find? category with
  | none => base
  | some added => base.union added

/-- The context of a configuration and its resolved theme, if the screens of the theme can be
sorted. -/
def of? (config : Config) (theme : Theme) : Option VariantContext :=
  theme.screens?.map fun screens => {
    mode := config.mode
    darkMode := config.darkMode
    screens
    enabled := .ofList <|
      (Category.all.filter Category.isUtility).map fun c => (c, enabledIn config.variants c) }

/-- What a name means.  A screen hides a built-in modifier of the same name, and nothing
but dark mode is called `dark`. -/
def recognize? (ctx : VariantContext) (name : String) : Option Modifier :=
  if name = Modifier.darkName then
    if ctx.darkMode = .disabled then none else some .dark
  else
    match ctx.screens.find? (·.name == name) with
    | some screen => some (.screen screen.width)
    | none => Modifier.builtin? name

/-- Whether a modifier may be used in a category. -/
def allows (ctx : VariantContext) (category : Category) (modifier : Modifier) : Bool :=
  match ctx.mode with
  | .jit => true
  | .aot =>
    match ctx.enabled.find? category with
    | none => false
    | some names => names.contains modifier.enabledAs

end VariantContext

end AtomicCss
