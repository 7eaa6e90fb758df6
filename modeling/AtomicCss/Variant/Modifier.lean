/-
The modifiers a class may carry in front of its utility.

Besides `dark` and the names of the theme's screens there are three fixed families:
media features, pseudo-classes of the element, and states of an ancestor of class
`group`.
-/
import AtomicCss.Config.Basic

namespace AtomicCss

/-- What a modifier's name stands for. -/
inductive Modifier
  | dark
  /-- A breakpoint, by the width from which it holds. -/
  | screen (width : String)
  /-- A media feature, by name and query. -/
  | media (name query : String)
  /-- A pseudo-class, by name and selector. -/
  | pseudoClass (name selector : String)
  /-- A state of an ancestor, by name and selector. -/
  | ancestor (name selector : String)
  deriving DecidableEq

namespace Modifier

/-- The name of the dark-mode modifier. -/
def darkName : String := "dark"

/-- The name that stands for every screen where modifiers are enabled. -/
def responsiveName : String := "responsive"

/-- The media features. -/
def mediaFeatures : List (String × String) :=
  [("motion-safe", "(prefers-reduced-motion: no-preference)"),
    ("motion-reduce", "(prefers-reduced-motion: reduce)")]

/-- The pseudo-classes. -/
def pseudoClasses : List (String × String) :=
  [("hover", ":hover"), ("focus", ":focus"), ("focus-within", ":focus-within"),
    ("focus-visible", ":focus-visible"), ("active", ":active"), ("visited", ":visited"),
    ("disabled", ":disabled"), ("checked", ":checked"), ("first", ":first-child"),
    ("last", ":last-child"), ("odd", ":nth-child(odd)"), ("even", ":nth-child(even)")]

/-- The states of an ancestor of class `group`. -/
def groupStates : List (String × String) :=
  [("group-hover", ".group:hover"), ("group-focus", ".group:focus")]

/-- The fixed modifier with a given name. -/
def builtin? (name : String) : Option Modifier :=
  ((mediaFeatures.lookup name).map (.media name)) <|>
    ((pseudoClasses.lookup name).map (.pseudoClass name)) <|>
    ((groupStates.lookup name).map (.ancestor name))

/-- Whether a name may stand in a list of enabled modifiers. -/
def isKnown (name : String) : Bool :=
  name == responsiveName || name == darkName || (builtin? name).isSome

/-- The name under which a modifier is enabled. -/
def enabledAs : Modifier → String
  | .dark => darkName
  | .screen _ => responsiveName
  | .media name _ | .pseudoClass name _ | .ancestor name _ => name

/-- The modifiers a category enables by itself. -/
def enabledByDefault : Category → List String
  | .zIndex => [responsiveName, "focus-within", "focus"]
  | .scale => [responsiveName, "hover", "focus"]
  | .opacity => [responsiveName, "group-hover", "focus-within", "hover", "focus"]
  | .flex | .transitionProperty | .transitionDelay | .transitionDuration | .screens =>
    [responsiveName]

end Modifier

end AtomicCss
