/-
Utilities: the families of classes and the declarations they make.
-/
import AtomicCss.Theme.Table

namespace AtomicCss

/-- A CSS declaration. -/
structure Declaration where
  property : String
  value : String
  deriving DecidableEq

/-- Where a class takes its value from. -/
inductive TokenRef
  | theme (token : String)
  | arbitrary (value : String)
  deriving DecidableEq

/-- A family of classes that set the same properties. -/
inductive Utility
  | scaleX
  | scaleY
  | scale
  | flex
  | transition
  | duration
  | delay
  | opacity
  | zIndex
  deriving DecidableEq

namespace Utility

/-- Every utility; one whose stem begins with another's stem comes before it. -/
def all : List Utility :=
  [.scaleX, .scaleY, .scale, .flex, .transition, .duration, .delay, .opacity, .zIndex]

/-- What the names of a utility's classes begin with. -/
def stem : Utility → String
  | .scaleX => "scale-x"
  | .scaleY => "scale-y"
  | .scale => "scale"
  | .flex => "flex"
  | .transition => "transition"
  | .duration => "duration"
  | .delay => "delay"
  | .opacity => "opacity"
  | .zIndex => "z"

/-- The category of a utility's tokens. -/
def category : Utility → Category
  | .scaleX | .scaleY | .scale => .scale
  | .flex => .flex
  | .transition => .transitionProperty
  | .duration => .transitionDuration
  | .delay => .transitionDelay
  | .opacity => .opacity
  | .zIndex => .zIndex

/-- The token of a class that names none. -/
def defaultToken : String := "DEFAULT"

/-- The composition of both axes, for the property that scales. -/
def scaleComposition : Declaration :=
  ⟨"scale", "var(--tw-scale-x, 1) var(--tw-scale-y, 1)"⟩

/-- How long a transition takes: the theme's default duration, else 150 milliseconds. -/
def transitionDuration (theme : Theme) : String :=
  (theme.find? .transitionDuration defaultToken).getD "150ms"

/-- The declarations a utility makes of a value. -/
def declarations (theme : Theme) (value : String) : Utility → List Declaration
  | .scale => [⟨"--tw-scale-x", value⟩, ⟨"--tw-scale-y", value⟩, scaleComposition]
  | .scaleX => [⟨"--tw-scale-x", value⟩, scaleComposition]
  | .scaleY => [⟨"--tw-scale-y", value⟩, scaleComposition]
  | .flex => [⟨"flex", value⟩]
  | .transition =>
    if value = "none" then [⟨"transition-property", value⟩]
    else
      [⟨"transition-property", value⟩,
        ⟨"transition-timing-function", "cubic-bezier(0.4, 0, 0.2, 1)"⟩,
        ⟨"transition-duration", transitionDuration theme⟩]
  | .duration => [⟨"transition-duration", value⟩]
  | .delay => [⟨"transition-delay", value⟩]
  | .opacity => [⟨"opacity", value⟩]
  | .zIndex => [⟨"z-index", value⟩]

end Utility

end AtomicCss
