/-
Applying modifiers to a class.

Each modifier contributes in one of three places: a media query around the rule, an
ancestor in front of the selector, or a pseudo-class behind it.  Contributions to one
place keep the order of the modifiers.
-/
import AtomicCss.Selector
import AtomicCss.Variant.Context

namespace AtomicCss

/-- Where a class's rule applies. -/
structure Expansion where
  selector : String
  /-- The media queries around the rule, outermost first. -/
  wrappers : List String
  deriving DecidableEq

/-- What one modifier adds to a rule. -/
inductive Contribution
  | wrapper (query : String)
  | ancestor (selector : String)
  | pseudoClass (selector : String)
  deriving DecidableEq

namespace Contribution

/-- The media query, if it is one. -/
def wrapper? : Contribution → Option String
  | .wrapper query => some query
  | _ => none

/-- The ancestor, if it is one. -/
def ancestor? : Contribution → Option String
  | .ancestor selector => some selector
  | _ => none

/-- The pseudo-class, if it is one. -/
def pseudoClass? : Contribution → Option String
  | .pseudoClass selector => some selector
  | _ => none

end Contribution

namespace VariantContext

/-- What a modifier adds to a rule. -/
def contribution? (ctx : VariantContext) : Modifier → Option Contribution
  | .dark =>
    match ctx.darkMode with
    | .disabled => none
    | .media => some (.wrapper "(prefers-color-scheme: dark)")
    | .ancestor => some (.ancestor ".dark")
  | .screen width => some (.wrapper s!"(min-width: {width})")
  | .media _ query => some (.wrapper query)
  | .pseudoClass _ selector => some (.pseudoClass selector)
  | .ancestor _ selector => some (.ancestor selector)

/-- What a modifier, given by name, adds to a rule of a category. -/
def contributionOf? (ctx : VariantContext) (category : Category) (name : String) :
    Option Contribution := do
  let modifier ← ctx.recognize? name
  if ctx.allows category modifier then ctx.contribution? modifier else none

/-- The rule of the class `literal`, given its modifiers' contributions. -/
def assemble (literal : String) (contributions : List Contribution) : Expansion where
  selector :=
    String.join ((contributions.filterMap Contribution.ancestor?).map (· ++ " ")) ++
      Selector.ofClass literal ++
      String.join (contributions.filterMap Contribution.pseudoClass?)
  wrappers := contributions.filterMap Contribution.wrapper?

/-- The rule of the class `literal` of a category under a chain of modifiers, unless one
of them is unknown or not enabled. -/
def expand? (ctx : VariantContext) (literal : String) (category : Category)
    (chain : List String) : Option Expansion := do
  return assemble literal (← chain.mapM (ctx.contributionOf? category))

end VariantContext

end AtomicCss
