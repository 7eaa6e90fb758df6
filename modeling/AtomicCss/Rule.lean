/-
Rules: what a class becomes in the stylesheet.

A literal found in a source is cut into modifiers and a utility class.  The class
gives the declarations, the modifiers say where they apply.  Most literals are no
classes at all and give no rule.
-/
import AtomicCss.Utility.Resolve
import AtomicCss.Variant.Chain
import AtomicCss.Variant.Expansion

namespace AtomicCss

/-- A CSS rule with the category it is sorted by. -/
structure Rule where
  category : Category
  selector : String
  /-- The media queries around the rule, outermost first. -/
  wrappers : List String
  declarations : List Declaration
  deriving DecidableEq

/-- The rule of a class, with how it came about. -/
structure ClassRule extends Rule where
  /-- The class as the source has it. -/
  literal : String
  token : TokenRef
  modifiers : List String
  important : Bool
  negative : Bool
  deriving DecidableEq

namespace ClassRule

/-- Resolves a literal under a theme and the meaning of modifiers. -/
def ofLiteral? (theme : Theme) (ctx : VariantContext) (literal : String) :
    Option ClassRule := do
  let (chain, base) := Chain.split literal.toList
  if chain.any List.isEmpty then none
  let rule ← BaseRule.ofClass? theme base
  let modifiers := chain.map String.ofList
  let expansion ← ctx.expand? literal rule.category modifiers
  return {
    literal, modifiers
    category := rule.category
    token := rule.token
    important := rule.important
    negative := rule.negative
    selector := expansion.selector
    wrappers := expansion.wrappers
    declarations := rule.declarations }

end ClassRule

end AtomicCss
