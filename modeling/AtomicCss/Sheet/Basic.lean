/-
Stylesheets.

A stylesheet holds one rule for each pair of wrappers and selector, the first that was
given.  Its rules are ordered by category, and within a category as they were given.
-/
import AtomicCss.Distinct
import AtomicCss.Sheet.Render

namespace AtomicCss

/-- An ordered list of rules with a layout. -/
structure Stylesheet where
  rules : List Rule
  style : Style
  deriving DecidableEq

namespace Stylesheet

/-- The stylesheet of a list of rules. -/
def ofRules (style : Style) (rules : List Rule) : Stylesheet where
  rules :=
    let distinct := distinctOn (fun r => (r.wrappers, r.selector)) rules
    Category.all.flatMap fun c => distinct.filter (·.category = c)
  style := style

/-- The text of a stylesheet.  In the pretty form rules stand on lines of their own and
the last one ends its line. -/
def text (sheet : Stylesheet) : String :=
  let rules := sheet.rules.map (Rule.render sheet.style)
  match sheet.style with
  | .minified => String.join rules
  | .pretty => if rules.isEmpty then "" else "\n".intercalate rules ++ "\n"

end Stylesheet

end AtomicCss
