/-
How deep patterns may be.

Patterns that are used together are refused together if the expression of one of them
is too deep.  Patterns that are decided by fixed text, by a name or by an extension alone
have no expression; of the others those that end with an extension are looked at first.
-/
import AtomicCss.Glob.Expression
import AtomicCss.Glob.Shape

namespace AtomicCss.Glob

/-- How deep an expression may be. -/
def depthLimit : Nat := 250

/-- Whether the expression of a pattern is too deep. -/
def isTooDeep (g : Glob) : Bool :=
  depthLimit < g.depth

/-- Which of some patterns is too deep. -/
inductive DepthFault
  /-- A pattern that ends with an extension. -/
  | extended (expression : String)
  /-- The general pattern at this place among the general ones. -/
  | general (place : Nat)
  deriving DecidableEq

/-- The text of a fault. -/
def DepthFault.message : DepthFault → String
  | .extended expression => s!"error parsing glob '{expression}': error parsing pattern 0"
  | .general place => s!"error parsing pattern {place}"

/-- The first of some patterns that is too deep. -/
def depthFault? (globs : List Glob) : Option DepthFault :=
  match globs.find? fun g => g.shape = .extended && isTooDeep g with
  | some g => some (.extended g.expression)
  | none => ((globs.filter (·.shape = .general)).findIdx? isTooDeep).map .general

end AtomicCss.Glob
