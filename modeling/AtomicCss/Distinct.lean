/-
First occurrences.

Several results keep each thing once, at the place where it is met first: rules,
candidates, files.
-/
import Std.Data.HashSet

namespace AtomicCss

variable {α κ : Type} [BEq κ] [Hashable κ]

/-- Keeps `x` unless something with its key was kept before. -/
def keepFirst (key : α → κ) (state : Std.HashSet κ × Array α) (x : α) :
    Std.HashSet κ × Array α :=
  if state.1.contains (key x) then state
  else (state.1.insert (key x), state.2.push x)

/-- The elements of `xs` whose key no earlier element has. -/
def distinctOn (key : α → κ) (xs : List α) : List α :=
  (xs.foldl (keepFirst key) (∅, #[])).2.toList

end AtomicCss
