/-
Resolving a class without modifiers.

`!` in front makes every declaration important and `-` after it negates the value.
What follows is the stem of a utility, alone or with a hyphen and a token or bracketed
value.
-/
import AtomicCss.Utility.Arbitrary
import AtomicCss.Utility.Basic
import AtomicCss.Utility.Negate

namespace AtomicCss

open Text

/-- A class resolved against a theme, before modifiers. -/
structure BaseRule where
  category : Category
  token : TokenRef
  important : Bool
  negative : Bool
  declarations : List Declaration
  deriving DecidableEq

/-- A declaration that other rules do not override. -/
def Declaration.makeImportant (d : Declaration) : Declaration :=
  { d with value := d.value ++ " !important" }

namespace Utility

/-- What follows the stem of a utility in a class of it. -/
inductive Tail
  /-- The class is the stem alone. -/
  | bare
  /-- What stands after the stem and a hyphen. -/
  | suffix (text : List Char)
  deriving DecidableEq

/-- The tail of a class of the utility. -/
def tail? (u : Utility) (cs : List Char) : Option Tail :=
  match after? u.stem.toList cs with
  | some [] => some .bare
  | some ('-' :: rest) => some (.suffix rest)
  | _ => none

/-- The utility of a class, with the class's tail. -/
def find? (cs : List Char) : Option (Utility × Tail) :=
  all.findSome? fun u => (u.tail? cs).map (u, ·)

/-- The token and the value that a tail names in a category. -/
def tokenValue? (theme : Theme) (category : Category) : Tail → Option (TokenRef × String)
  | .bare =>
    if category.filtersDefault then none
    else (theme.find? category defaultToken).map (.theme defaultToken, ·)
  | .suffix text =>
    match Arbitrary.bracketed? text with
    | some raw => (Arbitrary.value? raw).map fun value => (.arbitrary value, value)
    | none =>
      let token := String.ofList text
      if token = "" || token = defaultToken then none
      else (theme.find? category token).map (.theme token, ·)

end Utility

namespace BaseRule

/-- Takes a mark off the front of a class, and says whether it was there. -/
def takeMark (mark : Char) : List Char → Bool × List Char
  | [] => (false, [])
  | c :: cs => if c = mark then (true, cs) else (false, c :: cs)

/-- Resolves a class without modifiers. -/
def ofClass? (theme : Theme) (cs : List Char) : Option BaseRule := do
  let (important, cs) := takeMark '!' cs
  let (negative, cs) := takeMark '-' cs
  let (utility, tail) ← Utility.find? cs
  let category := utility.category
  if negative && !category.allowsNegative then none
  let (token, value) ← Utility.tokenValue? theme category tail
  let value ← if negative then Value.negate? value else some value
  let declarations := utility.declarations theme value
  return {
    category, token, important, negative
    declarations :=
      if important then declarations.map Declaration.makeImportant else declarations }

end BaseRule

end AtomicCss
