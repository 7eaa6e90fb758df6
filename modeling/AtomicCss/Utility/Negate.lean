/-
Negative values.

The negative of a number is written as a number again, that of a keyword does not
exist, and any other value is multiplied by -1.
-/
import AtomicCss.Theme.Value

namespace AtomicCss.Value

open Text

/-- Whether a number is zero, written without a sign. -/
def isPlainZero (cs : List Char) : Bool :=
  cs.all fun c => c == '0' || c == '.'

/-- Whether a value consists of letters and hyphens alone. -/
def isKeyword (cs : List Char) : Bool :=
  cs.all fun c => c.isAlpha || c == '-'

/-- The negative of a number: its sign is taken off or put on. -/
def negateNumber (cs : List Char) : List Char :=
  if isPlainZero cs then cs
  else match cs with
    | '-' :: rest => rest
    | _ => '-' :: cs.dropWhile (· == '+')

/-- The negative of a value. -/
def negate? (value : String) : Option String :=
  let cs := trim value.toList
  if isNumber cs then some (String.ofList (negateNumber cs))
  else if isKeyword cs then none
  else some (String.ofList ("calc(".toList ++ cs ++ " * -1)".toList))

end AtomicCss.Value
