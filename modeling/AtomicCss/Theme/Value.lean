/-
The grammars of token values.

Every category accepts the values of one kind.  A number here has no exponent; a time
or a length is a number directly followed by its unit, and carries no plus sign; the
flex shorthand is a keyword or one to three components; a property list separates
lower-case names by commas.
-/
import AtomicCss.Category
import AtomicCss.Text.Affix
import AtomicCss.Text.Blank

namespace AtomicCss

/-- What the values of a category look like. -/
inductive ValueKind
  | number
  | zIndex
  | flex
  | time
  | length
  | propertyList
  deriving DecidableEq

namespace Value

open Text

/-- A number's digits and points: at most one point, at least one digit. -/
def isUnsignedNumber (cs : List Char) : Bool :=
  cs.all (fun c => c.isDigit || c == '.') && cs.count '.' ≤ 1 && cs.any Char.isDigit

/-- A number: an optional sign, then digits with at most one point among them. -/
def isNumber : List Char → Bool
  | '-' :: cs => isUnsignedNumber cs
  | '+' :: cs => isUnsignedNumber cs
  | cs => isUnsignedNumber cs

/-- An integer: an optional minus sign and at least one digit. -/
def isInteger (cs : List Char) : Bool :=
  let digits := (after? ['-'] cs).getD cs
  !digits.isEmpty && digits.all Char.isDigit

/-- Whether `cs` is a number without plus sign, directly followed by one of `units`. -/
def hasUnit (units : List String) (cs : List Char) : Bool :=
  units.any fun unit =>
    match before? unit.toList cs with
    | some number => isNumber number && number.head? != some '+'
    | none => false

/-- The units of length. -/
def lengthUnits : List String :=
  ["px", "rem", "em", "vh", "vw", "vmin", "vmax", "ch", "ex", "pt", "pc", "cm", "mm", "in"]

/-- The units of time. -/
def timeUnits : List String :=
  ["ms", "s"]

/-- One component of the flex shorthand. -/
def isFlexComponent (cs : List Char) : Bool :=
  isNumber cs || cs == "auto".toList || cs == "content".toList || hasUnit ["%"] cs ||
    hasUnit lengthUnits cs

/-- The flex shorthand: a keyword, or one to three components. -/
def isFlexShorthand (cs : List Char) : Bool :=
  ["none", "auto", "initial", "inherit"].contains (String.ofList cs) ||
    (let parts := words cs
     !parts.isEmpty && parts.length ≤ 3 && parts.all isFlexComponent)

/-- A property name: lower-case letters, digits and hyphens. -/
def isPropertyName (cs : List Char) : Bool :=
  !cs.isEmpty && cs.all fun c => c.isLower || c.isDigit || c == '-'

/-- Property names separated by commas. -/
def isPropertyList (cs : List Char) : Bool :=
  (cs.splitOnP (· == ',')).all fun name => isPropertyName (trim name)

end Value

namespace ValueKind

open Value

/-- How a kind is called in messages. -/
def describe : ValueKind → String
  | .number => "number"
  | .zIndex => "integer or 'auto'"
  | .flex => "flex shorthand"
  | .time => "time (ms or s)"
  | .length => "length"
  | .propertyList => "comma-separated property list"

/-- Whether a trimmed value is of the kind. -/
def acceptsTrimmed (cs : List Char) : ValueKind → Bool
  | .number => isNumber cs
  | .zIndex => cs == "auto".toList || isInteger cs
  | .flex => isFlexShorthand cs
  | .time => cs == ['0'] || hasUnit timeUnits cs
  | .length => cs == ['0'] || hasUnit lengthUnits cs
  | .propertyList => isPropertyList cs

/-- Whether a value, white space around it aside, is of the kind. -/
def accepts (kind : ValueKind) (value : String) : Bool :=
  kind.acceptsTrimmed (Text.trim value.toList)

end ValueKind

/-- The kind of the values of a category. -/
def Category.valueKind : Category → ValueKind
  | .zIndex => .zIndex
  | .flex => .flex
  | .scale | .opacity => .number
  | .transitionProperty => .propertyList
  | .transitionDelay | .transitionDuration => .time
  | .screens => .length

end AtomicCss
