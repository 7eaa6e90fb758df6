/-
The values of a configuration document.
-/
import AtomicCss.Decimal.Shortest

namespace AtomicCss.Toml

/-- How a table came into the document, which decides what may still be added to it. -/
inductive Origin
  /-- Written in braces: complete as it stands. -/
  | inline
  /-- Opened by a header of its own. -/
  | header
  /-- Passed through by the header of a table below it. -/
  | implied
  /-- Passed through by a dotted key. -/
  | dotted
  deriving DecidableEq

/-- A number of the 64-bit binary format. -/
inductive Number
  | nan
  | real (negative : Bool) (magnitude : Decimal.Magnitude)
  deriving DecidableEq

/-- The text of a number: the shortest digits that read back, without an exponent. -/
def Number.text : Number → String
  | .nan => "NaN"
  | .real negative magnitude => (if negative then "-" else "") ++ magnitude.text

/-- A value of a document. -/
inductive Value
  | string (text : String)
  | integer (value : Int)
  | float (value : Number)
  | boolean (value : Bool)
  /-- A date, a time or both, in normal form. -/
  | moment (text : String)
  | array (elements : List Value)
  | table (origin : Origin) (entries : List (String × Value))
  /-- An array of tables, each opened by a header of its own. -/
  | tables (elements : List (List (String × Value)))

/-- The entries of a table. -/
abbrev Entries := List (String × Value)

end AtomicCss.Toml
