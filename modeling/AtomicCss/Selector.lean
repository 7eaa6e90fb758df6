/-
Class selectors.

A class name may hold characters that mean something in a selector; each of these is
written after a backslash.  An identifier cannot begin with a digit, so a leading digit
is written by its code point in hexadecimal, closed by a space.
-/
namespace AtomicCss.Selector

/-- The characters that are written after a backslash. -/
def isSpecial (c : Char) : Bool :=
  ['\\', ':', '/', '[', ']', '(', ')', '%', '!', '#', ',', '+', '*', '.'].contains c

/-- One character of an identifier, the first aside. -/
def escapeChar (c : Char) : List Char :=
  if isSpecial c then ['\\', c] else [c]

/-- A leading digit: its code point in hexadecimal, closed by a space. -/
def escapeDigit (c : Char) : List Char :=
  '\\' :: Nat.toDigits 16 c.toNat ++ [' ']

/-- The identifier of a class name. -/
def escape : List Char → List Char
  | [] => []
  | c :: cs =>
    (if c.isDigit then escapeDigit c else escapeChar c) ++ cs.flatMap escapeChar

/-- The selector of a class. -/
def ofClass (name : String) : String :=
  String.ofList ('.' :: escape name.toList)

end AtomicCss.Selector
