/-
Values written in brackets.

A class may carry its value itself, between brackets.  Since a class cannot contain a
space, an underscore stands for one, and an underscore after a backslash for itself.
A value that could end the declaration it is written into is refused.
-/
import AtomicCss.Text.Affix
import AtomicCss.Text.Blank

namespace AtomicCss.Arbitrary

open Text

/-- The characters that end a declaration or its block. -/
def endsDeclaration (c : Char) : Bool :=
  c == ';' || c == '\x7b' || c == '\x7d'

/-- The value a bracketed text stands for. -/
def decode : List Char → List Char
  | [] => []
  | '\\' :: '_' :: cs => '_' :: decode cs
  | '_' :: cs => ' ' :: decode cs
  | c :: cs => c :: decode cs

/-- The text between the brackets of a class's value, if it has any. -/
def bracketed? (suffix : List Char) : Option (List Char) := do
  before? [']'] (← after? ['['] suffix)

/-- The value of a bracketed text; none if it could end its declaration or is blank. -/
def value? (raw : List Char) : Option String :=
  let value := decode raw
  if raw.any endsDeclaration || value.all isBlank then none
  else some (String.ofList value)

end AtomicCss.Arbitrary
