/-
Numbers of a document.

An underscore may stand between any two digits.  A decimal number has no leading zero;
it is an integer, of 64 bits with its sign, unless a fraction or an exponent follows,
and then it is rounded to the 64-bit binary format.  Integers may also be written in
base sixteen, eight or two, without sign.  A fraction that would round to infinity is
refused, unless it is negative; infinity itself can be written.
-/
import AtomicCss.Toml.Quoted
import AtomicCss.Toml.Value

namespace AtomicCss.Toml

open Decimal

/-- Reads digits with single underscores between them.  Gives the digits alone. -/
def digits? (isDigit : Char → Bool) (cs : List Char) : Option (List Char × List Char) :=
  match cs with
  | [] => none
  | c :: cs => if isDigit c then some (more c cs) else none
where
  /-- Reads on after the digit `c`. -/
  more (c : Char) : List Char → List Char × List Char
    | '_' :: d :: cs =>
      if isDigit d then consRead c (more d cs) else ([c], '_' :: d :: cs)
    | d :: cs => if isDigit d then consRead c (more d cs) else ([c], d :: cs)
    | [] => ([c], [])

/-- Reads the integer part of a decimal number, which is zero or has no leading zero. -/
def wholeDigits? (cs : List Char) : Option (List Char × List Char) :=
  match cs with
  | '0' :: rest => some (['0'], rest)
  | cs => digits? Char.isDigit cs

/-- Takes a sign off, and says whether it was a minus sign. -/
def takeSign : List Char → Bool × List Char
  | '-' :: cs => (true, cs)
  | '+' :: cs => (false, cs)
  | cs => (false, cs)

/-- Reads a fraction after its point, if there is one. -/
def fractionDigits? (cs : List Char) : Option (List Char × List Char) :=
  match cs with
  | '.' :: cs => digits? Char.isDigit cs
  | cs => some ([], cs)

/-- Reads a decimal exponent, if there is one. -/
def exponent? (cs : List Char) : Option (Int × List Char) :=
  match cs with
  | c :: rest =>
    if c = 'e' || c = 'E' then do
      let (negative, rest) := takeSign rest
      let (ds, rest) ← digits? Char.isDigit rest
      let n : Int := digitsValue ds
      return (if negative then -n else n, rest)
    else some (0, cs)
  | [] => some (0, [])

/-- An integer of 64 bits with sign. -/
def integer? (n : Int) : Option Value :=
  if Int64.minValue.toInt ≤ n && n ≤ Int64.maxValue.toInt then some (.integer n) else none

/-- A number with a fraction, unless it is refused. -/
def float? (negative : Bool) (n : Scaled) : Option Value :=
  let magnitude := Magnitude.ofScaled n
  if magnitude = .infinite && !negative then none else some (.float (.real negative magnitude))

/-- Whether a decimal number goes on with a fraction or an exponent. -/
def isFloatAhead : List Char → Bool
  | c :: _ => c == '.' || c == 'e' || c == 'E'
  | [] => false

/-- Reads a decimal number, its sign already taken off. -/
def decimal? (negative : Bool) (cs : List Char) : Option (Value × List Char) := do
  let (whole, cs) ← wholeDigits? cs
  if isFloatAhead cs then
    let (fraction, cs) ← fractionDigits? cs
    let (exponent, cs) ← exponent? cs
    return (← float? negative (.ofDigits whole fraction exponent), cs)
  else
    let n : Int := digitsValue whole
    return (← integer? (if negative then -n else n), cs)

/-- Reads an integer in another base after its mark. -/
def radix? (base : Nat) (isDigit : Char → Bool) (cs : List Char) :
    Option (Value × List Char) := do
  let (ds, rest) ← digits? isDigit cs
  return (← integer? (radixValue base ds), rest)

/-- Reads a number. -/
def number? (cs : List Char) : Option (Value × List Char) :=
  match cs with
  | '0' :: 'x' :: cs => radix? 16 isHexDigit cs
  | '0' :: 'o' :: cs => radix? 8 (fun c => '0' ≤ c && c ≤ '7') cs
  | '0' :: 'b' :: cs => radix? 2 (fun c => c == '0' || c == '1') cs
  | cs =>
    let (negative, cs) := takeSign cs
    match cs with
    | 'i' :: 'n' :: 'f' :: cs => some (.float (.real negative .infinite), cs)
    | 'n' :: 'a' :: 'n' :: cs => some (.float .nan, cs)
    | cs => decimal? negative cs

end AtomicCss.Toml
