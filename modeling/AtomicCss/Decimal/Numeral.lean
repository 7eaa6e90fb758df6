/-
Decimal numerals and the numbers they denote.

A numeral `d₁…dₖ.e₁…eₗ` with decimal exponent `x` denotes `n · 10 ^ (x - l)`, where
`n` is the number that all its digits spell.  That pair is exact; rounding to a
machine format is a separate step.
-/
namespace AtomicCss.Decimal

/-- A power of two. -/
def twoTo (k : Nat) : Nat := Nat.pow 2 k

/-- A power of ten. -/
def tenTo (k : Nat) : Nat := Nat.pow 10 k

/-- The number that a list of decimal digits spells. -/
def digitsValue (ds : List Char) : Nat :=
  ds.foldl (fun n d => 10 * n + (d.toNat - '0'.toNat)) 0

/-- The number that a list of digits spells in base `base`, letters standing for the
digits from ten on. -/
def radixValue (base : Nat) (ds : List Char) : Nat :=
  ds.foldl (fun n d => base * n + digit d) 0
where
  digit (d : Char) : Nat :=
    if d.isDigit then d.toNat - '0'.toNat
    else if d.isLower then d.toNat - 'a'.toNat + 10
    else d.toNat - 'A'.toNat + 10

/-- A non-negative number `digits · 10 ^ exponent`. -/
structure Scaled where
  digits : Nat
  exponent : Int

/-- The number of a numeral with these digits before and after the point and this
exponent. -/
def Scaled.ofDigits (whole fraction : List Char) (exponent : Int) : Scaled :=
  ⟨digitsValue (whole ++ fraction), exponent - fraction.length⟩

/-- Reads a numeral without sign or exponent: digits, with at most one point among
them, and at least one digit. -/
def Scaled.ofNumeral? (cs : List Char) : Option Scaled :=
  let whole := cs.takeWhile Char.isDigit
  match cs.dropWhile Char.isDigit with
  | [] => if whole.isEmpty then none else some (.ofDigits whole [] 0)
  | c :: fraction =>
    if c = '.' && fraction.all Char.isDigit && !(whole ++ fraction).isEmpty then
      some (.ofDigits whole fraction 0)
    else none

end AtomicCss.Decimal
