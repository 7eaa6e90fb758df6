/-
Magnitudes of the 64-bit binary format.

A finite magnitude is `mantissa · 2 ^ exponent` with a mantissa of at most 53 bits and
an exponent between -1074 and 971.  Each number has one normal form: the exponent is
-1074, or the mantissa has exactly 53 bits.  In normal form the order of the numbers
is that of the exponents, and of the mantissas where the exponents agree.
-/
import AtomicCss.Decimal.Numeral

namespace AtomicCss.Decimal

/-- A non-negative number of the 64-bit binary format. -/
inductive Magnitude
  /-- `mantissa · 2 ^ exponent`, in normal form. -/
  | finite (mantissa : Nat) (exponent : Int)
  | infinite
  deriving DecidableEq

namespace Magnitude

/-- Zero. -/
def zero : Magnitude := .finite 0 (-1074)

/-- Orders two magnitudes. -/
def compare : Magnitude → Magnitude → Ordering
  | .infinite, .infinite => .eq
  | .infinite, .finite .. => .gt
  | .finite .., .infinite => .lt
  | .finite m p, .finite n q => (Ord.compare p q).then (Ord.compare m n)

/-- `num / den`, rounded to the nearest integer, a half to the even one. -/
def divNearest (num den : Nat) : Nat :=
  let q := num / den
  let r := num % den
  if 2 * r < den || (2 * r == den && q % 2 == 0) then q else q + 1

/-- `num / den` as a quotient of naturals after division by `2 ^ exponent`. -/
def scaleDown (num den : Nat) (exponent : Int) : Nat × Nat :=
  if exponent ≥ 0 then (num, den * twoTo exponent.toNat)
  else (num * twoTo (-exponent).toNat, den)

/-- The magnitude nearest to `num / den`, a half going to the even mantissa. -/
def ofRatio (num den : Nat) : Magnitude :=
  if num = 0 then zero
  else
    let estimate := max ((num.log2 : Int) - den.log2 - 53) (-1074)
    let (n, d) := scaleDown num den estimate
    let exponent := if n / d ≥ twoTo 53 then estimate + 1 else estimate
    let (n, d) := scaleDown num den exponent
    let mantissa := divNearest n d
    let (mantissa, exponent) :=
      if mantissa = twoTo 53 then (twoTo 52, exponent + 1) else (mantissa, exponent)
    if exponent > 971 then .infinite else .finite mantissa exponent

/-- How many decimal digits `n` has, none for zero. -/
def digitCount (n : Nat) : Nat :=
  if n = 0 then 0 else (Nat.toDigits 10 n).length

/-- The magnitude nearest to a decimal number.  Below `10 ^ -400` all round to zero and
from `10 ^ 400` on to infinity, so no larger power is ever formed. -/
def ofScaled (s : Scaled) : Magnitude :=
  let top := s.exponent + digitCount s.digits
  if s.digits = 0 || top < -400 then zero
  else if top > 400 then .infinite
  else if s.exponent ≥ 0 then ofRatio (s.digits * tenTo s.exponent.toNat) 1
  else ofRatio s.digits (tenTo (-s.exponent).toNat)

end Magnitude

end AtomicCss.Decimal
