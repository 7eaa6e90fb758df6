/-
The fewest digits that read back.

A finite magnitude stands for all reals that round to it, an interval around it whose
ends belong to it when its mantissa is even.  Written with `k` digits, the candidates
nearest to the magnitude are its two neighbours on the grid of `k`-digit numbers, so
the first `k` for which one of them lies in the interval gives the shortest text; of
two that do, the nearer is written, and the larger when they are equally near.
Seventeen digits always suffice.
-/
import AtomicCss.Decimal.Binary64

namespace AtomicCss.Decimal

/-- The decimal number `digits · 10 ^ exponent` that stands for a magnitude. -/
structure Shortest where
  digits : Nat
  exponent : Int

namespace Shortest

/-- A magnitude with its interval, all four scaled by one factor to be naturals: the
value, its distance to the lower end and to the upper end, and the unit. -/
structure Interval where
  value : Nat
  below : Nat
  above : Nat
  unit : Nat
  closed : Bool

/-- The interval of `mantissa · 2 ^ exponent`.  Below a power of two the neighbours are
half as far apart as above it. -/
def Interval.of (mantissa : Nat) (exponent : Int) : Interval :=
  let narrow := mantissa == twoTo 52 && exponent > -1074
  let closed := mantissa % 2 == 0
  if exponent ≥ 0 then
    let p := twoTo exponent.toNat
    ⟨4 * mantissa * p, if narrow then p else 2 * p, 2 * p, 4, closed⟩
  else
    ⟨4 * mantissa, if narrow then 1 else 2, 2, 4 * twoTo (-exponent).toNat, closed⟩

/-- Whether `candidate` (on the scale of the interval) rounds to the magnitude. -/
def Interval.holds (i : Interval) (candidate : Nat) : Bool :=
  if candidate ≤ i.value then
    i.value - candidate < i.below || (i.closed && i.value - candidate == i.below)
  else
    candidate - i.value < i.above || (i.closed && candidate - i.value == i.above)

/-- The interval with every length multiplied by `k`. -/
def Interval.scale (i : Interval) (k : Nat) : Interval :=
  { i with value := i.value * k, below := i.below * k, above := i.above * k }

/-- The nearest multiple of `10 ^ exponent` that rounds to the magnitude. -/
def onGrid? (i : Interval) (exponent : Int) : Option Nat :=
  let i := if exponent < 0 then i.scale (tenTo (-exponent).toNat) else i
  let step := if exponent < 0 then i.unit else i.unit * tenTo exponent.toNat
  let low := i.value / step
  let lowFits := low > 0 && i.holds (low * step)
  let highFits := i.holds ((low + 1) * step)
  if lowFits && highFits then
    if 2 * (i.value - low * step) < step then some low else some (low + 1)
  else if lowFits then some low
  else if highFits then some (low + 1)
  else none

/-- The exponent of the leading decimal digit of `value / unit`. -/
def leadingExponent (i : Interval) : Int :=
  if i.value ≥ i.unit then (Magnitude.digitCount (i.value / i.unit) : Int) - 1
  else -(Magnitude.digitCount ((i.unit - 1) / i.value) : Int)

/-- Searches the grids from coarse to fine, `grids` of them at most. -/
def search (i : Interval) (exponent : Int) : (grids : Nat) → Shortest
  | 0 => ⟨0, 0⟩
  | grids + 1 =>
    match onGrid? i exponent with
    | some digits => ⟨digits, exponent⟩
    | none => search i (exponent - 1) grids

/-- The shortest decimal number that rounds to `mantissa · 2 ^ exponent`.  The search
begins one place above the leading digit, since `9.99…` may be written `10`. -/
def ofFinite (mantissa : Nat) (exponent : Int) : Shortest :=
  if mantissa = 0 then ⟨0, 0⟩
  else
    let i := Interval.of mantissa exponent
    search i (leadingExponent i + 1) 19

/-- The number in positional notation, whatever its size: no exponent, and no point
where there is no fraction. -/
def positional (s : Shortest) : String :=
  let ds := Nat.toDigits 10 s.digits
  let text :=
    if s.exponent ≥ 0 then ds ++ List.replicate s.exponent.toNat '0'
    else
      let places := (-s.exponent).toNat
      let ds := List.replicate (places + 1 - ds.length) '0' ++ ds
      ds.take (ds.length - places) ++ '.' :: ds.drop (ds.length - places)
  String.ofList text

end Shortest

/-- The text of a magnitude: the shortest digits that read back, in positional notation. -/
def Magnitude.text : Magnitude → String
  | .infinite => "inf"
  | .finite m e => (Shortest.ofFinite m e).positional

end AtomicCss.Decimal
