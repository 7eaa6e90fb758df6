/-
Breakpoints from the narrowest to the widest.

Two widths with one unit are ordered by their numbers, as the 64-bit binary format
holds them; all others by their texts.  Mixed units make this no transitive relation,
so the sorting procedure is part of the rule.  A short list is sorted by insertion:
breakpoints are taken in the order of their names, and each moves left from the end
past every breakpoint it precedes.  A longer one is sorted by merging, which may break
off where the relation is not transitive.  When it does is left open, so every such
list counts as one that cannot be sorted.  With a transitive relation both ways lead to
one order, since no two breakpoints have one name.
-/
import AtomicCss.Decimal.Binary64
import AtomicCss.Text.Blank

namespace AtomicCss

/-- A named breakpoint. -/
structure Breakpoint where
  name : String
  width : String
  deriving DecidableEq

namespace Breakpoint

open Text Decimal

/-- A width that is a number with a unit. -/
structure Width where
  number : Magnitude
  unit : List Char

/-- Reads a width: a numeral without sign, then a unit, white space around both. -/
def Width.ofText? (text : String) : Option Width := do
  let cs := trim text.toList
  let isNumeral := fun c : Char => c.isDigit || c == '.'
  let number ← Scaled.ofNumeral? (cs.takeWhile isNumeral)
  let unit := trim (cs.dropWhile isNumeral)
  if unit.isEmpty then none else some ⟨.ofScaled number, unit⟩

/-- Orders two breakpoints by width, then by name. -/
def compare (a b : Breakpoint) : Ordering :=
  let byText := (Ord.compare a.width b.width).then (Ord.compare a.name b.name)
  match Width.ofText? a.width, Width.ofText? b.width with
  | some v, some w =>
    if v.unit = w.unit then (v.number.compare w.number).then (Ord.compare a.name b.name)
    else byText
  | _, _ => byText

/-- The comparison puts `a` no later than `b`. -/
def AtMost (a b : Breakpoint) : Prop :=
  (a.compare b).isLE = true

instance (a b : Breakpoint) : Decidable (AtMost a b) :=
  inferInstanceAs (Decidable (_ = true))

/-- The comparison is transitive among some breakpoints. -/
def Consistent (bs : List Breakpoint) : Prop :=
  ∀ a ∈ bs, ∀ b ∈ bs, ∀ c ∈ bs, AtMost a b → AtMost b c → AtMost a c

instance (bs : List Breakpoint) : Decidable (Consistent bs) :=
  inferInstanceAs
    (Decidable (∀ a ∈ bs, ∀ b ∈ bs, ∀ c ∈ bs, AtMost a b → AtMost b c → AtMost a c))

/-- Puts `a` into a list that has the widest breakpoint first. -/
def place (a : Breakpoint) : List Breakpoint → List Breakpoint
  | [] => [a]
  | b :: rest => if a.compare b = .lt then b :: place a rest else a :: b :: rest

/-- The breakpoints in the order to which insertion brings them. -/
def placeAll (bs : List Breakpoint) : List Breakpoint :=
  (bs.foldl (fun sorted b => place b sorted) []).reverse

/-- How long a list can be that is always sorted by insertion. -/
def insertionLimit : Nat := 20

/-- The breakpoints from the narrowest to the widest, unless sorting may break off. -/
def sort? (bs : List Breakpoint) : Option (List Breakpoint) :=
  if bs.length ≤ insertionLimit ∨ Consistent bs then some (placeAll bs) else none

end Breakpoint

end AtomicCss
