/-
Categories of design tokens.

A theme groups its tokens into eight categories.  Seven of them feed utilities; the
eighth, the screens, holds the breakpoints that responsive modifiers refer to.  The
order in which the categories are declared is the order of the rules in a stylesheet.
-/
namespace AtomicCss

/-- A group of design tokens. -/
inductive Category
  | zIndex
  | flex
  | scale
  | opacity
  | transitionProperty
  | transitionDelay
  | transitionDuration
  /-- Breakpoints of responsive modifiers; the one category without utilities. -/
  | screens
  deriving DecidableEq, Repr

namespace Category

/-- Every category, in stylesheet order. -/
def all : List Category :=
  [.zIndex, .flex, .scale, .opacity, .transitionProperty, .transitionDelay,
    .transitionDuration, .screens]

/-- The place of a category in stylesheet order. -/
def rank : Category → Nat
  | .zIndex => 0
  | .flex => 1
  | .scale => 2
  | .opacity => 3
  | .transitionProperty => 4
  | .transitionDelay => 5
  | .transitionDuration => 6
  | .screens => 7

instance : Ord Category := ⟨compareOn rank⟩

instance : Std.TransOrd Category := inferInstanceAs (Std.TransCmp (compareOn rank))

instance : Std.LawfulEqOrd Category where
  eq_of_compare {a b} h := by
    have h : compare a.rank b.rank = .eq := h
    have : a.rank = b.rank := Std.LawfulEqOrd.eq_of_compare h
    cases a <;> cases b <;> first | rfl | cases this

/-- The name of a category in a configuration. -/
def key : Category → String
  | .zIndex => "zIndex"
  | .flex => "flex"
  | .scale => "scale"
  | .opacity => "opacity"
  | .transitionProperty => "transitionProperty"
  | .transitionDelay => "transitionDelay"
  | .transitionDuration => "transitionDuration"
  | .screens => "screens"

/-- The category with a given name. -/
def ofKey? (name : String) : Option Category :=
  all.find? fun c => c.key == name

/-- Whether classes can belong to the category. -/
def isUtility (c : Category) : Bool :=
  c != .screens

/-- Whether the token `DEFAULT` is out of reach of a class without a value. -/
def filtersDefault : Category → Bool
  | .transitionDuration | .transitionDelay => true
  | _ => false

/-- Whether classes of the category may be negated. -/
def allowsNegative : Category → Bool
  | .scale | .zIndex => true
  | _ => false

theorem mem_all (c : Category) : c ∈ all := by cases c <;> decide

theorem ofKey?_key (c : Category) : ofKey? c.key = some c := by cases c <;> decide

end Category

end AtomicCss
