/-
Glob patterns as lists of tokens.

A star stands for any run of bytes, a question mark for one byte, brackets for one
byte of a set and braces for one of several branches.  Two stars that fill a whole
component stand for any number of components; what they take of the slashes around
them depends on where in the pattern they stand, so there is a token for each place.
-/
namespace AtomicCss.Glob

/-- The characters from `first` to `last`. -/
structure Range where
  first : Char
  last : Char
  deriving DecidableEq, Repr

/-- One element of a pattern. -/
inductive Token
  | literal (c : Char)
  /-- One byte. -/
  | any
  /-- Any number of bytes. -/
  | anyRun
  /-- Two stars at the beginning of a pattern or branch, with the slash after them. -/
  | leading
  /-- Two stars at the end, with the slash before them. -/
  | trailing
  /-- Two stars between slashes, with both slashes. -/
  | between
  /-- One byte inside the ranges, or outside all of them if `negated`. -/
  | oneOf (negated : Bool) (ranges : List Range)
  /-- One of several branches. -/
  | alternates (branches : List (List Token))
  deriving Repr, Inhabited

/-- Why a text is no pattern. -/
inductive Fault
  | unclosedClass
  | unopenedAlternates
  | unclosedAlternates
  /-- A backslash at the end. -/
  | danglingEscape
  /-- A range whose end comes before its beginning. -/
  | invalidRange (first last : Char)
  deriving DecidableEq, Repr

/-- The text of a fault. -/
def Fault.message : Fault → String
  | .unclosedClass => "unclosed character class; missing ']'"
  | .unopenedAlternates =>
    "unopened alternate group; missing '\x7b' (maybe escape '\x7d' with '[\x7d]'?)"
  | .unclosedAlternates =>
    "unclosed alternate group; missing '\x7d' (maybe escape '\x7b' with '[\x7b]'?)"
  | .danglingEscape => "dangling '\\'"
  | .invalidRange first last => s!"invalid range; '{first}' > '{last}'"

/-- The text of a fault, with the pattern that has it. -/
def Fault.report (pattern : String) (fault : Fault) : String :=
  s!"error parsing glob '{pattern}': {fault.message}"

end AtomicCss.Glob
