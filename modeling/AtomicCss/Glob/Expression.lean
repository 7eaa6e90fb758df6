/-
The regular expression of a pattern.

Every token has an expression over the bytes of a path, and the expression of a pattern
is made of those in their order, between the marks for the beginning and the end.  What
counts for the depth of an expression are its groups, repetitions, classes, alternations
and sequences of more than one item, each of which goes one level down.
-/
import AtomicCss.Glob.Match

namespace AtomicCss.Glob

/-! ### Text -/

/-- The characters that have a meaning of their own in an expression. -/
def isSpecial (c : Char) : Bool :=
  "\\.+*?()|[]\x7b\x7d^$#&-~".toList.contains c

/-- The expression of a byte. -/
def escapedByte (b : UInt8) : String :=
  if b.toNat < 0x80 then
    let c := Char.ofNat b.toNat
    if isSpecial c then "\\" ++ c.toString else c.toString
  else "\\x" ++ String.ofList (Nat.toDigits 16 b.toNat)

/-- The expression of a character, byte by byte. -/
def escaped (c : Char) : String :=
  String.join ((String.utf8EncodeChar c).map escapedByte)

/-- The expression of a range. -/
def Range.expression (r : Range) : String :=
  if r.first = r.last then escaped r.first else escaped r.first ++ "-" ++ escaped r.last

mutual

/-- The expression of a token. -/
def Token.expression (separated : Bool) : Token → String
  | .literal c => escaped c
  | .any => if separated then "[^/]" else "."
  | .anyRun => if separated then "[^/]*" else ".*"
  | .leading => "(?:/?|.*/)"
  | .trailing => "/.*"
  | .between => "(?:/|/.*/)"
  | .oneOf negated ranges =>
    "[" ++ (if negated then "^" else "") ++ String.join (ranges.map Range.expression) ++ "]"
  | .alternates branches =>
    if allVoid branches then ""
    else "(?:" ++ "|".intercalate (branchExpressions separated branches) ++ ")"

/-- The expression of a sequence of tokens. -/
def sequenceExpression (separated : Bool) : List Token → String
  | [] => ""
  | t :: ts => t.expression separated ++ sequenceExpression separated ts

/-- The expressions of the branches that are not void. -/
def branchExpressions (separated : Bool) : List (List Token) → List String
  | [] => []
  | ts :: branches =>
    (if isVoid ts then [] else [sequenceExpression separated ts]) ++
      branchExpressions separated branches

end

/-- The expression of a pattern. -/
def expression (g : Glob) : String :=
  let body := match g.tokens with
    | [.leading] => ".*"
    | ts => sequenceExpression g.separated ts
  "(?-u)^" ++ body ++ "$"

/-! ### Depth -/

/-- How many items a range adds to a class. -/
def Range.items (r : Range) : Nat :=
  if r.first = r.last then r.first.utf8Size
  else r.first.utf8Size - 1 + 1 + (r.last.utf8Size - 1)

/-- How many items a token adds to a sequence. -/
def Token.items : Token → Nat
  | .literal c => c.utf8Size
  | .trailing => 2
  | .alternates branches => if allVoid branches then 0 else 1
  | _ => 1

/-- The level that several items side by side go down. -/
def level (items : Nat) : Nat :=
  if items ≤ 1 then 0 else 1

mutual

/-- How deep the expression of a token is. -/
def Token.depth (separated : Bool) : Token → Nat
  | .literal _ => 0
  | .any => if separated then 1 else 0
  | .anyRun => if separated then 2 else 1
  | .leading | .between => 4
  | .trailing => 1
  | .oneOf _ ranges => 1 + level (ranges.map Range.items).sum
  | .alternates branches =>
    1 + level (branches.filter fun ts => !isVoid ts).length + branchDepth separated branches

/-- How deep the items of a sequence of tokens are at most. -/
def itemDepth (separated : Bool) : List Token → Nat
  | [] => 0
  | t :: ts => max (t.depth separated) (itemDepth separated ts)

/-- How deep the branches of a group are at most. -/
def branchDepth (separated : Bool) : List (List Token) → Nat
  | [] => 0
  | ts :: branches =>
    max (level (ts.map Token.items).sum + itemDepth separated ts) (branchDepth separated branches)

end

/-- How deep the expression of a pattern is.  The marks around it make a sequence of it. -/
def depth (g : Glob) : Nat :=
  match g.tokens with
  | [.leading] => 2
  | ts => 1 + itemDepth g.separated ts

end AtomicCss.Glob
