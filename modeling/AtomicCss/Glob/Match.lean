/-
What a pattern matches.

A pattern is compared with the bytes of a path.  A token takes some bytes from the
front and leaves the rest, often in several ways, so its meaning is the list of all
rests it can leave; a pattern matches if it can leave nothing.  A slash is a byte like
any other, except that in a pattern with separated components a question mark does not
match one and a star does not run across one.
-/
import AtomicCss.Glob.Reader
import AtomicCss.Text.Affix

namespace AtomicCss.Glob

/-- The bytes of a text. -/
abbrev Bytes := List UInt8

/-- The bytes of a list of characters. -/
def bytes (cs : List Char) : Bytes :=
  cs.flatMap String.utf8EncodeChar

/-- The byte of a slash. -/
def slash : UInt8 := 0x2F

/-- Whether a byte lies in a range.  A character of several bytes lends each of them to
the range, and the range itself runs from the last byte of its first character to the
first byte of its last one. -/
def Range.hasByte (r : Range) (b : UInt8) : Bool :=
  let first := String.utf8EncodeChar r.first
  let last := String.utf8EncodeChar r.last
  if r.first = r.last then first.contains b
  else
    first.dropLast.contains b || last.tail.contains b ||
      (first.getLast?.any (· ≤ b) && last.head?.any (b ≤ ·))

/-- What is left after any number of bytes that satisfy `p`. -/
def afterRun (p : UInt8 → Bool) : Bytes → List Bytes
  | [] => [[]]
  | b :: s => (b :: s) :: if p b then afterRun p s else []

/-- What is left after any slash. -/
def afterSlashes : Bytes → List Bytes
  | [] => []
  | b :: s => if b = slash then s :: afterSlashes s else afterSlashes s

mutual

/-- Whether a token is made of empty alternates only. -/
def Token.isVoid : Token → Bool
  | .alternates branches => allVoid branches
  | _ => false

/-- Whether a branch is made of empty alternates only. -/
def isVoid : List Token → Bool
  | [] => true
  | t :: ts => t.isVoid && isVoid ts

/-- Whether all branches are made of empty alternates only. -/
def allVoid : List (List Token) → Bool
  | [] => true
  | ts :: branches => isVoid ts && allVoid branches

end

mutual

/-- What a token can leave of `s`. -/
def Token.rests (separated : Bool) : Token → Bytes → List Bytes
  | .literal c, s => (Text.after? (String.utf8EncodeChar c) s).toList
  | .any, s =>
    match s with
    | [] => []
    | b :: s => if separated && b = slash then [] else [s]
  | .anyRun, s => afterRun (fun b => !(separated && b = slash)) s
  | .leading, s => s :: afterSlashes s
  | .trailing, s =>
    match s with
    | [] => []
    | b :: s => if b = slash then afterRun (fun _ => true) s else []
  | .between, s =>
    match s with
    | [] => []
    | b :: s => if b = slash then s :: afterSlashes s else []
  | .oneOf negated ranges, s =>
    match s with
    | [] => []
    | b :: s => if ranges.any (·.hasByte b) != negated then [s] else []
  | .alternates branches, s =>
    if allVoid branches then [s] else branchRests separated branches s

/-- What a sequence of tokens can leave of any of several texts. -/
def sequenceRests (separated : Bool) : List Token → List Bytes → List Bytes
  | [], ss => ss
  | t :: ts, ss => sequenceRests separated ts (ss.flatMap fun s => t.rests separated s).eraseDups

/-- What the branches that are not void can leave of `s`. -/
def branchRests (separated : Bool) : List (List Token) → Bytes → List Bytes
  | [], _ => []
  | ts :: branches, s =>
    (if isVoid ts then [] else sequenceRests separated ts [s]) ++ branchRests separated branches s

end

end Glob

/-- A glob pattern. -/
structure Glob where
  tokens : List Glob.Token
  /-- Whether question marks and stars stay inside a component. -/
  separated : Bool := false
  deriving Inhabited

namespace Glob

/-- Reads a pattern whose wildcards match slashes too. -/
def parse (pattern : String) : Except Fault Glob :=
  return { tokens := ← readPattern false pattern.toList }

/-- Whether a pattern matches a text.  Two stars alone match everything. -/
def matchesBytes (g : Glob) (s : Bytes) : Bool :=
  match g.tokens with
  | [.leading] => true
  | ts => (sequenceRests g.separated ts [s]).any List.isEmpty

/-- Whether a pattern matches a path. -/
def isMatch (g : Glob) (path : List Char) : Bool :=
  g.matchesBytes (bytes path)

end Glob

end AtomicCss
