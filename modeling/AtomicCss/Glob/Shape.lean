/-
How a pattern is decided within a set of patterns.

A pattern that is fixed text but for wildcards at one end is compared directly.  Some
patterns only look at the name of a file or at its extension; they match no path that
names no file, that is a path that ends in two dots.  All others are general.
-/
import AtomicCss.Glob.Match

namespace AtomicCss.Glob

/-- Whether a token is the literal `c`. -/
def Token.isLiteral (c : Char) : Token → Bool
  | .literal c' => c = c'
  | _ => false

/-- Whether a token is a literal within a component. -/
def Token.isNameChar : Token → Bool
  | .literal c => c != '/'
  | _ => false

/-- Whether a token is a literal. -/
def Token.isAnyLiteral : Token → Bool
  | .literal _ => true
  | _ => false

/-- Whether a pattern is a file name below any directory. -/
def isNameBelow : List Token → Bool
  | .leading :: name => !name.isEmpty && name.all Token.isNameChar
  | _ => false

/-- Whether a pattern is a star and an extension, below any directory or without one. -/
def isExtension (separated : Bool) (tokens : List Token) : Bool :=
  match tokens with
  | .leading :: .anyRun :: .literal '.' :: rest => ok rest
  | .anyRun :: .literal '.' :: rest => !separated && ok rest
  | _ => false
where
  /-- Whether the tokens can follow the dot of an extension. -/
  ok (rest : List Token) : Bool :=
    rest.all fun t => t.isNameChar && !t.isLiteral '.'

/-- Whether a pattern ends with an extension, whatever comes before it. -/
def endsWithExtension (tokens : List Token) : Bool :=
  match tokens.reverse.dropWhile fun t => t.isNameChar && !t.isLiteral '.' with
  | t :: _ => t.isLiteral '.'
  | [] => false

/-- Whether a pattern is literal up to wildcards at its end. -/
def isStem (separated : Bool) (tokens : List Token) : Bool :=
  match tokens.getLast? with
  | some .anyRun => !separated && tokens.length > 1 && tokens.dropLast.all Token.isAnyLiteral
  | some .trailing => tokens.dropLast.all Token.isAnyLiteral
  | some _ => tokens.all Token.isAnyLiteral
  | none => false

/-- Whether a pattern is literal from wildcards at its beginning on. -/
def isTail (separated : Bool) (tokens : List Token) : Bool :=
  let literal := fun ts : List Token => !ts.isEmpty && ts.all Token.isAnyLiteral
  match tokens with
  | .leading :: .anyRun :: rest => !separated && literal rest
  | .leading :: rest => literal rest
  | .anyRun :: rest => !separated && literal rest
  | rest => literal rest

/-- What decides whether a pattern matches. -/
inductive Shape
  /-- The name of a file. -/
  | name
  /-- The extension of a file. -/
  | extension
  /-- The beginning or the end of a path. -/
  | fixed
  /-- The extension of a file first, then the pattern as a whole. -/
  | extended
  /-- The pattern as a whole. -/
  | general
  deriving DecidableEq

/-- What decides whether a pattern matches. -/
def shape (g : Glob) : Shape :=
  if isNameBelow g.tokens then .name
  else if isExtension g.separated g.tokens then .extension
  else if isStem g.separated g.tokens || isTail g.separated g.tokens then .fixed
  else if endsWithExtension g.tokens then .extended
  else .general

/-- Whether a pattern is decided by the name of a file, at least at first. -/
def Shape.needsName : Shape → Bool
  | .name | .extension | .extended => true
  | .fixed | .general => false

/-- Whether a path names a file: it is not empty and its last component is not two
dots. -/
def namesFile (path : List Char) : Bool :=
  let name := (path.reverse.takeWhile (· != '/')).reverse
  !path.isEmpty && name != ['.', '.']

end AtomicCss.Glob
