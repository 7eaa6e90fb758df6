/-
White space, comments and the ends of lines in a document.

A reader takes a text and gives what it read with what follows, or nothing if the text
does not begin with what it reads.
-/
namespace AtomicCss.Toml

/-- White space within a line. -/
def isSpace (c : Char) : Bool :=
  c == ' ' || c == '\t'

/-- Skips white space within a line. -/
def skipSpace (cs : List Char) : List Char :=
  cs.dropWhile isSpace

/-- A character of a comment: no control character except tab. -/
def isCommentChar (c : Char) : Bool :=
  c == '\t' || (c.toNat ≥ 0x20 && c.toNat != 0x7F)

/-- Skips a line feed, or a carriage return with one. -/
def newline? : List Char → Option (List Char)
  | '\n' :: cs => some cs
  | '\r' :: '\n' :: cs => some cs
  | _ => none

/-- Skips a comment, if there is one, up to the end of its line. -/
def skipComment : List Char → List Char
  | '#' :: cs => cs.dropWhile isCommentChar
  | cs => cs

/-- Skips the rest of a line that may hold nothing more than a comment. -/
def lineEnd? (cs : List Char) : Option (List Char) :=
  match skipComment (skipSpace cs) with
  | [] => some []
  | cs => newline? cs

/-- Skips white space, line ends and comments. -/
def skipLines (cs : List Char) : List Char :=
  skipFrom false cs
where
  /-- Skips on; `inComment` says whether a comment is being read. -/
  skipFrom (inComment : Bool) : List Char → List Char
    | [] => []
    | '\n' :: cs => skipFrom false cs
    | '\r' :: '\n' :: cs => skipFrom false cs
    | c :: cs =>
      if inComment then if isCommentChar c then skipFrom true cs else c :: cs
      else if isSpace c then skipFrom false cs
      else if c == '#' then skipFrom true cs
      else c :: cs

end AtomicCss.Toml
