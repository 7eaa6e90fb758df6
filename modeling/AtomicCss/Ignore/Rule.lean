/-
Ignore files.

An ignore file has one pattern a line.  An exclamation mark in front keeps what the
pattern matches; a slash at the end restricts it to directories; a slash anywhere else
ties it to the directory of the file, without one it applies at every depth.  A path is
decided by the last line that matches it.
-/
import AtomicCss.Glob.Limit
import AtomicCss.Text.Blank
import AtomicCss.Text.Line

namespace AtomicCss

/-- A line of an ignore file. -/
structure IgnoreRule where
  glob : Glob
  /-- What matches is kept and not ignored. -/
  keeps : Bool
  directoriesOnly : Bool

namespace IgnoreRule

open Text

/-- A line without the white space at its end, unless a backslash guards it. -/
def trimLine (line : List Char) : List Char :=
  if (before? ['\\', ' '] line).isSome then line else trimEnd line

/-- Drops one character from the end of a line. -/
def withoutLast (c : Char) (line : List Char) : List Char :=
  (before? [c] line).getD line

/-- A pattern as it applies to paths from the file's directory: at every depth unless
it is tied, and to all content of a directory that it names in full. -/
def spread (tied : Bool) (pattern : List Char) : List Char :=
  let anyDepth := ['*', '*', '/']
  let pattern :=
    if tied || pattern.contains '/' || pattern = ['*', '*'] then pattern else anyDepth ++ pattern
  if (before? ['/', '*', '*'] pattern).isSome then pattern ++ ['/', '*'] else pattern

/-- The rule of a line after its marks. -/
def ofPattern? (keeps tied : Bool) (line : List Char) : Option IgnoreRule := do
  let directoriesOnly := line.getLast? = some '/'
  let pattern := if directoriesOnly then withoutLast '\\' (withoutLast '/' line) else line
  let tokens ← (Glob.readPattern true (spread tied pattern)).toOption
  return { glob := { tokens, separated := true }, keeps, directoriesOnly }

/-- The rule of a line.  A backslash in front takes the meaning from a mark; lines that
are blank, that are remarks or that hold no pattern have no rule. -/
def ofLine? (line : List Char) : Option IgnoreRule :=
  if line.head? = some '#' then none
  else
    match trimLine line with
    | [] => none
    | '\\' :: '!' :: rest => ofPattern? false false ('!' :: rest)
    | '\\' :: '#' :: rest => ofPattern? false false ('#' :: rest)
    | '!' :: '/' :: rest => ofPattern? true true rest
    | '!' :: rest => ofPattern? true false rest
    | '/' :: rest => ofPattern? false true rest
    | rest => ofPattern? false false rest

/-- Whether a rule applies to a path from its file's directory. -/
def applies (rule : IgnoreRule) (path : List Char) (isDirectory : Bool) : Bool :=
  (isDirectory || !rule.directoriesOnly) && rule.glob.isMatch path

/-- What rules decide about a path: the last that applies tells whether it is kept. -/
def decision? (rules : List IgnoreRule) (path : List Char) (isDirectory : Bool) : Option Bool :=
  (rules.reverse.find? (·.applies path isDirectory)).map (·.keeps)

/-! ### Files -/

/-- The byte order marks at the beginning of a text are no part of its first line. -/
def withoutMarks (text : List Char) : List Char :=
  text.dropWhile (· == '\uFEFF')

/-- The text of some bytes up to the first line that is none. -/
def readableText (content : ByteArray) : List Char :=
  let lines := (content.data.toList.splitOnP (· == 0x0A)).map fun line =>
    (String.fromUTF8? ⟨line.toArray⟩).map String.toList
  let readable := (lines.takeWhile Option.isSome).filterMap id
  let finished := readable.flatMap (· ++ ['\n'])
  if readable.length = lines.length then finished.dropLast else finished

/-- The lines of some bytes, up to the first that is no text. -/
def readableLines (content : ByteArray) : List (List Char) :=
  displayLines (readableText content)

/-- The rules, or none at all if the pattern of one is too deep. -/
def unlessTooDeep (rules : List IgnoreRule) : List IgnoreRule :=
  if (Glob.depthFault? (rules.map (·.glob))).isSome then [] else rules

/-- The rules of an ignore file. -/
def ofFile (content : ByteArray) : List IgnoreRule :=
  unlessTooDeep ((displayLines (withoutMarks (readableText content))).filterMap ofLine?)

end IgnoreRule

end AtomicCss
