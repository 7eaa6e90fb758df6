/-
Lines of a text.

Source positions count line feeds, so `splitLines` gives one line more than the
text has line feeds, the last of them possibly empty.  Text that is shown or read
line by line is cut by `displayLines` instead: a carriage return before the line
feed belongs to the line's end, and a text that ends with a line feed has no
further empty line.
-/
import AtomicCss.Text.Affix

namespace AtomicCss.Text

/-- Puts `c` in front of the first line. -/
def consLine (c : Char) : List (List Char) → List (List Char)
  | [] => [[c]]
  | line :: lines => (c :: line) :: lines

/-- The stretches of `cs` between line feeds. -/
def splitLines (cs : List Char) : List (List Char) :=
  cs.foldr (fun c lines => if c = '\n' then [] :: lines else consLine c lines) [[]]

/-- `line` without one carriage return at its end. -/
def dropCarriageReturn (line : List Char) : List Char :=
  (before? ['\r'] line).getD line

/-- The lines of `cs` without their ends. -/
def displayLines (cs : List Char) : List (List Char) :=
  let pieces := splitLines cs
  let finished := pieces.dropLast.map dropCarriageReturn
  match pieces.getLast? with
  | none | some [] => finished
  | some last => finished ++ [last]

end AtomicCss.Text
