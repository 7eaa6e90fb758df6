/-
The text of a rule.

A rule is its selector with a block of declarations, put into a media block for each of
its queries from the innermost to the outermost.  The pretty form has one declaration a
line and indents every block by two spaces; the minified form has no white space of its
own.
-/
import AtomicCss.Rule
import AtomicCss.Text.Line

namespace AtomicCss

/-- How a stylesheet is laid out. -/
inductive Style
  | pretty
  | minified
  deriving DecidableEq

namespace Rule

open Text

/-- A text with every line that is not empty moved two spaces to the right. -/
def indent (text : String) : String :=
  let move := fun line : List Char => if line.isEmpty then line else ' ' :: ' ' :: line
  String.ofList <| ['\n'].intercalate ((displayLines text.toList).map move)

/-- A block of declarations under a selector. -/
def block (style : Style) (selector : String) (declarations : List Declaration) : String :=
  match style with
  | .minified =>
    let body := ";".intercalate (declarations.map fun d => s!"{d.property}:{d.value}")
    selector ++ "\x7b" ++ body ++ "\x7d"
  | .pretty =>
    let body := "\n".intercalate (declarations.map fun d => s!"  {d.property}: {d.value};")
    selector ++ " \x7b\n" ++ body ++ "\n\x7d"

/-- A text under a media query. -/
def underMedia (style : Style) (query text : String) : String :=
  match style with
  | .minified => "@media " ++ query ++ "\x7b" ++ text ++ "\x7d"
  | .pretty => "@media " ++ query ++ " \x7b\n" ++ indent text ++ "\n\x7d"

/-- The text of a rule. -/
def render (style : Style) (rule : Rule) : String :=
  rule.wrappers.foldr (underMedia style) (block style rule.selector rule.declarations)

end Rule

end AtomicCss
