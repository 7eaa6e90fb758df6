/-
White space.

Values, content patterns and lines of ignore files are trimmed by Unicode's
notion of white space, which is wider than the four ASCII characters: the
`White_Space` property has twenty-five members, and a no-break space or an
ideographic space ends a word as an ordinary one does.
-/
namespace AtomicCss.Text

/-- Whether `c` has Unicode's `White_Space` property. -/
def isBlank (c : Char) : Bool :=
  let n := c.toNat
  (0x09 ≤ n && n ≤ 0x0D) || n == 0x20 || n == 0x85 || n == 0xA0 || n == 0x1680 ||
    (0x2000 ≤ n && n ≤ 0x200A) || n == 0x2028 || n == 0x2029 || n == 0x202F ||
    n == 0x205F || n == 0x3000

/-- `cs` without its last characters that satisfy `p`. -/
def dropEndWhile (p : Char → Bool) (cs : List Char) : List Char :=
  (cs.reverse.dropWhile p).reverse

/-- `cs` without white space at its end. -/
def trimEnd (cs : List Char) : List Char :=
  dropEndWhile isBlank cs

/-- `cs` without white space at either end. -/
def trim (cs : List Char) : List Char :=
  trimEnd (cs.dropWhile isBlank)

/-- The stretches of `cs` between white space, none of them empty. -/
def words (cs : List Char) : List (List Char) :=
  (cs.splitOnP isBlank).filter fun w => !w.isEmpty

/-- `s` without white space at either end. -/
def trimmed (s : String) : String :=
  String.ofList (trim s.toList)

/-- Whether `s` holds nothing but white space. -/
def isBlankText (s : String) : Bool :=
  s.toList.all isBlank

end AtomicCss.Text
