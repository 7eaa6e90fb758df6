/-
Cutting a class into its modifiers and its utility.

Modifiers stand in front of the utility, each followed by a colon.  A colon inside
brackets or parentheses belongs to a value; a closing bracket or parenthesis without
an opening one is ignored.
-/
namespace AtomicCss.Chain

/-- How many parentheses and brackets are open. -/
structure Depth where
  parens : Nat := 0
  brackets : Nat := 0
  deriving DecidableEq

/-- The depth after reading `c`. -/
def Depth.after (d : Depth) (c : Char) : Depth :=
  match c with
  | '(' => { d with parens := d.parens + 1 }
  | ')' => { d with parens := d.parens - 1 }
  | '[' => { d with brackets := d.brackets + 1 }
  | ']' => { d with brackets := d.brackets - 1 }
  | _ => d

/-- Whether nothing is open. -/
def Depth.isTop (d : Depth) : Bool :=
  d.parens == 0 && d.brackets == 0

/-- Puts `c` in front of the first piece. -/
def consFirst (c : Char) : List (List Char) × List Char → List (List Char) × List Char
  | ([], base) => ([], c :: base)
  | (m :: ms, base) => ((c :: m) :: ms, base)

/-- The pieces of `cs` before each colon outside brackets, and what follows the last. -/
def splitFrom (d : Depth) : List Char → List (List Char) × List Char
  | [] => ([], [])
  | c :: cs =>
    if c = ':' && d.isTop then
      let (ms, base) := splitFrom d cs
      ([] :: ms, base)
    else consFirst c (splitFrom (d.after c) cs)

/-- The modifiers and the utility of a class. -/
def split (cs : List Char) : List (List Char) × List Char :=
  splitFrom {} cs

/-- A class again from its modifiers and its utility. -/
def join (modifiers : List (List Char)) (base : List Char) : List Char :=
  modifiers.foldr (fun m rest => m ++ ':' :: rest) base

end AtomicCss.Chain
