/-
Reading glob patterns.

A pattern is read from left to right onto a draft: the tokens of the branch that is
being read, and the alternate groups around it that are still open.  Two stars are
decided by what stands around them.  At the beginning of a branch they have to be
followed by a slash or by the end; further on they have to follow a slash and be
followed by one, or end the branch.  Anywhere else they are two stars like any other.
-/
import AtomicCss.Glob.Token

namespace AtomicCss.Glob

/-- An alternate group that is still open. -/
structure OpenGroup where
  /-- The branches read so far, the last one first. -/
  branches : List (List Token)
  /-- The tokens before the group, the last one first. -/
  before : List Token
  deriving Inhabited

/-- What has been read of a pattern. -/
structure Draft where
  /-- The tokens of the current branch, the last one first. -/
  tokens : List Token := []
  /-- The groups around the current branch, the innermost first. -/
  groups : List OpenGroup := []
  /-- The character before the rest of the pattern. -/
  last : Option Char := none
  deriving Inhabited

namespace Draft

/-- Adds a token that ends with the character `last`. -/
def push (d : Draft) (last : Char) (token : Token) : Draft :=
  { d with tokens := token :: d.tokens, last := some last }

/-- Begins a group. -/
def openGroup (d : Draft) : Draft :=
  { tokens := [], groups := ⟨[], d.tokens⟩ :: d.groups, last := some '\x7b' }

/-- Begins the next branch of the group.  Outside of groups a comma is a literal. -/
def nextBranch (d : Draft) : Draft :=
  match d.groups with
  | [] => d.push ',' (.literal ',')
  | g :: groups =>
    { tokens := [], last := some ','
      groups := { g with branches := d.tokens.reverse :: g.branches } :: groups }

/-- Ends the innermost group. -/
def closeGroup (d : Draft) : Except Fault Draft :=
  match d.groups with
  | [] => .error .unopenedAlternates
  | g :: groups =>
    let branches := (d.tokens.reverse :: g.branches).reverse
    .ok { tokens := .alternates branches :: g.before, groups, last := some '\x7d' }

/-- Whether a branch ends before the character `next`. -/
def endsBefore (d : Draft) (next : Option Char) : Bool :=
  match next with
  | none => true
  | some c => !d.groups.isEmpty && (c = ',' || c = '\x7d')

/-- Whether two stars may begin a component here, the branch having tokens already. -/
def atComponent (d : Draft) : Bool :=
  d.last = some '/' || (!d.groups.isEmpty && (d.last = some ',' || d.last = some '\x7b'))

/-- Two stars as a token of their own, in place of the slash before them. -/
def pushDescent (d : Draft) (last : Char) (token : Token) : Draft :=
  let kept := match d.tokens.head? with
    | some .leading => .leading
    | some .trailing => .trailing
    | _ => token
  { d with tokens := kept :: d.tokens.tail, last := some last }

/-- Reads two stars that are followed by `next`.  Tells whether the next character, a
slash, is part of them. -/
def pushStars (d : Draft) (next : Option Char) : Draft × Bool :=
  let plain := ((d.push '*' .anyRun).push '*' .anyRun, false)
  if d.tokens.isEmpty then
    if next = some '/' then (d.push '/' .leading, true)
    else if next = none then (d.push '*' .leading, false)
    else plain
  else if !d.atComponent then plain
  else if next = some '/' then (d.pushDescent '/' .between, true)
  else if d.endsBefore next then (d.pushDescent '*' .trailing, false)
  else plain

end Draft

/-! ### Character classes -/

/-- Moves the end of the last range. -/
def extendLast (ranges : List Range) (c : Char) : Except Fault (List Range) :=
  match ranges with
  | [] => .ok []
  | r :: ranges =>
    if c < r.first then .error (.invalidRange r.first c) else .ok ({ r with last := c } :: ranges)

/-- The rest of a class after its first character.  `ranges` has been read, the last one
first, and a hyphen after it if `hyphen`.  Gives the ranges and what follows the class;
none if the class does not end. -/
def classRest (ranges : List Range) (hyphen : Bool) :
    List Char → Except Fault (Option (List Range × List Char))
  | [] => .ok none
  | ']' :: cs => .ok (some ((if hyphen then ⟨'-', '-'⟩ :: ranges else ranges).reverse, cs))
  | '-' :: cs => do
    if hyphen then classRest (← extendLast ranges '-') false cs else classRest ranges true cs
  | c :: cs => do
    if hyphen then classRest (← extendLast ranges c) false cs
    else classRest (⟨c, c⟩ :: ranges) false cs

/-- The ranges of a class after its bracket and its negation.  The first character is
always a member. -/
def classRanges : List Char → Except Fault (Option (List Range × List Char))
  | [] => .ok none
  | c :: cs => classRest [⟨c, c⟩] false cs

/-- Whether a class excludes its ranges, by its text after the bracket. -/
def isNegated (cs : List Char) : Bool :=
  cs.head? = some '!' || cs.head? = some '^'

/-- A class after its bracket, with what follows it. -/
def class? (cs : List Char) : Except Fault (Option (Token × List Char)) := do
  let ranges ← classRanges (if isNegated cs then cs.drop 1 else cs)
  return ranges.map fun (ranges, rest) => (.oneOf (isNegated cs) ranges, rest)

theorem classRest_length {ranges : List Range} {hyphen : Bool} {cs rest : List Char}
    {result : List Range} (h : classRest ranges hyphen cs = .ok (some (result, rest))) :
    rest.length < cs.length := by
  have move : ∀ {x : Except Fault (List Range)} {cs : List Char},
      (∀ rs, classRest rs false cs = .ok (some (result, rest)) → rest.length < cs.length) →
      (do classRest (← x) false cs) = .ok (some (result, rest)) →
      rest.length < cs.length + 1 := by
    intro x cs ih h
    cases x with
    | error e => cases h
    | ok rs => exact Nat.lt_succ_of_lt (ih rs h)
  induction cs generalizing ranges hyphen with
  | nil => cases h
  | cons c cs ih =>
    unfold classRest at h
    split at h
    · cases h
    · rename_i heq
      cases heq
      cases h
      exact Nat.lt_succ_self _
    · rename_i heq
      cases heq
      split at h
      · exact move (fun rs => ih) h
      · exact Nat.lt_succ_of_lt (ih h)
    · rename_i heq
      cases heq
      split at h
      · exact move (fun rs => ih) h
      · exact Nat.lt_succ_of_lt (ih h)

theorem class?_length {cs rest : List Char} {token : Token}
    (h : class? cs = .ok (some (token, rest))) : rest.length < cs.length := by
  have ranges_length : ∀ {cs : List Char} {ranges : List Range},
      classRanges cs = .ok (some (ranges, rest)) → rest.length < cs.length := by
    intro cs ranges h
    cases cs with
    | nil => cases h
    | cons c cs => exact Nat.lt_succ_of_lt (classRest_length h)
  unfold class? at h
  cases hr : classRanges (if isNegated cs then cs.drop 1 else cs) with
  | error fault =>
    rw [hr] at h
    cases h
  | ok result =>
    rw [hr] at h
    cases result with
    | none => cases h
    | some result =>
      cases h
      refine Nat.lt_of_lt_of_le (ranges_length hr) ?_
      split <;> simp

/-! ### Patterns -/


/-- Reads the rest of a pattern onto a draft.  `classes` tells whether brackets still
open classes. -/
def readTokens (lenient classes : Bool) (d : Draft) (cs : List Char) : Except Fault Draft :=
  match cs with
  | [] => .ok d
  | '?' :: cs => readTokens lenient classes (d.push '?' .any) cs
  | '*' :: '*' :: cs =>
    match d.pushStars cs.head? with
    | (d, true) => readTokens lenient classes d (cs.drop 1)
    | (d, false) => readTokens lenient classes d cs
  | '*' :: cs => readTokens lenient classes (d.push '*' .anyRun) cs
  | '\x7b' :: cs => readTokens lenient classes d.openGroup cs
  | '\x7d' :: cs => do readTokens lenient classes (← d.closeGroup) cs
  | ',' :: cs => readTokens lenient classes d.nextBranch cs
  | ['\\'] => .error .danglingEscape
  | '\\' :: c :: cs => readTokens lenient classes (d.push c (.literal c)) cs
  | '[' :: cs =>
    if !classes then readTokens lenient classes (d.push '[' (.literal '[')) cs
    else
      match h : class? cs with
      | .error fault => .error fault
      | .ok (some (token, rest)) =>
        have := class?_length h
        readTokens lenient classes (d.push ']' token) rest
      | .ok none =>
        if lenient then readTokens lenient false (d.push '[' (.literal '[')) cs
        else .error .unclosedClass
  | c :: cs => readTokens lenient classes (d.push c (.literal c)) cs
termination_by cs.length
decreasing_by all_goals simp_wf; try omega

/-- The tokens of a pattern. -/
def readPattern (lenient : Bool) (pattern : List Char) : Except Fault (List Token) := do
  let d ← readTokens lenient true {} pattern
  if d.groups.isEmpty then .ok d.tokens.reverse else .error .unclosedAlternates

end AtomicCss.Glob
