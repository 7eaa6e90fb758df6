/-
Paths.

A path is a text.  Its components are what stands between slashes, without the empty
ones and the single dots, except that a dot at the very beginning is kept; two paths
are the same when their components are.  Taking a component off either end leaves the
rest of the text as it was written, less the slashes and dots that have become
redundant.
-/
import AtomicCss.Text.Affix

namespace AtomicCss

/-- One step of a path. -/
inductive Component
  | root
  | current
  | parent
  | name (text : List Char)
  deriving DecidableEq

namespace Path

/-- The component that the text between two slashes is, if it is one. -/
def ofSegment? (segment : List Char) : Option Component :=
  if segment = [] || segment = ['.'] then none
  else if segment = ['.', '.'] then some .parent
  else some (.name segment)

/-- Whether a text begins with a dot as a component of its own. -/
def startsWithCurrent : List Char → Bool
  | ['.'] => true
  | '.' :: '/' :: _ => true
  | _ => false

/-- The component that a path begins with, before its names, with what follows it. -/
def head? : List Char → Option (Component × List Char)
  | '/' :: rest => some (.root, rest)
  | cs => if startsWithCurrent cs then some (.current, cs.drop 1) else none

/-- A path text with the redundant slashes and dots at its beginning taken off. -/
def trimStart (cs : List Char) : List Char :=
  match cs with
  | [] => []
  | '/' :: rest => trimStart rest
  | ['.'] => []
  | '.' :: '/' :: rest => trimStart rest
  | cs => cs

/-- The next component of the body of a path, with what follows it. -/
def next? (cs : List Char) : Option (Component × List Char) :=
  let cs := trimStart cs
  (ofSegment? (cs.takeWhile (· != '/'))).map (·, cs.dropWhile (· != '/'))

theorem trimStart_length_le (cs : List Char) : (trimStart cs).length ≤ cs.length := by
  fun_induction trimStart cs <;> simp_all <;> omega

theorem next?_length_lt {cs rest : List Char} {c : Component}
    (h : next? cs = some (c, rest)) : rest.length < cs.length := by
  simp only [next?] at h
  obtain ⟨c', hc, he⟩ := Option.map_eq_some_iff.mp h
  cases he
  have h₁ := trimStart_length_le cs
  have h₂ := congrArg List.length
    (List.takeWhile_append_dropWhile (p := (· != '/')) (l := trimStart cs))
  have h₃ : (trimStart cs).takeWhile (· != '/') ≠ [] := by
    intro h
    rw [h] at hc
    simp [ofSegment?] at hc
  have h₄ := List.length_pos_iff.mpr h₃
  simp only [List.length_append] at h₂
  omega

/-- The components of the body of a path. -/
def bodyComponents (cs : List Char) : List Component :=
  match h : next? cs with
  | none => []
  | some (c, rest) =>
    have := next?_length_lt h
    c :: bodyComponents rest
termination_by cs.length

/-- The components of a path. -/
def components (cs : List Char) : List Component :=
  match head? cs with
  | none => bodyComponents cs
  | some (c, rest) => c :: bodyComponents rest

/-- A path text with the redundant slashes and dots at its end taken off; `kept`
characters at the beginning stay in any case. -/
def trimEnd (kept : Nat) (cs : List Char) : List Char :=
  let body := (cs.drop kept).reverse
  cs.take kept ++ (trimReversed body).reverse
where
  /-- `trimStart` of a text read backwards, a dot counting only between slashes or at the
  text's other end. -/
  trimReversed : List Char → List Char
    | [] => []
    | '/' :: rest => trimReversed rest
    | ['.'] => []
    | '.' :: '/' :: rest => trimReversed rest
    | cs => cs

/-- How many characters at the beginning of a path its root or leading dot takes. -/
def headLength (cs : List Char) : Nat :=
  if (head? cs).isSome then 1 else 0

/-- What is left of the body of a path after the given components. -/
def bodyAfter? : List Component → List Char → Option (List Char)
  | [], cs => some (trimEnd 0 (trimStart cs))
  | c :: rest, cs =>
    match next? cs with
    | some (c', cs') => if c = c' then bodyAfter? rest cs' else none
    | none => none

/-- The path relative to `base`, if its components begin with those of `base`. -/
def relative? (base path : List Char) : Option (List Char) :=
  match components base, head? path with
  | [], _ => some (trimEnd (headLength path) path)
  | c :: rest, some (c', cs) => if c = c' then bodyAfter? rest cs else none
  | cs, none => bodyAfter? cs path

/-- The path relative to `base` where it lies below it, else the path itself. -/
def relativeTo (base path : List Char) : List Char :=
  (relative? base path).getD path

/-- The last component of a path, with the text before it. -/
def last? (cs : List Char) : Option (Component × List Char) :=
  let kept := headLength cs
  let trimmed := trimEnd kept cs
  if trimmed.length ≤ kept then
    (head? cs).map fun (c, _) => (c, [])
  else
    let body := trimmed.drop kept
    let segment := (body.reverse.takeWhile (· != '/')).reverse
    (ofSegment? segment).map (·, trimmed.take (trimmed.length - segment.length))

/-- The path without its last component; none for a root and for the empty path. -/
def parent? (cs : List Char) : Option (List Char) :=
  match last? cs with
  | none | some (.root, _) => none
  | some (_, before) => some (trimEnd (headLength before) before)

/-- The name of the file a path leads to. -/
def fileName? (cs : List Char) : Option (List Char) :=
  match last? cs with
  | some (.name text, _) => some text
  | _ => none

/-- What follows the last dot of the file name.  A dot at its beginning does not count. -/
def extension? (cs : List Char) : Option (List Char) := do
  let name ← fileName? cs
  let after := (name.reverse.takeWhile (· != '.')).reverse
  if after.length + 1 < name.length then some after else none

/-- The path of `name` in the directory `dir`. -/
def join (dir name : List Char) : List Char :=
  match dir.getLast? with
  | none | some '/' => dir ++ name
  | some _ => dir ++ '/' :: name

/-- Whether a path is written as the directory that it is relative to. -/
def isHere (cs : List Char) : Bool :=
  components cs = [.current]

/-! ### Lengths -/

/-- How many bytes a text has. -/
def byteLength (cs : List Char) : Nat :=
  cs.foldr (fun c bytes => c.utf8Size + bytes) 0

/-- Whether a text has few enough bytes for the name of an entry. -/
def isNameLength (cs : List Char) : Bool :=
  byteLength cs ≤ 255

/-- Whether a text has few enough bytes for a path. -/
def isPathLength (cs : List Char) : Bool :=
  byteLength cs ≤ 4095

end Path

end AtomicCss
