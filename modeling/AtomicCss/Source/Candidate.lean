/-
Candidates: the stretches of a source text that may be classes.

Nothing is known about the language of a source, so a candidate is any longest run of
class characters, with bracket groups taken whole.  A group is balanced and holds no
white space, quote, brace or angle bracket, the characters that end a class in every
language; a bracket that opens no such group ends the run.  A run that begins or ends
with punctuation is reported a second time without it.

No run contains a line feed, so each line is searched by itself and its number is the
line of everything found in it.
-/
import AtomicCss.Text.Blank
import AtomicCss.Text.Line

namespace AtomicCss.Source

open Text

/-- A character that may stand in a class outside brackets. -/
def isClassChar (c : Char) : Bool :=
  c.isAlphanum || c == '-' || c == '_' || c == ':' || c == '/' || c == '.' || c == '!'

/-- A character that ends every class: white space, a quote, a brace or an angle
bracket. -/
def isBarrier (c : Char) : Bool :=
  isBlank c || c == '\x22' || c == '\x27' || c == '\x60' || c == '\x7b' || c == '\x7d' ||
    c == '<' || c == '>'

/-- Reads up to the bracket that closes a group in which `inner` further brackets are
open.  Gives the text read and what follows. -/
def closing? (inner : Nat) : List Char → Option (List Char × List Char)
  | [] => none
  | c :: cs =>
    if c = ']' then
      if inner = 0 then some ([c], cs)
      else (closing? (inner - 1) cs).map fun (group, rest) => (c :: group, rest)
    else if c = '[' then
      (closing? (inner + 1) cs).map fun (group, rest) => (c :: group, rest)
    else if isBarrier c then none
    else (closing? inner cs).map fun (group, rest) => (c :: group, rest)

/-- Reads a bracket group at the beginning of a text.  Gives the group and what
follows. -/
def group? : List Char → Option (List Char × List Char)
  | '[' :: cs => (closing? 0 cs).map fun (group, rest) => ('[' :: group, rest)
  | _ => none

theorem closing?_append {inner : Nat} {cs group rest : List Char}
    (h : closing? inner cs = some (group, rest)) : group ++ rest = cs ∧ group ≠ [] := by
  induction cs generalizing inner group rest with
  | nil => simp [closing?] at h
  | cons c cs ih =>
    have step : ∀ n, (closing? n cs).map (fun p => (c :: p.1, p.2)) = some (group, rest) →
        group ++ rest = c :: cs ∧ group ≠ [] := by
      intro n hn
      obtain ⟨⟨g, r⟩, hg, he⟩ := Option.map_eq_some_iff.mp hn
      cases he
      exact ⟨by rw [← (ih hg).1]; rfl, by simp⟩
    rw [closing?] at h
    split at h
    · split at h
      · cases h; exact ⟨rfl, by simp⟩
      · exact step _ h
    · split at h
      · exact step _ h
      · split at h
        · cases h
        · exact step _ h

/-- A group and what follows it make up the text. -/
theorem group?_append {cs group rest : List Char} (h : group? cs = some (group, rest)) :
    group ++ rest = cs ∧ group ≠ [] := by
  unfold group? at h
  split at h
  · obtain ⟨⟨g, r⟩, hg, he⟩ := Option.map_eq_some_iff.mp h
    cases he
    exact ⟨by rw [← (closing?_append hg).1]; rfl, by simp⟩
  · cases h

/-- The longest run at the beginning of a text, and what follows it. -/
def run (cs : List Char) : List Char × List Char :=
  match h : group? cs with
  | some (group, rest) =>
    have : rest.length < cs.length := by
      have := group?_append h
      have hl := congrArg List.length this.1
      have := List.length_pos_iff.mpr this.2
      simp only [List.length_append] at hl
      omega
    let (more, rest) := run rest
    (group ++ more, rest)
  | none =>
    match cs with
    | [] => ([], [])
    | c :: cs =>
      if isClassChar c then
        let (more, rest) := run cs
        (c :: more, rest)
      else ([], c :: cs)
termination_by cs.length

/-- A run and what follows it make up the text. -/
theorem run_append (cs : List Char) : (run cs).1 ++ (run cs).2 = cs := by
  fun_induction run cs with
  | case1 cs group rest h _ more rest' hrun ih =>
    rw [hrun] at ih
    rw [List.append_assoc, ih]
    exact (group?_append h).1
  | case2 => rfl
  | case3 c cs h hc more rest hrun ih =>
    rw [hrun] at ih
    rw [List.cons_append, ih]
  | case4 => rfl

/-- The runs of a text, from left to right. -/
def runs (cs : List Char) : List (List Char) :=
  match h : run cs with
  | ([], _) =>
    match cs with
    | [] => []
    | _ :: cs => runs cs
  | (c :: more, rest) =>
    have : rest.length < cs.length := by
      have hl := congrArg List.length (run_append cs)
      rw [h] at hl
      simp only [List.length_append, List.length_cons] at hl
      omega
    (c :: more) :: runs rest
termination_by cs.length

/-- Punctuation that is dropped from the ends of a run. -/
def isEdge (c : Char) : Bool :=
  c == '.' || c == ':' || c == '/'

/-- A run without punctuation at its ends. -/
def trimRun (cs : List Char) : List Char :=
  dropEndWhile isEdge (cs.dropWhile isEdge)

/-- What a run contributes: itself, and itself trimmed if that is different, each only
if it has a letter. -/
def candidatesOfRun (cs : List Char) : List (List Char) :=
  let trimmed := trimRun cs
  if cs.any Char.isAlpha then
    cs :: if trimmed ≠ cs && trimmed.any Char.isAlpha then [trimmed] else []
  else []

/-- A stretch of a source that may be a class, with its line, counted from one. -/
structure Candidate where
  text : String
  line : Nat
  deriving DecidableEq

/-- The candidates of one line. -/
def candidatesOfLine (cs : List Char) (line : Nat) : List Candidate :=
  ((runs cs).flatMap candidatesOfRun).map fun text => ⟨String.ofList text, line⟩

/-- The candidates of a text in the order of the text, repetitions included. -/
def candidates (text : List Char) : List Candidate :=
  ((splitLines text).zipIdx 1).flatMap fun (cs, line) => candidatesOfLine cs line

end AtomicCss.Source
