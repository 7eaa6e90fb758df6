/-
Documents.

A document is a sequence of lines: keys with their values, and headers that say to
which table the keys after them belong.
-/
import AtomicCss.Toml.Reader

namespace AtomicCss.Toml

/-- One line of a document. -/
inductive Statement
  | entry (key : Key) (value : Value)
  | header (key : Key)
  /-- The header of one more element of an array of tables. -/
  | element (key : Key)

/-- Reads a header after its opening bracket. -/
def header? (cs : List Char) : Option (Statement × List Char) :=
  match cs with
  | '[' :: cs => do
    let (key, rest) ← key? cs
    let rest ← skipChar? ']' rest
    let rest ← skipChar? ']' rest
    return (.element key, rest)
  | cs => do
    let (key, rest) ← key? cs
    let rest ← skipChar? ']' rest
    return (.header key, rest)

/-- Reads a line that is neither empty nor a comment, with its end. -/
def statement? (cs : List Char) : Option (Statement × List Char) := do
  let (s, rest) ← match cs with
    | '[' :: cs => header? cs
    | cs => (keyValue? (value? (nestingLimit - 1)) cs).map fun ((key, value), rest) =>
      (.entry key value, rest)
  return (s, ← lineEnd? rest)

/-- Reads the lines of a document. -/
def statements? (cs : List Char) : Option (List Statement) :=
  match skipSpace cs with
  | [] => some []
  | '#' :: comment =>
    match lineEnd? ('#' :: comment) with
    | some rest => if rest.length < cs.length then statements? rest else none
    | none => none
  | start =>
    match newline? start with
    | some rest => if rest.length < cs.length then statements? rest else none
    | none =>
      match statement? start with
      | some (s, rest) =>
        if rest.length < cs.length then (statements? rest).map (s :: ·) else none
      | none => none
termination_by cs.length

/-- A document being read: its entries, and the path of the table at hand. -/
structure Draft where
  entries : Entries := []
  path : List String := []

/-- Adds a line to a document. -/
def Draft.add? (d : Draft) : Statement → Option Draft
  | .entry key value => do
    let entries ← d.entries.alter? (Entries.define? true key.last value key.path) d.path
    return { d with entries }
  | .header key => do
    let entries ← d.entries.alter? (Entries.openTable? key.last) key.path
    return ⟨entries, key.path ++ [key.last]⟩
  | .element key => do
    let entries ← d.entries.alter? (Entries.openElement? key.last) key.path
    return ⟨entries, key.path ++ [key.last]⟩

/-- The entries of a document. -/
def parse? (text : String) : Option Entries := do
  let cs := match text.toList with
    | '\ufeff' :: cs => cs
    | cs => cs
  let draft ← (← statements? cs).foldlM Draft.add? {}
  return draft.entries

end AtomicCss.Toml
