/-
Keys and values of a document.

Arrays and inline tables may hold each other; the nesting is limited, and the limit is
what their readers recurse on.  The elements of one array or table are read in a loop
that goes on only while the text gets shorter.
-/
import AtomicCss.Toml.Moment
import AtomicCss.Toml.Number
import AtomicCss.Toml.Table

namespace AtomicCss.Toml

/-- A character of a key without quotes. -/
def isBareKeyChar (c : Char) : Bool :=
  c.isAlphanum || c == '-' || c == '_'

/-- Reads one part of a key. -/
def simpleKey? (cs : List Char) : Option (String × List Char) :=
  match lineString? cs with
  | some (key, rest) => some (key, rest)
  | none =>
    let key := cs.takeWhile isBareKeyChar
    if key.isEmpty then none else some (String.ofList key, cs.dropWhile isBareKeyChar)

/-- How many arrays, tables or parts of a key may not lie within each other. -/
def nestingLimit : Nat := 80

/-- Reads the parts of a key, separated by points, at most `parts` of them. -/
def keyParts? : (parts : Nat) → List Char → Option (List String × List Char)
  | 0, _ => none
  | parts + 1, cs => do
    let (key, rest) ← simpleKey? (skipSpace cs)
    match skipSpace rest with
    | '.' :: rest => do
      let (keys, rest) ← keyParts? parts rest
      return (key :: keys, rest)
    | rest => return ([key], rest)

/-- A key with the path in front of its last part. -/
structure Key where
  path : List String
  last : String

/-- Reads a key, white space around it included. -/
def key? (cs : List Char) : Option (Key × List Char) := do
  let (parts, rest) ← keyParts? (nestingLimit - 1) cs
  let last ← parts.getLast?
  return (⟨parts.dropLast, last⟩, rest)

/-- A reader of values. -/
abbrev ValueReader := List Char → Option (Value × List Char)

/-- Reads the elements of an array up to its closing bracket. -/
def elements? (value? : ValueReader) (cs : List Char) : Option (List Value × List Char) :=
  match skipLines cs with
  | ']' :: rest => some ([], rest)
  | start =>
    match value? start with
    | none => none
    | some (v, rest) =>
      match skipLines rest with
      | ']' :: rest => some ([v], rest)
      | ',' :: rest =>
        if rest.length < cs.length then
          (elements? value? rest).map fun (vs, rest) => (v :: vs, rest)
        else none
      | _ => none
termination_by cs.length

/-- Reads a key with its value. -/
def keyValue? (value? : ValueReader) (cs : List Char) :
    Option ((Key × Value) × List Char) := do
  let (key, rest) ← key? cs
  let rest ← skipChar? '=' rest
  let (value, rest) ← value? (skipSpace rest)
  return ((key, value), rest)

/-- Reads the entries of an inline table up to its closing brace, on one line and
without a comma after the last. -/
def inlineEntries? (value? : ValueReader) (es : Entries) (cs : List Char) :
    Option (Entries × List Char) :=
  match keyValue? value? cs with
  | none => none
  | some ((key, value), rest) =>
    match es.define? true key.last value key.path with
    | none => none
    | some es =>
      match skipSpace rest with
      | '\x7d' :: rest => some (es, rest)
      | ',' :: rest =>
        if rest.length < cs.length then inlineEntries? value? es rest else none
      | _ => none
termination_by cs.length

/-- Reads an inline table after its opening brace. -/
def inlineTable? (value? : ValueReader) (cs : List Char) : Option (Value × List Char) :=
  match skipSpace cs with
  | '\x7d' :: rest => some (.table .inline [], rest)
  | cs => (inlineEntries? value? [] cs).map fun (es, rest) => (.table .inline es, rest)

/-- Reads a value that holds no others. -/
def plainValue? (cs : List Char) : Option (Value × List Char) :=
  match cs with
  | '\x22' :: _ | '\x27' :: _ => (string? cs).map fun (text, rest) => (.string text, rest)
  | 't' :: 'r' :: 'u' :: 'e' :: rest => some (.boolean true, rest)
  | 'f' :: 'a' :: 'l' :: 's' :: 'e' :: rest => some (.boolean false, rest)
  | cs =>
    match moment? cs with
    | some (text, rest) => some (.moment text, rest)
    | none => number? cs

/-- Reads a value in which arrays and tables lie at most `depth` deep. -/
def value? : (depth : Nat) → ValueReader
  | depth, '[' :: cs =>
    match depth with
    | 0 => none
    | depth + 1 => (elements? (value? depth) cs).map fun (vs, rest) => (.array vs, rest)
  | depth, '\x7b' :: cs =>
    match depth with
    | 0 => none
    | depth + 1 => inlineTable? (value? depth) cs
  | _, cs => plainValue? cs

end AtomicCss.Toml
