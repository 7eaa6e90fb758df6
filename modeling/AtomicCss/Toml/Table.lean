/-
Adding to tables.

A key is given a value once.  A dotted key passes through tables that only dotted keys
have made, and makes those that are missing; it may not reach into a table that has a
header or was written in braces.  A header opens a table that nothing has opened
before, except that headers below it may have passed through it already; it may pass
through any table, and through the last element of an array of tables.
-/
import AtomicCss.Toml.Value

namespace AtomicCss.Toml.Entries

/-- The value at a key. -/
def find? (es : Entries) (key : String) : Option Value :=
  List.lookup key es

/-- Puts a value at a key, in its old place if the key is there already. -/
def put (key : String) (v : Value) : Entries → Entries
  | [] => [(key, v)]
  | (k, w) :: es => if k = key then (k, v) :: es else (k, w) :: put key v es

/-- Gives a dotted key a value.  `isOpen` says whether the table at hand takes keys. -/
def define? (isOpen : Bool) (key : String) (v : Value) : List String → Entries → Option Entries
  | [], es => if isOpen && (es.find? key).isNone then some (es ++ [(key, v)]) else none
  | step :: path, es =>
    match es.find? step with
    | none => do
      let sub ← define? true key v path []
      return es ++ [(step, .table .dotted sub)]
    | some (.table origin sub) =>
      if origin = .dotted || origin = .implied then do
        let sub ← define? (origin = .dotted) key v path sub
        return es.put step (.table origin sub)
      else none
    | some (.tables elements) =>
      match elements.getLast? with
      | none => none
      | some last => do
        let last ← define? false key v path last
        return es.put step (.tables (elements.dropLast ++ [last]))
    | some _ => none

/-- Changes the table that a header path leads to, making the tables that are missing. -/
def alter? (change : Entries → Option Entries) : List String → Entries → Option Entries
  | [], es => change es
  | step :: path, es =>
    match es.find? step with
    | none => do
      let sub ← alter? change path []
      return es ++ [(step, .table .implied sub)]
    | some (.table origin sub) =>
      if origin = .inline then none
      else do
        let sub ← alter? change path sub
        return es.put step (.table origin sub)
    | some (.tables elements) =>
      match elements.getLast? with
      | none => none
      | some last => do
        let last ← alter? change path last
        return es.put step (.tables (elements.dropLast ++ [last]))
    | some _ => none

/-- Opens a table by a header. -/
def openTable? (key : String) (es : Entries) : Option Entries :=
  match es.find? key with
  | none => some (es ++ [(key, .table .header [])])
  | some (.table .implied sub) => some (es.put key (.table .header sub))
  | some _ => none

/-- Opens one more element of an array of tables. -/
def openElement? (key : String) (es : Entries) : Option Entries :=
  match es.find? key with
  | none => some (es ++ [(key, .tables [[]])])
  | some (.tables elements) => some (es.put key (.tables (elements ++ [[]])))
  | some _ => none

end AtomicCss.Toml.Entries
