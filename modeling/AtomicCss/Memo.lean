/-
Remembering what literals resolve to.

A memo keeps the result of every computation under its literal, the result that there
is no rule included, and counts how often it had to compute.  A memo that is switched
off keeps nothing.
-/
import AtomicCss.Rule
import Std.Data.HashMap

namespace AtomicCss

/-- How a memo has been used. -/
structure MemoStats where
  hits : Nat
  misses : Nat
  entries : Nat
  deriving DecidableEq

/-- Results by literal. -/
structure Memo where
  enabled : Bool
  results : Std.HashMap String (Option ClassRule) := ∅
  hits : Nat := 0
  misses : Nat := 0

namespace Memo

/-- What a memo remembers of a literal. -/
def peek? (m : Memo) (literal : String) : Option (Option ClassRule) :=
  m.results[literal]?

/-- The memo after a result was computed. -/
def learn (m : Memo) (literal : String) (result : Option ClassRule) : Memo :=
  { m with
    results := if m.enabled then m.results.insert literal result else m.results
    misses := m.misses + 1 }

/-- The result for a literal: the remembered one, else a computed one. -/
def lookup (m : Memo) (literal : String) (compute : Unit → Option ClassRule) :
    Option ClassRule × Memo :=
  match m.peek? literal with
  | some result => (result, { m with hits := m.hits + 1 })
  | none =>
    let result := compute ()
    (result, m.learn literal result)

/-- Forgets all results.  What was counted stays. -/
def clear (m : Memo) : Memo :=
  { m with results := ∅ }

/-- How a memo has been used. -/
def stats (m : Memo) : MemoStats :=
  ⟨m.hits, m.misses, m.results.size⟩

/-- Whether a memo remembers nothing. -/
def isEmpty (m : Memo) : Bool :=
  m.results.isEmpty

end Memo

end AtomicCss
