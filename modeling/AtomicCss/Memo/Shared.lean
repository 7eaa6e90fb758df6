/-
A memo that many look-ups use at once.

Each literal has a slot of its own, which is put in empty and filled later.  A look-up makes
three steps: it finds the slot of its literal or puts one in; it reads the slot, or computes
and fills it if it is empty; it counts a hit or a miss.  Each step is made at once, but the
steps of other look-ups may come between any two.  Filling computes within the step: whoever
else asks for the slot waits until it is filled.

A list of turns says whose step is next, and so is one schedule of all look-ups.
-/
import AtomicCss.Memo

namespace AtomicCss

/-- A memo with a slot for each literal that was asked for.  Slots are known by their number
and stay where they are. -/
structure SharedMemo where
  literals : List String
  /-- What was found for each of the literals, if anything was. -/
  slots : List (Option (Option ClassRule))
  distinct : literals.Nodup
  paired : slots.length = literals.length
  hits : Nat := 0
  misses : Nat := 0

namespace SharedMemo

/-- The slot of a literal that has one. -/
def slotOf (m : SharedMemo) (literal : String) : Nat :=
  m.literals.idxOf literal

/-- What a slot holds. -/
def resultAt? (m : SharedMemo) (slot : Nat) : Option (Option ClassRule) :=
  m.slots[slot]?.join

/-- What is remembered of a literal. -/
def peek? (m : SharedMemo) (literal : String) : Option (Option ClassRule) :=
  m.resultAt? (m.slotOf literal)

/-- How the memo has been used.  Empty slots are no entries. -/
def stats (m : SharedMemo) : MemoStats :=
  ⟨m.hits, m.misses, m.slots.countP Option.isSome⟩

/-- Finds the slot of a literal, or puts in an empty one. -/
def reserve (m : SharedMemo) (literal : String) : Nat × SharedMemo :=
  if h : literal ∈ m.literals then (m.slotOf literal, m)
  else
    (m.slots.length, { m with
      literals := m.literals ++ [literal]
      slots := m.slots ++ [none]
      distinct := by
        refine List.nodup_append.mpr ⟨m.distinct, List.pairwise_singleton _ literal, ?_⟩
        intro a ha b hb heq
        exact h (List.mem_singleton.mp hb ▸ heq ▸ ha)
      paired := by rw [List.length_append, List.length_append, m.paired]; rfl })

/-- Puts a result into a slot. -/
def fill (m : SharedMemo) (slot : Nat) (result : Option ClassRule) : SharedMemo :=
  { m with
    slots := m.slots.set slot (some result)
    paired := by rw [List.length_set, m.paired] }

/-- Reads a slot, or computes and fills it.  Tells whether it computed. -/
def settle (m : SharedMemo) (slot : Nat) (compute : Unit → Option ClassRule) :
    Option ClassRule × Bool × SharedMemo :=
  match m.resultAt? slot with
  | some result => (result, false, m)
  | none =>
    let result := compute ()
    (result, true, m.fill slot result)

/-- Counts a hit or a miss. -/
def count (m : SharedMemo) (computed : Bool) : SharedMemo :=
  if computed then { m with misses := m.misses + 1 } else { m with hits := m.hits + 1 }

end SharedMemo

/-- How far a look-up is. -/
inductive Stage
  | waiting
  /-- It has a slot. -/
  | holding (slot : Nat)
  /-- It has a result, and has not counted how it came to it. -/
  | settled (result : Option ClassRule) (computed : Bool)
  | finished (result : Option ClassRule)
  deriving DecidableEq

/-- One look-up among others. -/
structure Lookup where
  literal : String
  stage : Stage := .waiting
  deriving DecidableEq

/-- A memo with the look-ups on it. -/
structure Crowd where
  memo : SharedMemo
  lookups : List Lookup
  /-- The literals that were computed, once for each time, the last first. -/
  computed : List String := []

/-- What a look-up gives, once it is known. -/
def Lookup.result? (l : Lookup) : Option (Option ClassRule) :=
  match l.stage with
  | .settled result _ | .finished result => some result
  | .waiting | .holding _ => none

/-- The next step of a look-up, with the literals that are computed in it. -/
def Lookup.step (compute : String → Option ClassRule) (l : Lookup) (m : SharedMemo) :
    Lookup × SharedMemo × List String :=
  match l.stage with
  | .waiting =>
    let (slot, m) := m.reserve l.literal
    ({ l with stage := .holding slot }, m, [])
  | .holding slot =>
    let (result, computed, m) := m.settle slot fun _ => compute l.literal
    ({ l with stage := .settled result computed }, m, if computed then [l.literal] else [])
  | .settled result computed => ({ l with stage := .finished result }, m.count computed, [])
  | .finished _ => (l, m, [])

namespace Crowd

variable (compute : String → Option ClassRule)

/-- A memo with look-ups that have not begun. -/
def start (memo : SharedMemo) (literals : List String) : Crowd where
  memo := memo
  lookups := literals.map fun literal => { literal }

/-- A look-up makes its next step. -/
def turn (c : Crowd) (i : Nat) : Crowd :=
  match c.lookups[i]? with
  | none => c
  | some l =>
    let (l, memo, computed) := l.step compute c.memo
    { memo, lookups := c.lookups.set i l, computed := computed ++ c.computed }

/-- The steps of a schedule, one after the other. -/
def run (c : Crowd) (schedule : List Nat) : Crowd :=
  schedule.foldl (turn compute) c

/-- The rules that are known, in the order of their look-ups. -/
def results (c : Crowd) : List ClassRule :=
  c.lookups.filterMap fun l => l.result?.join

end Crowd

end AtomicCss
