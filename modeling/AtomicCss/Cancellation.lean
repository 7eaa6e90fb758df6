/-
Cancelling a pass.

A pass looks at its cancellation at fixed points and stops at the first at which it is
set.  When it is set is up to somebody else; all that matters for a pass is how many of
its checks come before.
-/
namespace AtomicCss

/-- When a pass is cancelled: after so many of its checks, or never. -/
structure Cancellation where
  checksLeft : Option Nat
  deriving DecidableEq

/-- A pass stopped before it was finished. -/
inductive Cancelled
  | cancelled
  deriving DecidableEq

/-- The text of a cancellation. -/
def Cancelled.message : Cancelled → String
  | .cancelled => "scan pass cancelled"

namespace Cancellation

/-- A pass that nobody cancels. -/
def never : Cancellation := ⟨none⟩

/-- A pass that is cancelled before it begins. -/
def already : Cancellation := ⟨some 0⟩

/-- Goes past `n` checks. -/
def pass (c : Cancellation) (n : Nat) : Except Cancelled Cancellation :=
  match c.checksLeft with
  | none => .ok c
  | some left => if n ≤ left then .ok ⟨some (left - n)⟩ else .error .cancelled

@[simp] theorem never_pass (n : Nat) : never.pass n = .ok never := rfl

/-- Checks add up. -/
theorem pass_add (c : Cancellation) (m n : Nat) :
    c.pass (m + n) = (c.pass m).bind (·.pass n) := by
  obtain ⟨_ | left⟩ := c
  · rfl
  · simp only [pass]
    by_cases hm : m ≤ left
    · simp only [hm, if_true, Except.bind]
      by_cases hn : n ≤ left - m
      · rw [if_pos hn, if_pos (by omega), Nat.sub_add_eq]
      · rw [if_neg hn, if_neg (by omega)]
    · rw [if_neg hm, if_neg (by omega)]
      rfl

/-- One check for each element of a list. -/
theorem foldlM_pass {α : Type} (xs : List α) (c : Cancellation) :
    xs.foldlM (fun c _ => c.pass 1) c = c.pass xs.length := by
  induction xs generalizing c with
  | nil => obtain ⟨_ | left⟩ := c <;> rfl
  | cons x xs ih =>
    rw [List.length_cons, Nat.add_comm, pass_add, List.foldlM_cons]
    exact congrArg (c.pass 1 >>= ·) (funext ih)

end Cancellation

end AtomicCss
