/-
Rebuilding on change.

A loop keeps one engine.  It makes one attempt at once and one more after changes: it
loads the configuration anew, if that comes from a file, and then builds in a pass of its
own.  A change that is noticed while a pass is under way supersedes it, and the pass
delivers nothing; a configuration that cannot be loaded is delivered as the outcome, and
one whose screens cannot be sorted breaks the loop off.  Without a debounce time every
change leads to an attempt; with one, changes that are waiting are served together.

The loop runs here against a script: some changes wait when it starts, and each outcome
it delivers is followed by the next edit of the project and a change that announces it,
as long as there are edits.  An attempt either uses up a change or, together with one, an
edit, so the loop ends.
-/
import AtomicCss.Config.Load
import AtomicCss.Engine.Basic
import AtomicCss.Project.Edit

namespace AtomicCss.Rebuild

/-- Where configurations come from: a file whose content patterns may be replaced. -/
structure Source where
  path : String
  content : List String
  deriving DecidableEq

/-- What an attempt delivers. -/
inductive Outcome
  | built (build : Build)
  | failed (error : ConfigError)
  deriving DecidableEq

/-- A rebuild loop that waits for its next attempt. -/
structure State where
  engine : Engine
  project : Project
  /-- The edits that are still to come. -/
  script : List Edit
  /-- How many changes have not been noticed yet. -/
  waiting : Nat

/-- The engine with the configuration as its file has it now. -/
def reload (source : Option Source) (project : Project) (engine : Engine) :
    Except SetupError Engine :=
  match source with
  | none => .ok engine
  | some s => do
    let config ← (Config.load project s.path s.content).mapError .refused
    return (← engine.reconfigure config).2

/-- The engine after an attempt, and what the attempt delivers; nothing, if it breaks the
loop off. -/
def attempt (source : Option Source) (s : State) : Option (Engine × Option Outcome) :=
  match reload source s.project s.engine with
  | .error .unordered => none
  | .error (.refused e) => some (s.engine, some (.failed e))
  | .ok engine =>
    match engine.build s.project .never with
    | (.error _, engine) => some (engine, none)
    | (.ok build, engine) =>
      some (engine, if s.waiting = 0 then some (.built build) else none)

/-- The state after an outcome, if there is one: the next edit is made and announced. -/
def State.deliver (s : State) (outcome : Option Outcome) : State :=
  match outcome, s.script with
  | some _, edit :: script =>
    { s with project := s.project.edited edit, script, waiting := s.waiting + 1 }
  | _, _ => s

/-- The changes that still wait after some have been noticed for the next attempt. -/
def unnoticed (debounce waiting : Nat) : Nat :=
  if debounce = 0 then waiting - 1 else 0

/-- How many attempts can follow at most. -/
def State.measure (s : State) : Nat :=
  2 * s.script.length + s.waiting

theorem measure_deliver (s : State) (outcome : Option Outcome) :
    (s.deliver outcome).measure ≤ s.measure := by
  unfold State.deliver
  split
  · rename_i h
    simp only [State.measure, h, List.length_cons]
    omega
  · exact Nat.le_refl _

theorem unnoticed_lt {waiting : Nat} (debounce : Nat) (h : waiting ≠ 0) :
    unnoticed debounce waiting < waiting := by
  unfold unnoticed
  split <;> omega

/-- The outcomes of a loop in order, each with the project it was delivered for. -/
def run (source : Option Source) (debounce : Nat) (s : State) : List (Outcome × Project) :=
  match attempt source s with
  | none => []
  | some (engine, outcome) =>
    let delivered := outcome.toList.map (·, s.project)
    let next := State.deliver { s with engine } outcome
    if h : next.waiting = 0 then delivered
    else
      have := unnoticed_lt debounce h
      delivered ++ run source debounce { next with waiting := unnoticed debounce next.waiting }
termination_by s.measure
decreasing_by
  have h₁ := measure_deliver { s with engine } outcome
  simp only [State.measure, next] at h₁ this ⊢
  omega

end AtomicCss.Rebuild
