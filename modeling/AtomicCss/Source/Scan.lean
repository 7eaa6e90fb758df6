/-
Scanning a project.

A scan reads the selected files in order and lists each text that may be a class once,
where it stands first.  A file that cannot be read as text is reported and left out.
-/
import AtomicCss.Cancellation
import AtomicCss.Source.Candidate
import AtomicCss.Source.Selection

namespace AtomicCss

/-- A candidate with the file it stands in. -/
structure FoundCandidate extends Source.Candidate where
  path : String
  deriving DecidableEq

/-- The result of a scan. -/
structure Scan where
  candidates : List FoundCandidate
  warnings : List Warning
  /-- How many files were read. -/
  filesScanned : Nat
  deriving DecidableEq

namespace Scan

/-- The candidates of a file, repetitions included. -/
def candidatesOf (f : FoundFile) : Except Fault (List FoundCandidate) := do
  let text ← f.text
  return (Source.candidates text.toList).map fun c => { c with path := String.ofList f.path }

/-- The warning about a file that cannot be read. -/
def failure? (f : FoundFile) : Option Warning :=
  match candidatesOf f with
  | .ok _ => none
  | .error fault => some (.unreadable (String.ofList f.path) fault)

/-- The scan of a selection. -/
def of (selection : Selection) : Scan :=
  let read := selection.files.filterMap fun f => (candidatesOf f).toOption
  { candidates := distinctOn (·.text) read.flatten
    warnings := selection.warnings ++ selection.files.filterMap failure?
    filesScanned := read.length }

/-- Scans a project.  There is a check before and after the selection, before each file and at
the end.  The cancellation is handed on with the result. -/
def run (project : Project) (options : ScanOptions) (patterns : List String)
    (c : Cancellation) : Except Cancelled (Scan × Cancellation) := do
  let c ← c.pass 1
  let selection := Selection.of project options patterns
  let c ← c.pass 1
  let c ← selection.files.foldlM (fun c _ => c.pass 1) c
  let c ← c.pass 1
  return (of selection, c)

/-- How often a scan of a selection looks whether it is cancelled. -/
def checks (selection : Selection) : Nat :=
  selection.files.length + 3

theorem run_eq (project : Project) (options : ScanOptions) (patterns : List String)
    (c : Cancellation) :
    run project options patterns c =
      (c.pass (checks (.of project options patterns))).map fun c =>
        (of (.of project options patterns), c) := by
  have hchecks : checks (.of project options patterns) =
      1 + (1 + ((Selection.of project options patterns).files.length + 1)) := by
    rw [checks]
    omega
  simp only [run, hchecks, Cancellation.foldlM_pass, Cancellation.pass_add, bind, Except.bind]
  cases c.pass 1 with
  | error stop => rfl
  | ok c =>
    dsimp only
    cases c.pass 1 with
    | error stop => rfl
    | ok c =>
      dsimp only
      cases c.pass (Selection.of project options patterns).files.length with
      | error stop => rfl
      | ok c => cases hlast : c.pass 1 <;> simp only [hlast] <;> rfl

end Scan

end AtomicCss
