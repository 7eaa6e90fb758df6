/-
Engines.

An engine holds a ruleset and remembers what it resolved under it.  It resolves
literals, scans and builds a project, and can be given another configuration; what it
remembers is dropped exactly when the new configuration may give different rules.
-/
import AtomicCss.Engine.Ruleset
import AtomicCss.Memo
import AtomicCss.Sheet.Basic
import AtomicCss.Source.Scan

namespace AtomicCss

/-- How an engine works. -/
structure EngineOptions where
  scan : ScanOptions := {}
  /-- Whether results are remembered. -/
  cache : Bool := true
  style : Style := .pretty
  deriving DecidableEq

/-- A ruleset with a memory of its results. -/
structure Engine where
  options : EngineOptions
  ruleset : Ruleset
  memo : Memo

/-- The result of a build. -/
structure Build where
  stylesheet : Stylesheet
  warnings : List Warning
  filesScanned : Nat
  candidateCount : Nat
  deriving DecidableEq

namespace Engine

/-- An engine for a configuration, if that has a meaning. -/
def ofConfig (options : EngineOptions) (config : Config) : Except SetupError Engine := do
  return { options, ruleset := ← Ruleset.ofConfig config, memo := { enabled := options.cache } }

/-- The rule of a literal. -/
def resolve (e : Engine) (literal : String) : Option ClassRule × Engine :=
  let ⟨options, ruleset, memo⟩ := e
  let (result, memo) := memo.lookup literal fun _ => ruleset.rule? literal
  (result, { options, ruleset, memo })

/-- The rules of those literals that have one, in order.  Every literal is preceded by a
check. -/
def resolveAll (e : Engine) (c : Cancellation) :
    List String → Except Cancelled (List ClassRule × Cancellation) × Engine
  | [] => (.ok ([], c), e)
  | literal :: literals =>
    match c.pass 1 with
    | .error stop => (.error stop, e)
    | .ok c =>
      let (result, e) := e.resolve literal
      let (rest, e) := e.resolveAll c literals
      (rest.map fun (rules, c) => (result.toList ++ rules, c), e)

/-- Those literals that have a rule, in order. -/
def matching (e : Engine) : List String → List String × Engine
  | [] => ([], e)
  | literal :: literals =>
    let (result, e) := e.resolve literal
    let (rest, e) := e.matching literals
    (if result.isSome then literal :: rest else rest, e)

/-- The stylesheet of some class rules. -/
def sheetOf (e : Engine) (rules : List ClassRule) : Stylesheet :=
  .ofRules e.options.style (rules.map ClassRule.toRule)

/-- The stylesheet of some literals, unless it is cancelled. -/
def generate (e : Engine) (literals : List String) (c : Cancellation) :
    Except Cancelled Stylesheet × Engine :=
  let (resolved, e) := e.resolveAll c literals
  (resolved.bind fun (rules, c) => (c.pass 1).map fun _ => e.sheetOf rules, e)

/-- Scans a project for the configured content. -/
def scan (e : Engine) (project : Project) (c : Cancellation) :
    Except Cancelled (Scan × Cancellation) :=
  Scan.run project e.options.scan e.ruleset.config.content c

/-- Scans a project and makes the stylesheet of what was found. -/
def build (e : Engine) (project : Project) (c : Cancellation) :
    Except Cancelled Build × Engine :=
  match e.scan project c with
  | .error stop => (.error stop, e)
  | .ok (scan, c) =>
    let (stylesheet, e) := e.generate (scan.candidates.map (·.text)) c
    (stylesheet.map fun stylesheet => {
      stylesheet
      warnings := scan.warnings
      filesScanned := scan.filesScanned
      candidateCount := scan.candidates.length }, e)

/-- Takes over another configuration, if it has a meaning.  Tells whether what was
remembered has been dropped. -/
def reconfigure (e : Engine) (config : Config) : Except SetupError (Bool × Engine) := do
  let ruleset ← Ruleset.ofConfig config
  let stale := ruleset.differs e.ruleset
  return (stale, { e with ruleset, memo := if stale then e.memo.clear else e.memo })

end Engine

end AtomicCss
