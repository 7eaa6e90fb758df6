/-
Sessions: an engine at work on a project.

A session answers one request after the other.  Requests use the engine, change its
configuration or change the project; what is asked later sees what was done before.
-/
import AtomicCss.Engine.Basic
import AtomicCss.Project.Edit

namespace AtomicCss

/-- What can be asked of a session. -/
inductive Request
  | resolve (literal : String)
  | resolveAll (literals : List String) (c : Cancellation)
  | generate (literals : List String) (c : Cancellation)
  | scan (c : Cancellation)
  | build (c : Cancellation)
  | reconfigure (config : Config)
  | edit (edit : Edit)
  | config
  | token (category : Category) (token : String)

/-- What a session answers. -/
inductive Answer
  | rule (result : Option ClassRule)
  | rules (result : Except Cancelled (List ClassRule))
  | stylesheet (result : Except Cancelled Stylesheet)
  | scan (result : Except Cancelled Scan)
  | build (result : Except Cancelled Build)
  /-- Whether what was remembered has been dropped. -/
  | reconfigured (result : Except SetupError Bool)
  | edited
  | config (config : Config)
  | token (value : Option String)

/-- An engine and the project it works on. -/
structure Session where
  engine : Engine
  project : Project

namespace Session

/-- Answers a request. -/
def answer (s : Session) : Request → Answer × Session
  | .resolve literal =>
    let (result, engine) := s.engine.resolve literal
    (.rule result, { s with engine })
  | .resolveAll literals c =>
    let (result, engine) := s.engine.resolveAll c literals
    (.rules (result.map (·.1)), { s with engine })
  | .generate literals c =>
    let (result, engine) := s.engine.generate literals c
    (.stylesheet result, { s with engine })
  | .scan c => (.scan ((s.engine.scan s.project c).map (·.1)), s)
  | .build c =>
    let (result, engine) := s.engine.build s.project c
    (.build result, { s with engine })
  | .reconfigure config =>
    match s.engine.reconfigure config with
    | .error e => (.reconfigured (.error e), s)
    | .ok (dropped, engine) => (.reconfigured (.ok dropped), { s with engine })
  | .edit edit => (.edited, { s with project := s.project.edited edit })
  | .config => (.config s.engine.ruleset.config, s)
  | .token category token => (.token (s.engine.ruleset.theme.find? category token), s)

/-- Answers requests in order; each answer comes with the memo's use after it. -/
def answers (s : Session) : List Request → List (Answer × MemoStats)
  | [] => []
  | request :: requests =>
    let (answer, s) := s.answer request
    (answer, s.engine.memo.stats) :: s.answers requests

end Session

end AtomicCss
