/-
A memory that shows in nothing but its own counts.

A session keeps an engine with a memory, and changes of the configuration, of the files
and cancelled passes may come in any order.  The session of `Memoryless` keeps only the
configuration that was accepted last and works every rule out anew: theme and context are
made of the configuration for each literal.  `Matches` relates the two, one request keeps
it and is answered alike by both, and so, by induction on the requests, a whole session is.

What is left of the engine's state is its memory, and `Engine.Sound` says what that holds:
the rules of the current theme and context, which are those of the configuration accepted
last.
-/
import AtomicCss.Proofs.Engine.Sound

namespace AtomicCss

/-- A session that remembers no results. -/
structure Memoryless where
  options : EngineOptions
  /-- The configuration that was accepted last. -/
  config : Config
  project : Project

namespace Memoryless

/-- The rule of a literal, from the configuration alone. -/
def rule? (m : Memoryless) (literal : String) : Option ClassRule :=
  match Theme.resolve Theme.defaults m.config.theme with
  | .error _ => none
  | .ok theme => do ClassRule.ofLiteral? theme (← VariantContext.of? m.config theme) literal

/-- The stylesheet of some literals. -/
def stylesheet (m : Memoryless) (literals : List String) : Stylesheet :=
  .ofRules m.options.style ((literals.filterMap m.rule?).map ClassRule.toRule)

/-- Scans the project for the configured content. -/
def scan (m : Memoryless) (c : Cancellation) : Except Cancelled (Scan × Cancellation) :=
  Scan.run m.project m.options.scan m.config.content c

/-- Scans the project and makes the stylesheet of what was found.  There is a check before
each literal and one before the stylesheet. -/
def build (m : Memoryless) (c : Cancellation) : Except Cancelled Build :=
  (m.scan c).bind fun (scan, c) =>
    (c.pass (scan.candidates.length + 1)).map fun _ => {
      stylesheet := m.stylesheet (scan.candidates.map (·.text))
      warnings := scan.warnings
      filesScanned := scan.filesScanned
      candidateCount := scan.candidates.length }

/-- Takes over another configuration, if it has a meaning.  Tells whether it means something
else than the one before. -/
def reconfigure (m : Memoryless) (config : Config) : Except SetupError (Bool × Memoryless) := do
  let new ← Ruleset.ofConfig config
  let old ← Ruleset.ofConfig m.config
  return (new.differs old, { m with config })

/-- The value of a token. -/
def token? (m : Memoryless) (category : Category) (token : String) : Option String :=
  match Theme.resolve Theme.defaults m.config.theme with
  | .error _ => none
  | .ok theme => theme.find? category token

/-- Answers a request. -/
def answer (m : Memoryless) : Request → Answer × Memoryless
  | .resolve literal => (.rule (m.rule? literal), m)
  | .resolveAll literals c =>
    (.rules ((c.pass literals.length).map fun _ => literals.filterMap m.rule?), m)
  | .generate literals c =>
    (.stylesheet ((c.pass (literals.length + 1)).map fun _ => m.stylesheet literals), m)
  | .scan c => (.scan ((m.scan c).map (·.1)), m)
  | .build c => (.build (m.build c), m)
  | .reconfigure config =>
    match m.reconfigure config with
    | .error e => (.reconfigured (.error e), m)
    | .ok (differs, m) => (.reconfigured (.ok differs), m)
  | .edit edit => (.edited, { m with project := m.project.edited edit })
  | .config => (.config m.config, m)
  | .token category token => (.token (m.token? category token), m)

/-- Answers requests in order. -/
def answers (m : Memoryless) : List Request → List Answer
  | [] => []
  | request :: requests => (m.answer request).1 :: (m.answer request).2.answers requests

/-- The session after some requests. -/
def after (m : Memoryless) (requests : List Request) : Memoryless :=
  requests.foldl (fun m request => (m.answer request).2) m

end Memoryless

/-- The session after some requests. -/
def Session.after (s : Session) (requests : List Request) : Session :=
  requests.foldl (fun s request => (s.answer request).2) s

/-! ### The two sessions answer alike -/

/-- Both sessions are at the same configuration and project. -/
structure Matches (m : Memoryless) (s : Session) : Prop where
  sound : s.engine.Sound m.options
  config_eq : s.engine.ruleset.config = m.config
  project_eq : s.project = m.project

namespace Matches

variable {m : Memoryless} {s : Session}

theorem resolve_eq (h : Matches m s) :
    Theme.resolve Theme.defaults m.config.theme = .ok s.engine.ruleset.theme := by
  rw [← h.config_eq]
  exact (Ruleset.ofConfig_eq_ok.mp h.sound.accepted).2.1

theorem context_eq (h : Matches m s) :
    VariantContext.of? m.config s.engine.ruleset.theme = some s.engine.ruleset.context := by
  rw [← h.config_eq]
  exact (Ruleset.ofConfig_eq_ok.mp h.sound.accepted).2.2.2

theorem rule?_eq (h : Matches m s) : m.rule? = s.engine.ruleset.rule? := by
  funext literal
  simp only [Memoryless.rule?, h.resolve_eq, h.context_eq]
  rfl

theorem scan_eq (h : Matches m s) (c : Cancellation) :
    s.engine.scan s.project c = m.scan c := by
  simp only [Engine.scan, Memoryless.scan, h.sound.options_eq, h.config_eq, h.project_eq]

theorem sheetOf_eq (h : Matches m s) (literals : List String) :
    s.engine.sheetOf (literals.filterMap s.engine.ruleset.rule?) = m.stylesheet literals := by
  simp only [Engine.sheetOf, Memoryless.stylesheet, h.sound.options_eq, h.rule?_eq]

theorem token?_eq (h : Matches m s) (category : Category) (token : String) :
    s.engine.ruleset.theme.find? category token = m.token? category token := by
  simp only [Memoryless.token?, h.resolve_eq]

theorem keeps (h : Matches m s) {engine : Engine}
    (hkeeps : Engine.KeepsRules m.options s.engine engine) : Matches m { s with engine } :=
  ⟨hkeeps.sound, by rw [← h.config_eq, hkeeps.ruleset_eq], h.project_eq⟩

/-- A change of the configuration goes the same way in both sessions. -/
theorem answer_reconfigure (h : Matches m s) (config : Config) :
    (s.answer (.reconfigure config)).1 = (m.answer (.reconfigure config)).1 ∧
      Matches (m.answer (.reconfigure config)).2 (s.answer (.reconfigure config)).2 := by
  have hold : Ruleset.ofConfig m.config = .ok s.engine.ruleset := by
    rw [← h.config_eq]
    exact h.sound.accepted
  obtain ⟨herror, hok⟩ := Engine.reconfigure_spec h.sound config
  cases hnew : Ruleset.ofConfig config with
  | error error =>
      have hm : m.reconfigure config = .error error := by
        simp only [Memoryless.reconfigure, hnew]
        rfl
      simp only [Session.answer, Memoryless.answer, herror error hnew, hm]
      exact ⟨trivial, h⟩
  | ok r =>
      have hm : m.reconfigure config = .ok (r.differs s.engine.ruleset, { m with config }) := by
        simp only [Memoryless.reconfigure, hnew, hold]
        rfl
      obtain ⟨next, hnext, hsound, hruleset⟩ := hok r hnew
      simp only [Session.answer, Memoryless.answer, hnext, hm]
      refine ⟨trivial, hsound, ?_, h.project_eq⟩
      show next.ruleset.config = config
      rw [hruleset, Ruleset.config_of_ofConfig hnew]

/-- **One request is answered alike and keeps the sessions together.** -/
theorem answer (h : Matches m s) (request : Request) :
    (s.answer request).1 = (m.answer request).1 ∧
      Matches (m.answer request).2 (s.answer request).2 := by
  cases request with
  | resolve literal =>
      obtain ⟨hresult, hkeeps⟩ := Engine.resolve_spec h.sound literal
      refine ⟨?_, h.keeps hkeeps⟩
      simp only [Session.answer, Memoryless.answer, hresult, h.rule?_eq]
  | resolveAll literals c =>
      obtain ⟨hresult, hkeeps⟩ := Engine.resolveAll_spec literals h.sound c
      refine ⟨?_, h.keeps hkeeps⟩
      simp only [Session.answer, Memoryless.answer, hresult, h.rule?_eq]
      cases c.pass literals.length <;> rfl
  | generate literals c =>
      obtain ⟨hresult, hkeeps⟩ := Engine.generate_spec h.sound literals c
      refine ⟨?_, h.keeps hkeeps⟩
      simp only [Session.answer, Memoryless.answer, hresult, h.sheetOf_eq]
  | scan c => exact ⟨by simp only [Session.answer, Memoryless.answer, h.scan_eq], h⟩
  | build c =>
      obtain ⟨hresult, hkeeps⟩ := Engine.build_spec h.sound s.project c
      refine ⟨?_, h.keeps hkeeps⟩
      simp only [Session.answer, Memoryless.answer, Memoryless.build, hresult, h.scan_eq,
        h.sheetOf_eq]
  | reconfigure config => exact h.answer_reconfigure config
  | edit edit =>
      refine ⟨rfl, h.sound, h.config_eq, ?_⟩
      simp only [Session.answer, Memoryless.answer, h.project_eq]
  | config => exact ⟨by simp only [Session.answer, Memoryless.answer, h.config_eq], h⟩
  | token category token =>
      exact ⟨by simp only [Session.answer, Memoryless.answer, h.token?_eq], h⟩

theorem answers : ∀ (requests : List Request) {m : Memoryless} {s : Session}, Matches m s →
    (s.answers requests).map (·.1) = m.answers requests ∧
      Matches (m.after requests) (s.after requests) := by
  intro requests
  induction requests with
  | nil => intro m s h; exact ⟨rfl, h⟩
  | cons request requests ih =>
      intro m s h
      obtain ⟨hanswer, hnext⟩ := h.answer request
      obtain ⟨hrest, hlast⟩ := ih hnext
      refine ⟨?_, hlast⟩
      rw [Session.answers, Memoryless.answers, List.map_cons, hrest, hanswer]

end Matches

theorem matches_ofConfig {options : EngineOptions} {config : Config} {engine : Engine}
    (h : Engine.ofConfig options config = .ok engine) (project : Project) :
    Matches ⟨options, config, project⟩ ⟨engine, project⟩ :=
  ⟨(Engine.sound_ofConfig h).1, (Engine.sound_ofConfig h).2, rfl⟩

/--
**Remembering never changes an answer.**  A session from a valid configuration answers any
requests as the memoryless session does.  Afterwards the engine's theme and context are
those of the configuration accepted last, and every result it remembers is the one they
give.
-/
theorem answers_eq_memoryless {options : EngineOptions} {config : Config} {engine : Engine}
    (h : Engine.ofConfig options config = .ok engine) (project : Project)
    (requests : List Request) :
    let s : Session := ⟨engine, project⟩
    let m : Memoryless := ⟨options, config, project⟩
    let ruleset := (s.after requests).engine.ruleset
    (s.answers requests).map (·.1) = m.answers requests ∧
      Theme.resolve Theme.defaults (m.after requests).config.theme = .ok ruleset.theme ∧
      VariantContext.of? (m.after requests).config ruleset.theme = some ruleset.context ∧
      ∀ literal result, (s.after requests).engine.memo.peek? literal = some result →
        result = ClassRule.ofLiteral? ruleset.theme ruleset.context literal := by
  intro s m ruleset
  obtain ⟨hanswers, hafter⟩ := (matches_ofConfig h project).answers requests
  exact ⟨hanswers, hafter.resolve_eq, hafter.context_eq, hafter.sound.agrees⟩

/-- A class is resolved, refused configurations and a dark mode come, and it is resolved
again. -/
theorem answers_eq_memoryless_dark :
    let requests : List Request :=
      [.resolve "dark:z-10", .reconfigure { content := [" "] },
        .reconfigure { content := ["a"], darkMode := .media }, .resolve "dark:z-10",
        .edit { put := [("a", .file "z-10 dark:z-10".toUTF8)] }, .build .already, .build .never]
    Engine.ofConfig {} { content := ["a"] } = .ok (.plain ["a"]) ∧
      (Session.answers ⟨.plain ["a"], .empty⟩ requests).map (·.1) =
        Memoryless.answers ⟨{}, { content := ["a"] }, .empty⟩ requests := by
  have h : Engine.ofConfig {} { content := ["a"] } = .ok (.plain ["a"]) :=
    Engine.ofConfig_plain (by decide)
  exact ⟨h, (answers_eq_memoryless h .empty _).1⟩

end AtomicCss
