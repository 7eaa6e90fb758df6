/-
What an engine remembers is what it would work out.

An engine keeps three things side by side: a configuration, the theme and context that
were made of it, and results of literals.  `Sound` says that they belong together: theme
and context are those of the configuration, and every remembered result, the result that
there is no rule included, is the one the ruleset gives now.

Looking up a literal keeps this, because a new result is computed from the same ruleset,
and a change of the configuration keeps it, because results survive only if theme and
context stay equal, and a rule depends on nothing else.  So every engine that a valid
configuration and any use lead to is sound, and what it answers does not depend on what it
remembers.
-/
import AtomicCss.Engine.Session
import AtomicCss.Proofs.Engine.Learns
import AtomicCss.Proofs.Engine.Ruleset

namespace AtomicCss

/-- Every remembered result is the one of `rule?`. -/
def Memo.Agrees (m : Memo) (rule? : String → Option ClassRule) : Prop :=
  ∀ literal result, m.peek? literal = some result → result = rule? literal

namespace Memo

variable {rule? : String → Option ClassRule}

theorem agrees_new (enabled : Bool) : Agrees { enabled } rule? := by
  intro literal result h
  simp [peek?] at h

theorem agrees_clear (m : Memo) : Agrees m.clear rule? := by
  intro literal result h
  rw [peek?_clear] at h
  cases h

theorem Agrees.answerOf_eq {m : Memo} (h : m.Agrees rule?) : answerOf rule? m.peek? = rule? := by
  funext literal
  unfold answerOf
  cases hpeek : m.peek? literal with
  | none => rfl
  | some result => exact h literal result hpeek

theorem Agrees.of_learns {m n : Memo} (h : m.Agrees rule?)
    (hlearns : Learns rule? m.peek? n.peek?) : n.Agrees rule? := by
  intro literal result hresult
  cases hpeek : m.peek? literal with
  | none => exact hlearns.learned literal result hpeek hresult
  | some known =>
      obtain rfl := Option.some.inj ((hlearns.kept _ _ hpeek).symm.trans hresult)
      exact h literal known hpeek

end Memo

namespace Engine

/-- Configuration, ruleset and memory of an engine belong together. -/
structure Sound (options : EngineOptions) (e : Engine) : Prop where
  options_eq : e.options = options
  /-- The ruleset is the meaning of the configuration that was accepted last. -/
  accepted : Ruleset.ofConfig e.ruleset.config = .ok e.ruleset
  /-- Results are those of the ruleset. -/
  agrees : e.memo.Agrees e.ruleset.rule?

variable {options : EngineOptions} {e : Engine}

theorem sound_ofConfig {config : Config} (h : ofConfig options config = .ok e) :
    e.Sound options ∧ e.ruleset.config = config := by
  obtain ⟨r, hr, h⟩ := bind_eq_ok.mp h
  obtain rfl := pure_eq_ok.mp h
  have hconfig : r.config = config := Ruleset.config_of_ofConfig hr
  exact ⟨⟨rfl, hconfig ▸ hr, Memo.agrees_new _⟩, hconfig⟩

/-- A new engine for a configuration that sets nothing but its content. -/
def plain (content : List String) : Engine where
  options := {}
  ruleset := .plain content
  memo := { enabled := true }

theorem ofConfig_plain {content : List String} (h : content.all Text.isBlankText = false) :
    ofConfig {} { content } = .ok (plain content) :=
  bind_eq_ok.mpr ⟨.plain content, Ruleset.ofConfig_plain h, rfl⟩

/-! ### Requests that use the ruleset -/

/-- What a use of an engine leaves as it was: all but the memory, which stays sound. -/
structure KeepsRules (options : EngineOptions) (before after : Engine) : Prop where
  sound : after.Sound options
  ruleset_eq : after.ruleset = before.ruleset

theorem Sound.answer_eq (h : e.Sound options) : e.answer = e.ruleset.rule? :=
  h.agrees.answerOf_eq

theorem KeepsRules.of_learns {before after : Engine} (h : before.Sound options)
    (hlearns : Learns before after) : KeepsRules options before after where
  sound := {
    options_eq := hlearns.options_eq.trans h.options_eq
    accepted := by rw [hlearns.ruleset_eq]; exact h.accepted
    agrees := by rw [hlearns.ruleset_eq]; exact h.agrees.of_learns hlearns.memo }
  ruleset_eq := hlearns.ruleset_eq

theorem resolve_spec (h : e.Sound options) (literal : String) :
    (e.resolve literal).1 = e.ruleset.rule? literal ∧
      KeepsRules options e (e.resolve literal).2 :=
  ⟨by rw [resolve_fst, h.answer_eq], .of_learns h (learns_resolve e literal)⟩

/-- Resolving many literals gives their rules, unless there are fewer checks left than
literals. -/
theorem resolveAll_spec (literals : List String) (h : e.Sound options) (c : Cancellation) :
    (e.resolveAll c literals).1 =
        (c.pass literals.length).map (fun c => (literals.filterMap e.ruleset.rule?, c)) ∧
      KeepsRules options e (e.resolveAll c literals).2 :=
  ⟨by rw [resolveAll_fst, h.answer_eq], .of_learns h (learns_resolveAll e c literals)⟩

theorem generate_spec (h : e.Sound options) (literals : List String) (c : Cancellation) :
    (e.generate literals c).1 =
        (c.pass (literals.length + 1)).map (fun _ =>
          e.sheetOf (literals.filterMap e.ruleset.rule?)) ∧
      KeepsRules options e (e.generate literals c).2 :=
  ⟨by rw [generate_fst, h.answer_eq], .of_learns h (learns_generate e literals c)⟩

theorem build_spec (h : e.Sound options) (project : Project) (c : Cancellation) :
    (e.build project c).1 =
        (e.scan project c).bind (fun (scan, c) =>
          (c.pass (scan.candidates.length + 1)).map fun _ => {
            stylesheet := e.sheetOf ((scan.candidates.map (·.text)).filterMap e.ruleset.rule?)
            warnings := scan.warnings
            filesScanned := scan.filesScanned
            candidateCount := scan.candidates.length }) ∧
      KeepsRules options e (e.build project c).2 := by
  refine ⟨?_, .of_learns h (learns_build e project c)⟩
  rw [build_fst, buildChecks, Cancellation.pass_add, scan_eq, ← h.answer_eq]
  cases c.pass (Scan.checks (e.selection project)) <;> rfl

/-- Sound engines with one ruleset build the same, whatever they remember. -/
theorem build_congr {e₁ e₂ : Engine} (h₁ : e₁.Sound options) (h₂ : e₂.Sound options)
    (hruleset : e₁.ruleset = e₂.ruleset) (project : Project) (c : Cancellation) :
    (e₁.build project c).1 = (e₂.build project c).1 := by
  rw [(build_spec h₁ project c).1, (build_spec h₂ project c).1]
  simp only [scan, sheetOf, h₁.options_eq, h₂.options_eq, hruleset]

/-! ### Changes of the configuration -/

theorem reconfigure_eq_ok {config : Config} {r : Ruleset} (hr : Ruleset.ofConfig config = .ok r) :
    e.reconfigure config = .ok (r.differs e.ruleset,
      { e with ruleset := r, memo := if r.differs e.ruleset then e.memo.clear else e.memo }) := by
  rw [reconfigure, hr]
  rfl

/-- A change fails as working out the ruleset fails, and otherwise gives a sound engine with
the new configuration.  It tells whether theme and context differ. -/
theorem reconfigure_spec (h : e.Sound options) (config : Config) :
    (∀ error, Ruleset.ofConfig config = .error error → e.reconfigure config = .error error) ∧
      ∀ r, Ruleset.ofConfig config = .ok r →
        ∃ next, e.reconfigure config = .ok (r.differs e.ruleset, next) ∧
          next.Sound options ∧ next.ruleset = r := by
  refine ⟨fun error herror => ?_, fun r hr => ?_⟩
  · rw [reconfigure, herror]
    rfl
  · refine ⟨_, reconfigure_eq_ok hr, ⟨h.options_eq, ?_, ?_⟩, rfl⟩
    · show Ruleset.ofConfig r.config = .ok r
      rw [Ruleset.config_of_ofConfig hr, hr]
    · show (if r.differs e.ruleset = true then e.memo.clear else e.memo).Agrees r.rule?
      split
      · exact Memo.agrees_clear _
      · rename_i hsame
        intro literal result hpeek
        rw [Ruleset.rule?_eq_of_not_differs (Bool.eq_false_iff.mpr hsame)]
        exact h.agrees literal result hpeek

/-! ### Every engine in use is sound -/

theorem sound_answer {s : Session} (h : s.engine.Sound options) (request : Request) :
    (s.answer request).2.engine.Sound options := by
  cases request with
  | resolve literal => exact (resolve_spec h literal).2.sound
  | resolveAll literals c => exact (resolveAll_spec literals h c).2.sound
  | generate literals c => exact (generate_spec h literals c).2.sound
  | build c => exact (build_spec h s.project c).2.sound
  | reconfigure config =>
      obtain ⟨herror, hok⟩ := reconfigure_spec h config
      cases hnew : Ruleset.ofConfig config with
      | error error =>
          simp only [Session.answer, herror error hnew]
          exact h
      | ok r =>
          obtain ⟨next, hnext, hsound, -⟩ := hok r hnew
          simp only [Session.answer, hnext]
          exact hsound
  | scan c => exact h
  | edit edit => exact h
  | config => exact h
  | token category token => exact h

/-- The engines that a valid configuration and any requests lead to, in projects that may
change in between. -/
inductive Reached (options : EngineOptions) : Engine → Prop
  | start {config : Config} {e : Engine} (h : ofConfig options config = .ok e) :
      Reached options e
  | used {s : Session} (h : Reached options s.engine) (request : Request) :
      Reached options (s.answer request).2.engine

/-- **Every engine that can be reached is sound.** -/
theorem Reached.sound (h : Reached options e) : e.Sound options := by
  induction h with
  | start h => exact (sound_ofConfig h).1
  | used _ request ih => exact sound_answer ih request

end Engine

end AtomicCss
