/-
Which configurations an engine takes over, and what it forgets by it.

An engine is made for a configuration, and given another one, if the checks pass and the screens
can be sorted; resolving the theme after the checks cannot fail, because it checks nothing that
they have not checked.  So a refused configuration is refused by the checks, before anything of the
engine has changed.  What they do not see is whether the screens have an order: sorting more than
twenty of them may break off where one parts two others.

What an engine remembers was worked out from the theme and the context of modifiers, and is dropped
if one of them is another one now.  Both are made of the configuration, but much of a
configuration is not seen in them: neither the content, nor the way in which the value of a token
is written, nor in which layer it stands.  `Config.MeansSame` says what is seen, and is exactly the
condition under which an engine keeps its memory.
-/
import AtomicCss.Proofs.Engine.Sound
import AtomicCss.Proofs.Theme.Layers
import AtomicCss.Proofs.Theme.Narrowest
import AtomicCss.Proofs.Variant.Enabled

namespace AtomicCss

/-- What is seen of two configurations is the same: they have the same values, and enable the same
modifiers. -/
structure Config.MeansSame (a b : Config) : Prop where
  mode_eq : a.mode = b.mode
  darkMode_eq : a.darkMode = b.darkMode
  value_eq : ∀ category token, Theme.layeredValue? Theme.defaults a.theme category token =
    Theme.layeredValue? Theme.defaults b.theme category token
  enables_iff : ∀ category : Category, category.isUtility = true → ∀ name,
    a.Enables category name ↔ b.Enables category name

/-- A configuration that differs from another one in its content, and in how it writes its tokens,
means the same. -/
theorem Config.MeansSame.of_tokens {a b : Config}
    (h : a = { b with content := a.content, theme := a.theme })
    (hvalues : ∀ category token, Theme.layeredValue? Theme.defaults a.theme category token =
      Theme.layeredValue? Theme.defaults b.theme category token) : a.MeansSame b := by
  rw [h]
  exact ⟨rfl, rfl, hvalues, fun _ _ _ => Iff.rfl⟩

theorem Config.MeansSame.theme_eq {a b : Config} (h : a.MeansSame b) {theme theme' : Theme}
    (htheme : Theme.resolve Theme.defaults a.theme = .ok theme)
    (htheme' : Theme.resolve Theme.defaults b.theme = .ok theme') : theme = theme' := by
  refine Theme.eq_of_find? htheme htheme' fun category token => ?_
  rw [Theme.find?_eq_layeredValue? htheme, Theme.find?_eq_layeredValue? htheme', h.value_eq]

namespace Ruleset

variable {config config' : Config} {r r' : Ruleset}

/-- **Theme and context are the same exactly if the configurations mean the same.** -/
theorem theme_context_eq_iff (h : ofConfig config = .ok r) (h' : ofConfig config' = .ok r') :
    r.theme = r'.theme ∧ r.context = r'.context ↔ config.MeansSame config' := by
  obtain ⟨-, htheme, -, hcontext⟩ := ofConfig_eq_ok.mp h
  obtain ⟨-, htheme', -, hcontext'⟩ := ofConfig_eq_ok.mp h'
  rw [VariantContext.eq_iff_of_of? hcontext hcontext']
  constructor
  · rintro ⟨hsame, hmode, hdark, -, henables⟩
    refine ⟨hmode, hdark, fun category token => ?_, henables⟩
    rw [← Theme.find?_eq_layeredValue? htheme, hsame, Theme.find?_eq_layeredValue? htheme']
  · intro hmeans
    have hsame := hmeans.theme_eq htheme htheme'
    exact ⟨hsame, hmeans.mode_eq, hmeans.darkMode_eq, congrArg Theme.screens? hsame,
      hmeans.enables_iff⟩

/-- A valid configuration has a ruleset if it means the same as one that has. -/
theorem exists_ofConfig_of_meansSame (hvalid : config.validate = .ok ())
    (hsame : config.MeansSame config') (h' : ofConfig config' = .ok r') :
    ∃ r, ofConfig config = .ok r := by
  obtain ⟨-, htheme', -, hcontext'⟩ := ofConfig_eq_ok.mp h'
  obtain ⟨theme, htheme⟩ :=
    Theme.exists_resolve (Config.checkTokens_of_validate hvalid) Theme.defaults
  obtain rfl := hsame.theme_eq htheme htheme'
  obtain ⟨screens, hscreens, -⟩ := Option.map_eq_some_iff.mp hcontext'
  exact ⟨⟨config, _, _⟩, ofConfig_eq_ok.mpr ⟨hvalid, htheme, rfl,
    Option.map_eq_some_iff.mpr ⟨screens, hscreens, rfl⟩⟩⟩

end Ruleset

namespace Engine

variable {options : EngineOptions} {e : Engine} {config : Config}

/-! ### What is refused -/

theorem reconfigure_eq_error {error : SetupError} :
    e.reconfigure config = .error error ↔ Ruleset.ofConfig config = .error error := by
  rw [reconfigure, bind_pure_eq_error]

/-- An engine before and after a request for another configuration. -/
structure Reconfigured (config : Config) (result : Except SetupError Bool)
    (before after : Engine) : Prop where
  /-- A failure changes nothing, what was remembered and counted included. -/
  failed : ∀ error, result = .error error →
    Ruleset.ofConfig config = .error error ∧ after = before
  /-- A refusal is that of the checks. -/
  refused : ∀ error, result = .error (.refused error) ↔ config.validate = .error error
  /-- Otherwise configuration, theme and context are the new ones. -/
  accepted : ∀ dropped, result = .ok dropped → Ruleset.ofConfig config = .ok after.ruleset
  /-- What is kept is kept as a whole, and no literal resolves to anything else. -/
  kept : result = .ok false → after.memo = before.memo ∧
    ∀ literal, (after.resolve literal).1 = (before.resolve literal).1
  /-- What is dropped is dropped as a whole, except for the counts. -/
  dropped : result = .ok true → (∀ literal, after.memo.peek? literal = none) ∧
    after.memo.stats = { before.memo.stats with entries := 0 }
  /-- It is kept exactly if theme and context are the same. -/
  kept_iff : result = .ok false ↔ ∃ r, Ruleset.ofConfig config = .ok r ∧
    r.theme = before.ruleset.theme ∧ r.context = before.ruleset.context

theorem reconfigured_of_error {error : SetupError} (hnew : Ruleset.ofConfig config = .error error) :
    Reconfigured config (.error error) e e := by
  constructor
  case failed =>
    intro _ hsame
    obtain rfl := Except.error.inj hsame
    exact ⟨hnew, rfl⟩
  case refused => simp [← Ruleset.ofConfig_eq_refused, hnew]
  case kept_iff => simp [hnew]
  all_goals
    intros
    contradiction

theorem reconfigured_of_ok (h : e.Sound options) {r : Ruleset}
    (hr : Ruleset.ofConfig config = .ok r) {after : Engine} (hafter : after.Sound options)
    (hruleset : after.ruleset = r)
    (hmemo : after.memo = if r.differs e.ruleset then e.memo.clear else e.memo) :
    Reconfigured config (.ok (r.differs e.ruleset)) e after := by
  subst hruleset
  constructor
  case failed =>
    intros
    contradiction
  case refused => simp [← Ruleset.ofConfig_eq_refused, hr]
  case accepted =>
    intro _ _
    exact hr
  case kept =>
    intro hsame
    have hsame : after.ruleset.differs e.ruleset = false := Except.ok.inj hsame
    rw [hsame, if_neg Bool.false_ne_true] at hmemo
    refine ⟨hmemo, fun literal => ?_⟩
    rw [(resolve_spec hafter literal).1, (resolve_spec h literal).1]
    exact Ruleset.rule?_eq_of_not_differs hsame literal
  case dropped =>
    intro hother
    rw [Except.ok.inj hother, if_pos rfl] at hmemo
    rw [hmemo]
    exact ⟨Memo.peek?_clear e.memo, Memo.stats_clear e.memo⟩
  case kept_iff =>
    rw [Except.ok.injEq, Ruleset.not_differs_iff]
    simp [hr]

/-- **A change of the configuration is made as a whole or not at all.** -/
theorem reconfigured_answer {s : Session} (h : s.engine.Sound options) (config : Config) :
    ∃ result after, s.answer (.reconfigure config) =
        (.reconfigured result, { s with engine := after }) ∧
      Reconfigured config result s.engine after := by
  cases hnew : Ruleset.ofConfig config with
  | error error =>
      have hfailed : s.engine.reconfigure config = .error error := reconfigure_eq_error.mpr hnew
      exact ⟨.error error, s.engine, by rw [Session.answer, hfailed], reconfigured_of_error hnew⟩
  | ok r =>
      have hsound := sound_answer h (.reconfigure config)
      rw [Session.answer, reconfigure_eq_ok hnew] at hsound ⊢
      exact ⟨_, _, rfl, reconfigured_of_ok h hnew hsound rfl rfl⟩

/--
**A change of the configuration is atomic, and drops what is remembered exactly when it has to.**
A failure leaves an engine in use as it was.  Otherwise it goes over to the new configuration, and
keeps its memory, with no literal resolving to anything else, exactly if the two configurations
mean the same; if not, it forgets all results and goes on counting.  Other content means the same,
and so do the same values in another spelling.
-/
theorem reconfigure_atomic {s : Session} (h : Reached options s.engine) (config : Config) :
    ∃ result after, s.answer (.reconfigure config) =
        (.reconfigured result, { s with engine := after }) ∧
      Reconfigured config result s.engine after ∧
      (result = .ok false ↔ config.IsValid ∧ config.MeansSame s.engine.ruleset.config) ∧
      (config.IsValid → config = { s.engine.ruleset.config with content := config.content } →
        result = .ok false) ∧
      (config.IsValid → config = { s.engine.ruleset.config with theme := config.theme } →
        (∀ category token, Theme.layeredValue? Theme.defaults config.theme category token =
          Theme.layeredValue? Theme.defaults s.engine.ruleset.config.theme category token) →
        result = .ok false) := by
  obtain ⟨result, after, hanswer, hchange⟩ := reconfigured_answer h.sound config
  have hmeans : result = .ok false ↔ config.IsValid ∧ config.MeansSame s.engine.ruleset.config := by
    rw [hchange.kept_iff, ← Config.validate_eq_ok]
    constructor
    · rintro ⟨r, hr, hsame⟩
      exact ⟨(Ruleset.ofConfig_eq_ok.mp hr).1,
        (Ruleset.theme_context_eq_iff hr h.sound.accepted).mp hsame⟩
    · rintro ⟨hvalid, hsame⟩
      obtain ⟨r, hr⟩ := Ruleset.exists_ofConfig_of_meansSame hvalid hsame h.sound.accepted
      exact ⟨r, hr, (Ruleset.theme_context_eq_iff hr h.sound.accepted).mpr hsame⟩
  refine ⟨result, after, hanswer, hchange, hmeans, ?_, ?_⟩
  · intro hvalid hcontent
    refine hmeans.mpr ⟨hvalid, .of_tokens (hcontent.trans ?_) fun category token => ?_⟩
    · rw [hcontent]
    · rw [hcontent]
  · intro hvalid htokens hvalues
    refine hmeans.mpr ⟨hvalid, .of_tokens (htokens.trans ?_) hvalues⟩
    rw [htokens]

/-- An engine that has resolved a class keeps its rule under other content and a default value in
another spelling, and forgets it when the token has another value. -/
theorem reconfigure_atomic_respelled :
    let s : Session := ⟨((plain ["a"]).resolve "z-10").2, .empty⟩
    let config (value : String) : Config := {
      content := ["b"]
      theme := { extend := .ofList [(.scale, .ofList [("50", value)])] } }
    s.engine.Reached {} ∧
      (∃ after, s.answer (.reconfigure (config " .5 ")) =
          (.reconfigured (.ok false), { s with engine := after }) ∧
        after.memo = s.engine.memo ∧ after.ruleset.config = config " .5 ") ∧
      ∃ after, s.answer (.reconfigure (config " .6 ")) =
          (.reconfigured (.ok true), { s with engine := after }) ∧
        after.memo.stats = ⟨0, 1, 0⟩ := by
  intro s config
  have h : s.engine.Reached {} :=
    .used (s := ⟨plain ["a"], .empty⟩) (.start (ofConfig_plain (by decide))) (.resolve "z-10")
  have hsame : ((Ruleset.ofConfig (config " .5 ")).toOption.map fun r => (r.theme, r.context)) =
      some (s.engine.ruleset.theme, s.engine.ruleset.context) := by
    decide +kernel
  have hother : ((Ruleset.ofConfig (config " .6 ")).toOption.map fun r =>
      decide (r.theme = s.engine.ruleset.theme)) = some false := by
    decide +kernel
  obtain ⟨r, hr, hsame⟩ := Option.map_eq_some_iff.mp hsame
  obtain ⟨r', hr', hother⟩ := Option.map_eq_some_iff.mp hother
  have hr := toOption_eq_some_iff.mp hr
  have hr' := toOption_eq_some_iff.mp hr'
  obtain ⟨result, after, hanswer, hchange, -⟩ := reconfigure_atomic h (config " .5 ")
  obtain ⟨result', after', hanswer', hchange', -⟩ := reconfigure_atomic h (config " .6 ")
  obtain rfl : result = .ok false :=
    hchange.kept_iff.mpr ⟨r, hr, Prod.mk.inj hsame⟩
  obtain rfl : result' = .ok true := by
    cases result' with
    | error error =>
        obtain ⟨hfailed, -⟩ := hchange'.failed error rfl
        cases hr'.symm.trans hfailed
    | ok dropped =>
        refine congrArg Except.ok (eq_true_of_ne_false fun hkept => ?_)
        obtain ⟨r, hr, htheme, -⟩ := hchange'.kept_iff.mp (congrArg Except.ok hkept)
        obtain rfl := Except.ok.inj (hr'.symm.trans hr)
        exact of_decide_eq_false hother htheme
  refine ⟨h, ⟨after, hanswer, (hchange.kept rfl).1, ?_⟩, after', hanswer', ?_⟩
  · exact Ruleset.config_of_ofConfig (hchange.accepted false rfl)
  · rw [(hchange'.dropped rfl).2]
    simp [s, resolve, plain, Memo.lookup, Memo.peek?, Memo.learn, Memo.stats]

end Engine

end AtomicCss
