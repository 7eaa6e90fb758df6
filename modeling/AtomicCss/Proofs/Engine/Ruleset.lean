/-
Which configurations have a meaning.

The checks of a configuration cover every token of both layers of its theme, so the theme of a
configuration that passes them always resolves.  They do not look at the screens together, which
have to be sorted then: that can be done for sure if they are few, or if the comparison is
transitive among them.  So `Ruleset.ofConfig` refuses what the checks refuse, with their error, and
gives a ruleset for what passes them and has an order.  Loading checks what it loads.
-/
import AtomicCss.Engine.Ruleset
import AtomicCss.Proofs.Config.Content
import AtomicCss.Proofs.Theme.Breakpoint

namespace AtomicCss

/-- A configuration that was loaded has passed its checks. -/
theorem Config.validate_of_load {project : Project} {path : String} {given : List String}
    {config : Config} (h : Config.load project path given = .ok config) :
    config.validate = .ok () := by
  rw [Config.load_eq] at h
  obtain ⟨named, -, h⟩ := bind_eq_ok.mp h
  obtain ⟨⟨⟩, hvalid, h⟩ := bind_eq_ok.mp h
  exact pure_eq_ok.mp h ▸ hvalid

theorem VariantContext.isSome_of? (config : Config) {theme : Theme}
    (h : theme.breakpoints.length ≤ Breakpoint.insertionLimit ∨
      Breakpoint.Consistent theme.breakpoints) :
    (of? config theme).isSome = true := by
  obtain ⟨screens, hscreens⟩ := Breakpoint.exists_sort? h
  rw [of?, Theme.screens?, hscreens]
  rfl

namespace Ruleset

/-! ### The meaning of a configuration -/

variable {config : Config} {r : Ruleset}

theorem themeOf_eq_ok {theme : Theme} :
    themeOf config = .ok theme ↔
      config.validate = .ok () ∧ Theme.resolve Theme.defaults config.theme = .ok theme := by
  rw [themeOf, bind_eq_ok]
  constructor
  · rintro ⟨⟨⟩, hvalid, htheme⟩
    exact ⟨hvalid, htheme⟩
  · rintro ⟨hvalid, htheme⟩
    exact ⟨(), hvalid, htheme⟩

theorem exists_themeOf (h : config.validate = .ok ()) : ∃ theme, themeOf config = .ok theme := by
  obtain ⟨theme, htheme⟩ :=
    Theme.exists_resolve (Config.checkTokens_of_validate h) Theme.defaults
  exact ⟨theme, themeOf_eq_ok.mpr ⟨h, htheme⟩⟩

theorem ofConfig_of_theme {theme : Theme} (h : themeOf config = .ok theme) :
    ofConfig config =
      match VariantContext.of? config theme with
      | some context => .ok { config, theme, context }
      | none => .error .unordered := by
  rw [ofConfig, h]
  rfl

theorem ofConfig_of_invalid {error : ConfigError} (h : config.validate = .error error) :
    ofConfig config = .error (.refused error) := by
  rw [ofConfig, themeOf, h]
  rfl

theorem ofConfig_eq_ok :
    ofConfig config = .ok r ↔
      config.validate = .ok () ∧ Theme.resolve Theme.defaults config.theme = .ok r.theme ∧
      r.config = config ∧ VariantContext.of? config r.theme = some r.context := by
  cases hvalid : config.validate with
  | error error => simp [ofConfig_of_invalid hvalid]
  | ok =>
      obtain ⟨theme, htheme⟩ := exists_themeOf hvalid
      rw [ofConfig_of_theme htheme, (themeOf_eq_ok.mp htheme).2]
      constructor
      · intro h
        split at h
        · rename_i context hcontext
          obtain rfl := Except.ok.inj h
          exact ⟨rfl, rfl, rfl, hcontext⟩
        · cases h
      · rintro ⟨-, hsame, rfl, hcontext⟩
        rw [Except.ok.inj hsame, hcontext]

/-- What is refused is what the checks refuse. -/
theorem ofConfig_eq_refused {error : ConfigError} :
    ofConfig config = .error (.refused error) ↔ config.validate = .error error := by
  cases hvalid : config.validate with
  | error fault => simp [ofConfig_of_invalid hvalid]
  | ok =>
      obtain ⟨theme, htheme⟩ := exists_themeOf hvalid
      rw [ofConfig_of_theme htheme]
      split <;> simp

/-- The ruleset of a configuration that sets nothing but its content. -/
def plain (content : List String) : Ruleset where
  config := { content }
  theme := ⟨Theme.defaults⟩
  context := (VariantContext.of? { content } ⟨Theme.defaults⟩).get
    (VariantContext.isSome_of? { content } (.inl (by decide +kernel)))

theorem ofConfig_plain {content : List String} (h : content.all Text.isBlankText = false) :
    ofConfig { content } = .ok (plain content) := by
  have hcontent : Config.checkContent content = .ok () := by
    rw [Config.checkContent, h]
    rfl
  have hvalid : Config.validate { content } = .ok () := by
    rw [Config.validate, hcontent]
    rfl
  refine ofConfig_eq_ok.mpr ⟨hvalid, rfl, rfl, ?_⟩
  rw [plain, Option.some_get]

theorem config_of_ofConfig {config : Config} {r : Ruleset} (h : ofConfig config = .ok r) :
    r.config = config :=
  (ofConfig_eq_ok.mp h).2.2.1

theorem not_differs_iff {a b : Ruleset} :
    a.differs b = false ↔ a.theme = b.theme ∧ a.context = b.context := by
  simp [differs]

theorem rule?_eq_of_not_differs {a b : Ruleset} (h : a.differs b = false) (literal : String) :
    a.rule? literal = b.rule? literal := by
  obtain ⟨htheme, hcontext⟩ := not_differs_iff.mp h
  unfold rule?
  rw [htheme, hcontext]

end Ruleset

end AtomicCss
