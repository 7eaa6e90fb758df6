/-
Extending a theme takes nothing away.

A class asks a theme for one token of its own category, and a transition also for the default
duration.  Which utility a class is of and whether it has a value in brackets is decided before
the theme is asked.  So a theme that has more tokens, and the same values for those that it had
before, gives every class the answer it had; and a class that has an answer only now must have
asked for one of the new tokens.

The default duration is a token of every resolved theme, so no added token can stand in its
place, and the screens are no utility category, so the meaning of modifiers does not change
either.
-/
import AtomicCss.Proofs.Engine.Ruleset
import AtomicCss.Proofs.Rule
import AtomicCss.Proofs.Theme.Layers

namespace AtomicCss

/-! ### Themes with more tokens -/

/-- A theme has all tokens of another, with their values. -/
def Theme.Keeps (old new : Theme) : Prop :=
  ∀ category token value, old.find? category token = some value →
    new.find? category token = some value

section Keeps

variable {old new : Theme} (hkeeps : old.Keeps new)

include hkeeps in
theorem Utility.tokenValue?_of_keeps {category : Category} {tail : Tail} {token : TokenRef}
    {value : String} (h : tokenValue? old category tail = some (token, value)) :
    tokenValue? new category tail = some (token, value) := by
  refine tokenValue?_eq_some_iff.mpr ?_
  rcases tokenValue?_eq_some_iff.mp h with ⟨name, hname, hfind, htoken⟩ | hbrackets
  · exact .inl ⟨name, hname, hkeeps category name value hfind, htoken⟩
  · exact .inr hbrackets

include hkeeps in
/-- What a tail names only in the larger theme is a token that the smaller one does not have. -/
theorem Utility.exists_added_of_tokenValue? {category : Category} {tail : Tail} {token : TokenRef}
    {value : String} (h : tokenValue? new category tail = some (token, value)) :
    tokenValue? old category tail = some (token, value) ∨
      ∃ name, token = .theme name ∧ old.find? category name = none ∧
        new.find? category name = some value := by
  rcases tokenValue?_eq_some_iff.mp h with ⟨name, hname, hnew, htoken⟩ | hbrackets
  · cases hold : old.find? category name with
    | none => exact .inr ⟨name, htoken, hold, hnew⟩
    | some kept =>
        left
        have hsame : some kept = some value := (hkeeps category name kept hold).symm.trans hnew
        exact tokenValue?_eq_some_iff.mpr (.inl ⟨name, hname, hold.trans hsame, htoken⟩)
  · exact .inl (tokenValue?_eq_some_iff.mpr (.inr hbrackets))

include hkeeps in
theorem Utility.declarations_of_keeps
    (hduration : (old.find? .transitionDuration defaultToken).isSome = true) (value : String)
    (utility : Utility) : utility.declarations new value = utility.declarations old value := by
  have hsame : transitionDuration new = transitionDuration old := by
    obtain ⟨duration, hold⟩ := Option.isSome_iff_exists.mp hduration
    unfold transitionDuration
    rw [hold, hkeeps _ _ _ hold]
  cases utility with
  | transition => rw [declarations, declarations, hsame]
  | _ => rfl

variable (hduration : (old.find? .transitionDuration Utility.defaultToken).isSome = true)

include hkeeps hduration in
/-- **A class without modifiers keeps its rule.** -/
theorem BaseRule.ofClass?_of_keeps {cs : List Char} {rule : BaseRule}
    (h : ofClass? old cs = some rule) : ofClass? new cs = some rule := by
  obtain ⟨himportant, hnegative, utility, tail, value, written, hfind, hcategory, hallowed, hvalue,
    hwritten, hdeclarations⟩ := ofClass?_eq_some_iff.mp h
  refine ofClass?_eq_some_iff.mpr ⟨himportant, hnegative, utility, tail, value, written, hfind,
    hcategory, hallowed, Utility.tokenValue?_of_keeps hkeeps hvalue, hwritten, ?_⟩
  rw [Utility.declarations_of_keeps hkeeps hduration]
  exact hdeclarations

include hkeeps hduration in
/-- **A class without modifiers that has a rule only now uses a new token.** -/
theorem BaseRule.exists_added_of_ofClass? {cs : List Char} {rule : BaseRule}
    (h : ofClass? new cs = some rule) :
    ofClass? old cs = some rule ∨
      ∃ name value, rule.token = .theme name ∧ old.find? rule.category name = none ∧
        new.find? rule.category name = some value := by
  obtain ⟨himportant, hnegative, utility, tail, value, written, hfind, hcategory, hallowed, hvalue,
    hwritten, hdeclarations⟩ := ofClass?_eq_some_iff.mp h
  rcases Utility.exists_added_of_tokenValue? hkeeps hvalue with hvalue | ⟨name, htoken, hold, hnew⟩
  · left
    refine ofClass?_eq_some_iff.mpr ⟨himportant, hnegative, utility, tail, value, written, hfind,
      hcategory, hallowed, hvalue, hwritten, ?_⟩
    rw [← Utility.declarations_of_keeps hkeeps hduration]
    exact hdeclarations
  · right
    rw [hcategory]
    exact ⟨name, value, htoken, hold, hnew⟩

include hkeeps hduration in
theorem ClassRule.ofLiteral?_of_keeps {ctx : VariantContext} {literal : String} {r : ClassRule}
    (h : ofLiteral? old ctx literal = some r) : ofLiteral? new ctx literal = some r := by
  obtain ⟨hnamed, rule, contributions, hrule, hcontributions, hr⟩ := ofLiteral?_eq_some_iff.mp h
  have hrule := BaseRule.ofClass?_of_keeps hkeeps hduration hrule
  exact ofLiteral?_eq_some_iff.mpr ⟨hnamed, rule, contributions, hrule, hcontributions, hr⟩

include hkeeps hduration in
/-- A class that has a rule only now uses a new token, under whatever modifiers. -/
theorem ClassRule.exists_added_of_ofLiteral? {ctx : VariantContext} {literal : String}
    {r : ClassRule} (h : ofLiteral? new ctx literal = some r) :
    ofLiteral? old ctx literal = some r ∨
      ∃ name value, r.token = .theme name ∧ old.find? r.category name = none ∧
        new.find? r.category name = some value := by
  obtain ⟨hnamed, rule, contributions, hrule, hcontributions, rfl⟩ := ofLiteral?_eq_some_iff.mp h
  rcases BaseRule.exists_added_of_ofClass? hkeeps hduration hrule with hrule | hadded
  · exact .inl (ofLiteral?_eq_some_iff.mpr
      ⟨hnamed, rule, contributions, hrule, hcontributions, rfl⟩)
  · exact .inr hadded

end Keeps

/-! ### Configurations with more tokens -/

namespace Config

/-- One layer sets what another sets, and besides only tokens of utility categories that are not
in the theme. -/
def AddsTo (theme : Theme) (layer larger : SortedMap Category Tokens) : Prop :=
  ∀ category token, Theme.value? larger category token = Theme.value? layer category token ∨
    (category.isUtility = true ∧ theme.find? category token = none)

/-- A configuration that adds tokens to another one with the given theme, and is the same
otherwise. -/
structure Extends (larger : Config) (theme : Theme) (config : Config) : Prop where
  otherwise : larger = { config with theme := larger.theme }
  base : AddsTo theme config.theme.base larger.theme.base
  extend : AddsTo theme config.theme.extend larger.theme.extend

/-- A token that a configuration sets in a utility category, and that is not in the theme. -/
structure IsAdded (larger : Config) (theme : Theme) (category : Category) (token : String) :
    Prop where
  isUtility : category.isUtility = true
  absent : theme.find? category token = none
  named : ∃ layer ∈ larger.theme.toList, (Theme.value? layer category token).isSome = true

variable {config larger : Config} {theme theme' : Theme}

/-- The themes of both configurations agree on a token, or it is not in the first one and belongs
to a utility. -/
theorem Extends.find?_eq_or (h : larger.Extends theme config)
    (htheme : Theme.resolve Theme.defaults config.theme = .ok theme)
    (htheme' : Theme.resolve Theme.defaults larger.theme = .ok theme') (category : Category)
    (token : String) :
    theme'.find? category token = theme.find? category token ∨
      (category.isUtility = true ∧ theme.find? category token = none) := by
  rcases h.base category token with hbase | hadded
  · rcases h.extend category token with hextend | hadded
    · left
      rw [Theme.find?_resolve htheme', Theme.find?_resolve htheme, hbase, hextend]
    · exact .inr hadded
  · exact .inr hadded

theorem Extends.keeps (h : larger.Extends theme config)
    (htheme : Theme.resolve Theme.defaults config.theme = .ok theme)
    (htheme' : Theme.resolve Theme.defaults larger.theme = .ok theme') : theme.Keeps theme' := by
  intro category token value hvalue
  rcases h.find?_eq_or htheme htheme' category token with heq | ⟨-, hnone⟩
  · rw [heq]
    exact hvalue
  · rw [hnone] at hvalue
    cases hvalue

/-- Modifiers mean the same under both configurations. -/
theorem Extends.context_eq (h : larger.Extends theme config)
    (htheme : Theme.resolve Theme.defaults config.theme = .ok theme)
    (htheme' : Theme.resolve Theme.defaults larger.theme = .ok theme') :
    VariantContext.of? larger theme' = VariantContext.of? config theme := by
  have hscreens : theme'.breakpoints = theme.breakpoints := by
    apply Theme.breakpoints_congr
    intro name
    rcases h.find?_eq_or htheme htheme' .screens name with heq | ⟨hutility, -⟩
    · exact heq
    · cases hutility
  rw [VariantContext.of?, VariantContext.of?, Theme.screens?, Theme.screens?, hscreens,
    h.otherwise]

/-- A token that is in the theme of the larger configuration alone was added by it. -/
theorem isAdded_of_find? (htheme : Theme.resolve Theme.defaults config.theme = .ok theme)
    (htheme' : Theme.resolve Theme.defaults larger.theme = .ok theme') {category : Category}
    {token value : String} (hutility : category.isUtility = true)
    (hold : theme.find? category token = none) (hnew : theme'.find? category token = some value) :
    larger.IsAdded theme category token := by
  refine ⟨hutility, hold, ?_⟩
  have hdefault : Theme.value? Theme.defaults category token = none := by
    rw [Theme.find?_resolve htheme, Option.or_eq_none_iff, Option.or_eq_none_iff] at hold
    exact hold.2.2
  rw [Theme.find?_resolve htheme', hdefault] at hnew
  cases hextend : Theme.value? larger.theme.extend category token with
  | some _ => exact ⟨larger.theme.extend, by simp [Layered.toList], by rw [hextend]; rfl⟩
  | none =>
      cases hbase : Theme.value? larger.theme.base category token with
      | some _ => exact ⟨larger.theme.base, by simp [Layered.toList], by rw [hbase]; rfl⟩
      | none =>
          rw [hextend, hbase] at hnew
          cases hnew

end Config

namespace Ruleset

/--
**Extending a theme is additive.**  A valid configuration that adds tokens to one that has a
meaning has a meaning as well, and gives every class the rule that it had; and a class that has a
rule only with the additions takes its value from one of them.
-/
theorem rule?_of_extends {config larger : Config} {r : Ruleset} (hr : ofConfig config = .ok r)
    (hvalid : larger.validate = .ok ()) (hextends : larger.Extends r.theme config) :
    ∃ r', ofConfig larger = .ok r' ∧ ∀ literal rule,
      (r.rule? literal = some rule → r'.rule? literal = some rule) ∧
      (r'.rule? literal = some rule → r.rule? literal = none →
        ∃ name, rule.token = .theme name ∧ larger.IsAdded r.theme rule.category name) := by
  obtain ⟨-, htheme, -, hcontext⟩ := ofConfig_eq_ok.mp hr
  obtain ⟨theme', htheme'⟩ :=
    Theme.exists_resolve (Config.checkTokens_of_validate hvalid) Theme.defaults
  have hkeeps := hextends.keeps htheme htheme'
  have hcontext' : VariantContext.of? larger theme' = some r.context :=
    (hextends.context_eq htheme htheme').trans hcontext
  refine ⟨⟨larger, theme', r.context⟩, ofConfig_eq_ok.mpr ⟨hvalid, htheme', rfl, hcontext'⟩, ?_⟩
  intro literal rule
  have hduration : (r.theme.find? .transitionDuration Utility.defaultToken).isSome = true :=
    Theme.isSome_find?_of_resolve htheme (by decide +kernel)
  constructor
  · exact ClassRule.ofLiteral?_of_keeps hkeeps hduration
  · intro hrule hnone
    rcases ClassRule.exists_added_of_ofLiteral? hkeeps hduration hrule with
      hrule' | ⟨name, value, htoken, hold, hnew⟩
    · cases hnone.symm.trans hrule'
    · have hutility := ClassRule.isUtility_of_ofLiteral? hrule
      exact ⟨name, htoken, Config.isAdded_of_find? htheme htheme' hutility hold hnew⟩

/-- An added token whose name could be read as another utility's does not change how a class is
read, and can be used where it is the token. -/
theorem rule?_of_extends_stem :
    let config : Config := {
      content := ["a"]
      theme := { base := .ofList [(.scale, .ofList [("50", ".55")])] } }
    let larger : Config := {
      config with
      theme := { config.theme with extend := .ofList [(.scale, .ofList [("x-50", "7")])] } }
    larger.validate = .ok () ∧
      ∃ r r', ofConfig config = .ok r ∧ ofConfig larger = .ok r' ∧
        larger.Extends r.theme config ∧
        (∃ rule, r.rule? "scale-x-50" = some rule ∧ r'.rule? "scale-x-50" = some rule) ∧
        ∃ rule name, r.rule? "scale-y-x-50" = none ∧ r'.rule? "scale-y-x-50" = some rule ∧
          rule.token = .theme name ∧ larger.IsAdded r.theme rule.category name := by
  intro config larger
  have hvalid : larger.validate = .ok () := by decide +kernel
  have hold : (ofConfig config).toOption.map (fun r => (r.theme.find? .scale "x-50",
      (r.rule? "scale-x-50").isSome, r.rule? "scale-y-x-50")) = some (none, true, none) := by
    decide +kernel
  have hnew : (ofConfig larger).toOption.map (fun r => (r.rule? "scale-y-x-50").isSome) =
      some true := by
    decide +kernel
  obtain ⟨r, hr, hold⟩ := Option.map_eq_some_iff.mp hold
  have hr := toOption_eq_some_iff.mp hr
  obtain ⟨habsent, hkept, hnone⟩ : r.theme.find? .scale "x-50" = none ∧
      (r.rule? "scale-x-50").isSome = true ∧ r.rule? "scale-y-x-50" = none := by
    simpa using hold
  have hextends : larger.Extends r.theme config := by
    refine ⟨rfl, fun category token => .inl rfl, fun category token => ?_⟩
    by_cases hcategory : category = .scale
    · by_cases htoken : token = "x-50"
      · subst hcategory htoken
        exact .inr ⟨rfl, habsent⟩
      · subst hcategory
        left
        show (SortedMap.insert ∅ "x-50" "7").find? token = none
        rw [SortedMap.find?_insert_of_ne _ _ htoken, SortedMap.find?_empty]
    · left
      show ((SortedMap.insert ∅ Category.scale _).find? category).bind _ = none
      rw [SortedMap.find?_insert_of_ne _ _ hcategory, SortedMap.find?_empty, Option.bind_none]
  obtain ⟨r', hr', hall⟩ := rule?_of_extends hr hvalid hextends
  rw [hr'] at hnew
  obtain ⟨rule, hrule⟩ := Option.isSome_iff_exists.mp hkept
  obtain ⟨added, hadded⟩ := Option.isSome_iff_exists.mp (Option.some.inj hnew)
  obtain ⟨name, htoken, hisAdded⟩ := (hall "scale-y-x-50" added).2 hadded hnone
  exact ⟨hvalid, r, r', hr, hr', hextends,
    ⟨rule, hrule, (hall "scale-x-50" rule).1 hrule⟩,
    added, name, hnone, hadded, htoken, hisAdded⟩

end Ruleset

end AtomicCss
