/-
Enabled modifiers can be used.

The checks of a configuration know the names of the fixed modifiers and of dark mode, but not
the screens of its theme, whereas a context asks for a screen before it asks for a fixed
modifier.  So a name that passes the checks means what its family says, unless the theme has a
screen of that name.  It then means the screen, and whether it may be used is decided by the one
name that stands for all screens.  Dark mode is asked for before the screens, and is never
hidden.

The main statement is that an enabled name in front of a class gives the class's rule with what
the name means, and nothing else changed.
-/
import AtomicCss.Proofs.Engine.Ruleset
import AtomicCss.Proofs.Variant.Chain
import AtomicCss.Proofs.Variant.Enabled

namespace AtomicCss

/-! ### A rule under one modifier -/

/-- Where a class's rule applies under one modifier. -/
def Contribution.alone (literal : String) : Contribution → Expansion
  | .wrapper query => ⟨Selector.ofClass literal, [query]⟩
  | .ancestor selector => ⟨selector ++ " " ++ Selector.ofClass literal, []⟩
  | .pseudoClass selector => ⟨Selector.ofClass literal ++ selector, []⟩

theorem VariantContext.assemble_singleton (literal : String) (x : Contribution) :
    assemble literal [x] = x.alone literal := by
  cases x <;> simp [assemble, Contribution.alone, Contribution.ancestor?,
    Contribution.pseudoClass?, Contribution.wrapper?, String.join, List.filterMap_cons]

/-- The rule of a class once one modifier stands in front of it. -/
def ClassRule.under (r : ClassRule) (name : String) (x : Contribution) : ClassRule :=
  { r with
    literal := name ++ ":" ++ r.literal
    modifiers := [name]
    selector := (x.alone (name ++ ":" ++ r.literal)).selector
    wrappers := (x.alone (name ++ ":" ++ r.literal)).wrappers }

/-! ### What the checks let through -/

namespace Config

theorem canEnable_of_enabledByDefault (darkMode : DarkMode) {category : Category} {name : String}
    (h : name ∈ Modifier.enabledByDefault category) : canEnable darkMode name = true := by
  have hbuiltin : (Modifier.enabledByDefault category).all
      (fun name => Modifier.isKnown name && name != Modifier.darkName) = true := by
    cases category <;> decide
  have hname := List.all_eq_true.mp hbuiltin name h
  rw [Bool.and_eq_true, bne_iff_ne] at hname
  simp [canEnable, hname.1, hname.2]

/-- **Every enabled name of a valid configuration has passed the checks.** -/
theorem canEnable_of_enables {config : Config} (hvalid : config.validate = .ok ())
    {category : Category} {name : String} (h : config.Enables category name) :
    canEnable config.darkMode name = true := by
  have hchecked : ∀ layer ∈ config.variants.toList, ∀ names,
      layer.find? category = some names → name ∈ names.names →
        canEnable config.darkMode name = true := by
    intro layer hlayer names hnames hname
    exact canEnable_eq_true_iff.mpr
      ((validate_eq_ok.mp hvalid).names layer hlayer category names hnames name hname)
  rcases h with hbase | ⟨added, hadded, hname⟩
  · cases hfind : config.variants.base.find? category with
    | some names =>
        rw [hfind] at hbase
        exact hchecked _ (by simp [Layered.toList]) names hfind hbase
    | none =>
        rw [hfind] at hbase
        exact canEnable_of_enabledByDefault config.darkMode hbase
  · exact hchecked _ (by simp [Layered.toList]) added hadded hname

/-- A name that passes the checks and does not stand for all screens is that of dark mode, if
there is one, or of a fixed modifier. -/
theorem darkName_or_builtin_of_canEnable {darkMode : DarkMode} {name : String}
    (h : canEnable darkMode name = true) (hresponsive : name ≠ Modifier.responsiveName) :
    (name = Modifier.darkName ∧ darkMode ≠ .disabled) ∨
      ∃ modifier, Modifier.builtin? name = some modifier := by
  unfold canEnable Modifier.isKnown at h
  rw [Bool.and_eq_true, Bool.or_eq_true, Bool.or_eq_true] at h
  obtain ⟨(hname | hname) | hname, hdark⟩ := h
  · exact absurd (by simpa using hname) hresponsive
  · have hname : name = Modifier.darkName := by simpa using hname
    refine .inl ⟨hname, ?_⟩
    simpa [hname] using hdark
  · exact .inr (Option.isSome_iff_exists.mp hname)

/-- The names that pass the checks are plain, and none is empty. -/
theorem plain_of_canEnable {darkMode : DarkMode} {name : String}
    (h : canEnable darkMode name = true) (hresponsive : name ≠ Modifier.responsiveName) :
    name ≠ "" ∧ ∀ c ∈ name.toList, Chain.isCut c = false := by
  have hfixed : ∀ e ∈ Modifier.mediaFeatures ++ Modifier.pseudoClasses ++ Modifier.groupStates,
      e.1 ≠ "" ∧ e.1.toList.any Chain.isCut = false := by
    decide
  have hplain : name ≠ "" ∧ name.toList.any Chain.isCut = false := by
    rcases darkName_or_builtin_of_canEnable h hresponsive with ⟨rfl, -⟩ | ⟨modifier, hbuiltin⟩
    · decide
    · rcases Modifier.builtin?_eq_some hbuiltin with
        ⟨query, hmem, -⟩ | ⟨selector, hmem, -⟩ | ⟨selector, hmem, -⟩
      · exact hfixed (name, query) (by simp [hmem])
      · exact hfixed (name, selector) (by simp [hmem])
      · exact hfixed (name, selector) (by simp [hmem])
  refine ⟨hplain.1, fun c hc => ?_⟩
  have hcut := List.any_eq_false.mp hplain.2 c hc
  simpa using hcut

end Config

namespace VariantContext

variable {config : Config} {theme : Theme} {ctx : VariantContext} {category : Category}
  {name : String}

/-- **A name that passes the checks is recognized with its own meaning**, unless a screen hides
it. -/
theorem exists_means_of_canEnable (hctx : of? config theme = some ctx)
    (h : Config.canEnable config.darkMode name = true) (hresponsive : name ≠ Modifier.responsiveName)
    (hscreen : name = Modifier.darkName ∨ theme.find? .screens name = none) :
    ∃ modifier x, ctx.recognize? name = some modifier ∧ ctx.contribution? modifier = some x ∧
      Modifier.Means config.darkMode name x := by
  by_cases hdark : name = Modifier.darkName
  · subst hdark
    rcases Config.darkName_or_builtin_of_canEnable h hresponsive with
      ⟨-, hmode⟩ | ⟨modifier, hbuiltin⟩
    · have hsame := (of_of? hctx).2.2
      obtain ⟨x, hx, hmeans⟩ := exists_means_of_dark (hsame ▸ hmode)
      exact ⟨.dark, x, by rw [recognize?_darkName hctx, if_neg hmode], hx, hsame ▸ hmeans⟩
    · have hnone : Modifier.builtin? Modifier.darkName = none := by decide
      rw [hnone] at hbuiltin
      cases hbuiltin
  · have hscreen := hscreen.resolve_left hdark
    rcases Config.darkName_or_builtin_of_canEnable h hresponsive with
      ⟨hname, -⟩ | ⟨modifier, hbuiltin⟩
    · exact absurd hname hdark
    · obtain ⟨x, hx, hmeans⟩ := exists_means_of_builtin? hbuiltin config.darkMode
      exact ⟨modifier, x, (recognize?_of_no_screen hctx hdark hscreen).trans hbuiltin, hx, hmeans⟩

/-- Ahead of time an enabled name contributes what it means, unless a screen hides it. -/
theorem exists_contributionOf?_of_enables (hctx : of? config theme = some ctx)
    (hvalid : config.validate = .ok ()) (hmode : config.mode = .aot) (hutility : category.isUtility = true)
    (henabled : config.Enables category name) (hresponsive : name ≠ Modifier.responsiveName)
    (hscreen : name = Modifier.darkName ∨ theme.find? .screens name = none) :
    ∃ x, ctx.contributionOf? category name = some x ∧ Modifier.Means config.darkMode name x := by
  obtain ⟨modifier, x, hmodifier, hx, hmeans⟩ := exists_means_of_canEnable hctx
    (Config.canEnable_of_enables hvalid henabled) hresponsive hscreen
  refine ⟨x, contributionOf?_eq_some_iff.mpr ⟨modifier, hmodifier, ?_, hx⟩, hmeans⟩
  have hown : theme.enablingName name = name := by
    rw [Theme.enablingName, if_neg]
    rintro ⟨hdark, hsome⟩
    rw [hscreen.resolve_left hdark] at hsome
    cases hsome
  rw [allows_of_aot hctx hmode hutility, enabledAs_of_recognize? hctx hmodifier, hown]
  exact henabled

theorem contributionOf?_of_screen_iff (hctx : of? config theme = some ctx) {width : String}
    {x : Contribution} (hmode : config.mode = .aot) (hutility : category.isUtility = true)
    (hdark : name ≠ Modifier.darkName) (hscreen : theme.find? .screens name = some width) :
    ctx.contributionOf? category name = some x ↔
      config.Enables category Modifier.responsiveName ∧
        x = .wrapper s!"(min-width: {width})" := by
  have hmodifier : ctx.recognize? name = some (.screen width) :=
    recognize?_of_screen hctx hdark hscreen
  have hallowed : ctx.allows category (.screen width) = true ↔
      config.Enables category Modifier.responsiveName :=
    allows_of_aot hctx hmode hutility (.screen width)
  rw [contributionOf?_eq_some_iff]
  constructor
  · rintro ⟨modifier, hfound, hallow, hx⟩
    obtain rfl : .screen width = modifier := Option.some.inj (hmodifier.symm.trans hfound)
    exact ⟨hallowed.mp hallow, (Option.some.inj hx).symm⟩
  · rintro ⟨hscreens, rfl⟩
    exact ⟨.screen width, hmodifier, hallowed.mpr hscreens, rfl⟩

end VariantContext

/-! ### One modifier in front of a class -/

namespace ClassRule

variable {theme : Theme} {ctx : VariantContext}

/-- What one modifier makes of a class that has none. -/
theorem ofLiteral?_append_iff {name u : String} {r r' : ClassRule} (hname : name ≠ "")
    (hplain : ∀ c ∈ name.toList, Chain.isCut c = false)
    (hr : ofLiteral? theme ctx u = some r) (hbare : r.modifiers = []) :
    ofLiteral? theme ctx (name ++ ":" ++ u) = some r' ↔
      ∃ x, ctx.contributionOf? r.category name = some x ∧ r' = r.under name x := by
  obtain ⟨-, rule, contributions, hrule, -, rfl⟩ := ofLiteral?_eq_some_iff.mp hr
  have hu : (Chain.split u.toList).1 = [] := List.map_eq_nil_iff.mp hbare
  have hsplit : Chain.split (name ++ ":" ++ u).toList =
      ([name.toList], (Chain.split u.toList).2) := by
    have htext : (name ++ ":" ++ u).toList = name.toList ++ ':' :: u.toList := by
      simp [String.toList_append]
    rw [htext, Chain.split_append hplain, hu]
  have hunder : ∀ x, ofParts (name ++ ":" ++ u) rule [x] =
      (ofParts u rule contributions).under name x := by
    intro x
    simp only [ofParts, under, hsplit, VariantContext.assemble_singleton, List.map_cons,
      List.map_nil, String.ofList_toList]
  rw [ofLiteral?_eq_some_iff, hsplit]
  constructor
  · rintro ⟨-, rule', contributions', hrule', hcontributions, rfl⟩
    obtain rfl : rule = rule' := Option.some.inj (hrule.symm.trans hrule')
    obtain ⟨x, rest, hx, hrest, rfl⟩ := mapM_cons_eq_some_iff.mp hcontributions
    obtain rfl : [] = rest := by simpa using hrest
    rw [String.ofList_toList] at hx
    exact ⟨x, hx, hunder x⟩
  · rintro ⟨x, hx, rfl⟩
    refine ⟨?_, rule, [x], hrule, ?_, (hunder x).symm⟩
    · simpa using hname
    · have hx : ctx.contributionOf? rule.category name = some x := hx
      simp [hx]

/--
**An enabled name can be used.**  Under every valid configuration that works ahead of time, an
enabled name in front of a class without modifiers gives the rule of the class with what the name
means, unless a screen of the theme has the name.  Such a name means the screen, and may be used
if screens are enabled.
-/
theorem usable_of_validate {config : Config} (hvalid : config.validate = .ok ())
    (hmode : config.mode = .aot) :
    ∃ theme, Theme.resolve Theme.defaults config.theme = .ok theme ∧
      ∀ ctx, VariantContext.of? config theme = some ctx →
        ∀ name u r, ofLiteral? theme ctx u = some r → r.modifiers = [] →
          config.Enables r.category name → name ≠ Modifier.responsiveName →
            (name = Modifier.darkName ∨ theme.find? .screens name = none →
              ∃ x, Modifier.Means config.darkMode name x ∧
                ofLiteral? theme ctx (name ++ ":" ++ u) = some (r.under name x)) ∧
            ∀ width, name ≠ Modifier.darkName → theme.find? .screens name = some width →
              ∀ r', ofLiteral? theme ctx (name ++ ":" ++ u) = some r' ↔
                config.Enables r.category Modifier.responsiveName ∧
                  r' = r.under name (.wrapper s!"(min-width: {width})") := by
  obtain ⟨theme, htheme⟩ :=
    Theme.exists_resolve (Config.checkTokens_of_validate hvalid) Theme.defaults
  refine ⟨theme, htheme, ?_⟩
  intro ctx hctx name u r hr hbare henabled hresponsive
  obtain ⟨hname, hplain⟩ :=
    Config.plain_of_canEnable (Config.canEnable_of_enables hvalid henabled) hresponsive
  have hutility := isUtility_of_ofLiteral? hr
  constructor
  · intro hscreen
    obtain ⟨x, hx, hmeans⟩ := VariantContext.exists_contributionOf?_of_enables hctx hvalid hmode
      hutility henabled hresponsive hscreen
    exact ⟨x, hmeans, (ofLiteral?_append_iff hname hplain hr hbare).mpr ⟨x, hx, rfl⟩⟩
  · intro width hdark hscreen r'
    rw [ofLiteral?_append_iff hname hplain hr hbare]
    constructor
    · rintro ⟨x, hx, rfl⟩
      obtain ⟨hscreens, rfl⟩ :=
        (VariantContext.contributionOf?_of_screen_iff hctx hmode hutility hdark hscreen).mp hx
      exact ⟨hscreens, rfl⟩
    · rintro ⟨hscreens, rfl⟩
      exact ⟨_, (VariantContext.contributionOf?_of_screen_iff hctx hmode hutility hdark
        hscreen).mpr ⟨hscreens, rfl⟩, rfl⟩

/-- Dark mode keeps its meaning although a screen is called `dark`, and the enabled name of
another screen does not. -/
theorem usable_of_validate_dark :
    let config : Config := {
      mode := .aot
      content := ["a"]
      darkMode := .ancestor
      theme := { extend := .ofList [(.screens, .ofList [("dark", "9px"), ("hover", "100px")])] }
      variants := { extend := .ofList [(.scale, .ofNames ["dark"])] } }
    config.validate = .ok () ∧ config.mode = .aot ∧ "dark" ≠ Modifier.responsiveName ∧
      ∃ theme ctx r, Theme.resolve Theme.defaults config.theme = .ok theme ∧
        VariantContext.of? config theme = some ctx ∧
        ofLiteral? theme ctx "!-scale-50" = some r ∧ r.modifiers = [] ∧
        config.Enables r.category "dark" ∧ config.Enables r.category "hover" ∧
        (∃ x, Modifier.Means .ancestor "dark" x ∧
          ofLiteral? theme ctx "dark:!-scale-50" = some (r.under "dark" x)) ∧
        ofLiteral? theme ctx "hover:!-scale-50" =
          some (r.under "hover" (.wrapper "(min-width: 100px)")) := by
  intro config
  have hvalid : config.validate = .ok () := by decide +kernel
  obtain ⟨theme, htheme, hspec⟩ := usable_of_validate hvalid rfl
  have hrule : (Theme.resolve Theme.defaults config.theme).toOption.bind (fun theme =>
      (VariantContext.of? config theme).bind fun ctx =>
        (ofLiteral? theme ctx "!-scale-50").map fun r =>
          (r.category, r.modifiers, theme.find? .screens "hover")) =
            some (.scale, [], some "100px") := by
    decide +kernel
  rw [htheme] at hrule
  obtain ⟨ctx, hctx, hrule⟩ := Option.bind_eq_some_iff.mp
    (show (VariantContext.of? config theme).bind _ = _ from hrule)
  have hall := hspec ctx hctx
  obtain ⟨r, hr, hparts⟩ := Option.map_eq_some_iff.mp hrule
  obtain ⟨hcategory, hbare, hhover⟩ : r.category = .scale ∧ r.modifiers = [] ∧
      theme.find? .screens "hover" = some "100px" := by
    simpa using hparts
  have henables : ∀ name, (VariantContext.enabledIn config.variants .scale).contains name = true →
      config.Enables r.category name := by
    intro name h
    rw [hcategory]
    exact (VariantContext.contains_enabledIn config .scale name).mp h
  have hdarkEnabled := henables "dark" (by decide +kernel)
  have hhoverEnabled := henables "hover" (by decide +kernel)
  have hscreensEnabled := henables "responsive" (by decide +kernel)
  refine ⟨hvalid, rfl, by decide, theme, ctx, r, htheme, hctx, hr, hbare, hdarkEnabled,
    hhoverEnabled, ?_, ?_⟩
  · exact (hall "dark" "!-scale-50" r hr hbare hdarkEnabled (by decide)).1 (.inl rfl)
  · exact ((hall "hover" "!-scale-50" r hr hbare hhoverEnabled (by decide)).2 "100px" (by decide)
      hhover _).mpr ⟨hscreensEnabled, rfl⟩

/-- A valid configuration enables `hover` for flexible boxes and has a screen of that name.  The name
means the screen, screens are not enabled there, and so a class that has a rule has none with it. -/
theorem not_usable_hidden :
    let config : Config := {
      mode := .aot
      content := ["a"]
      theme := { extend := .ofList [(.screens, .ofList [("hover", "100px")])] }
      variants := { base := .ofList [(.flex, .ofNames ["hover"])] } }
    config.validate = .ok () ∧ config.mode = .aot ∧ config.Enables .flex "hover" ∧
      ∃ theme ctx r, Theme.resolve Theme.defaults config.theme = .ok theme ∧
        VariantContext.of? config theme = some ctx ∧
        ofLiteral? theme ctx "flex-1" = some r ∧ r.category = .flex ∧
        r.modifiers = [] ∧ ofLiteral? theme ctx "hover:flex-1" = none := by
  intro config
  have hvalid : config.validate = .ok () := by decide +kernel
  have henabled : config.Enables .flex "hover" :=
    (VariantContext.contains_enabledIn config .flex "hover").mp (by decide +kernel)
  obtain ⟨theme, htheme⟩ :=
    Theme.exists_resolve (Config.checkTokens_of_validate hvalid) Theme.defaults
  have hrules : (Theme.resolve Theme.defaults config.theme).toOption.bind (fun theme =>
      (VariantContext.of? config theme).bind fun ctx =>
        (ofLiteral? theme ctx "flex-1").map fun r =>
          (r.category, r.modifiers, ofLiteral? theme ctx "hover:flex-1")) =
            some (.flex, [], none) := by
    decide +kernel
  rw [htheme] at hrules
  obtain ⟨ctx, hctx, hrules⟩ := Option.bind_eq_some_iff.mp
    (show (VariantContext.of? config theme).bind _ = _ from hrules)
  obtain ⟨r, hr, hparts⟩ := Option.map_eq_some_iff.mp hrules
  obtain ⟨hcategory, hbare, hnone⟩ : r.category = .flex ∧ r.modifiers = [] ∧
      ofLiteral? theme ctx "hover:flex-1" = none := by
    simpa using hparts
  exact ⟨hvalid, rfl, henabled, theme, ctx, r, htheme, hctx, hr, hcategory, hbare, hnone⟩

end ClassRule

end AtomicCss
