/-
Which modifiers a category lets through.

A context keeps, for each category of utilities, the set of names that are enabled in it.  The
set is built in layers: the configuration's own list, if there is one, stands in place of the
built-in list, and whatever the configuration adds is added to either.  `Config.Enables` says
what comes out of that without building a set.

The mode of a configuration decides only whether the set is asked at all.  It has no part in
what a name means nor in what a modifier contributes, so a class that passes the question has the
same rule in both modes, and one that does not has none.
-/
import AtomicCss.Proofs.Rule
import AtomicCss.Proofs.Variant.Modifier

namespace AtomicCss

/-- Whether a configuration enables a name in a category: it stands in the category's own list,
or in the built-in one if there is no such list, or it is added. -/
def Config.Enables (config : Config) (category : Category) (name : String) : Prop :=
  (match config.variants.base.find? category with
    | some names => name ∈ names.names
    | none => name ∈ Modifier.enabledByDefault category) ∨
  ∃ added, config.variants.extend.find? category = some added ∧ name ∈ added.names

namespace VariantContext

variable {config : Config} {theme : Theme} {ctx : VariantContext} {category : Category}

/-! ### The sets of a context -/

theorem contains_enabledIn (config : Config) (category : Category) (name : String) :
    (enabledIn config.variants category).contains name = true ↔ config.Enables category name := by
  have hbase :
      ((config.variants.base.find? category).getD
        (.ofNames (Modifier.enabledByDefault category))).contains name = true ↔
      match config.variants.base.find? category with
        | some names => name ∈ names.names
        | none => name ∈ Modifier.enabledByDefault category := by
    cases config.variants.base.find? category with
    | some names => exact SortedMap.mem_keys_iff.symm
    | none => exact NameSet.contains_ofNames _ name
  unfold enabledIn Config.Enables
  rw [← hbase]
  cases config.variants.extend.find? category with
  | none => simp
  | some added =>
      rw [NameSet.contains_union]
      refine or_congr Iff.rfl ?_
      simp [NameSet.names, SortedMap.mem_keys_iff]

theorem find?_enabled_of (hctx : of? config theme = some ctx) (h : category.isUtility = true) :
    ctx.enabled.find? category = some (enabledIn config.variants category) := by
  obtain ⟨screens, -, rfl⟩ := Option.map_eq_some_iff.mp hctx
  show (SortedMap.ofList _).find? category = _
  rw [SortedMap.find?_ofList_map, if_pos]
  exact List.mem_filter.mpr ⟨category.mem_all, h⟩

/-- **Contexts are equal if their configurations enable the same**, and mode, dark mode and screens
are the same. -/
theorem eq_iff_of_of? {config' : Config} {theme' : Theme} {ctx' : VariantContext}
    (h : of? config theme = some ctx) (h' : of? config' theme' = some ctx') :
    ctx = ctx' ↔
      config.mode = config'.mode ∧ config.darkMode = config'.darkMode ∧
      theme.screens? = theme'.screens? ∧
      ∀ category : Category, category.isUtility = true → ∀ name,
        config.Enables category name ↔ config'.Enables category name := by
  constructor
  · rintro rfl
    obtain ⟨hscreens, hmode, hdark⟩ := of_of? h
    obtain ⟨hscreens', hmode', hdark'⟩ := of_of? h'
    refine ⟨hmode.symm.trans hmode', hdark.symm.trans hdark', hscreens.trans hscreens'.symm, ?_⟩
    intro category hutility name
    have hset : enabledIn config.variants category = enabledIn config'.variants category :=
      Option.some.inj ((find?_enabled_of h hutility).symm.trans (find?_enabled_of h' hutility))
    rw [← contains_enabledIn, hset, contains_enabledIn]
  · rintro ⟨hmode, hdark, hscreens, henables⟩
    obtain ⟨screens, hsorted, rfl⟩ := Option.map_eq_some_iff.mp h
    obtain ⟨screens', hsorted', rfl⟩ := Option.map_eq_some_iff.mp h'
    rw [hsorted, hsorted', Option.some.injEq] at hscreens
    rw [hmode, hdark, hscreens]
    congr 2
    refine List.map_congr_left fun category hcategory => ?_
    have hutility := (List.mem_filter.mp hcategory).2
    congr 1
    apply NameSet.ext_contains
    intro name
    rw [contains_enabledIn, contains_enabledIn]
    exact henables category hutility name

theorem allows_of_aot (hctx : of? config theme = some ctx) (h : config.mode = .aot)
    (hutility : category.isUtility = true) (modifier : Modifier) :
    ctx.allows category modifier = true ↔ config.Enables category modifier.enabledAs := by
  rw [allows, (of_of? hctx).2.1, h, find?_enabled_of hctx hutility]
  exact contains_enabledIn config category modifier.enabledAs

/-! ### One modifier in both modes -/

/-- The two modes have contexts under the same themes, which differ in the mode alone. -/
theorem of?_jit_eq :
    of? { config with mode := .jit } theme =
      (of? { config with mode := .aot } theme).map fun ctx => { ctx with mode := .jit } := by
  unfold of?
  rw [Option.map_map]
  rfl

/-- What a modifier contributes ahead of time is what it contributes otherwise, if it is
enabled. -/
theorem contributionOf?_aot_iff (hctx : of? { config with mode := .aot } theme = some ctx)
    (hutility : category.isUtility = true) (name : String) (x : Contribution) :
    ctx.contributionOf? category name = some x ↔
      { ctx with mode := .jit }.contributionOf? category name = some x ∧
        config.Enables category (theme.enablingName name) := by
  rw [contributionOf?_eq_some_iff, contributionOf?_eq_some_iff]
  constructor
  · rintro ⟨modifier, hmodifier, hallowed, hx⟩
    rw [allows_of_aot hctx rfl hutility, enabledAs_of_recognize? hctx hmodifier] at hallowed
    exact ⟨⟨modifier, hmodifier, rfl, hx⟩, hallowed⟩
  · rintro ⟨⟨modifier, hmodifier, -, hx⟩, henabled⟩
    refine ⟨modifier, hmodifier, ?_, hx⟩
    rw [allows_of_aot hctx rfl hutility, enabledAs_of_recognize? hctx hmodifier]
    exact henabled

end VariantContext

/-! ### Whole classes in both modes -/

namespace ClassRule

/--
**Ahead of time a class has the rule it has just in time, or none.**  Two configurations that
differ in their mode alone agree on the rule of every class, whatever the theme, and the one that
works ahead of time keeps exactly the classes all of whose modifiers are enabled in the category
of the class.
-/
theorem ofLiteral?_aot_iff (config : Config) (theme : Theme) (literal : String) (r : ClassRule) :
    (do ofLiteral? theme (← VariantContext.of? { config with mode := .aot } theme) literal) =
        some r ↔
      (do ofLiteral? theme (← VariantContext.of? { config with mode := .jit } theme) literal) =
          some r ∧
        ∀ name ∈ r.modifiers, config.Enables r.category (theme.enablingName name) := by
  rw [VariantContext.of?_jit_eq]
  cases hctx : VariantContext.of? { config with mode := .aot } theme with
  | none => simp
  | some ctx =>
      show ofLiteral? theme ctx literal = some r ↔
        ofLiteral? theme { ctx with mode := .jit } literal = some r ∧ _
      rw [ofLiteral?_eq_some_iff, ofLiteral?_eq_some_iff]
      constructor
      · rintro ⟨hnamed, rule, contributions, hrule, hcontributions, rfl⟩
        have hutility := BaseRule.isUtility_of_ofClass? hrule
        obtain ⟨hcontributions, henabled⟩ := (mapM_eq_some_iff_and
          (VariantContext.contributionOf?_aot_iff hctx hutility)).mp hcontributions
        exact ⟨⟨hnamed, rule, contributions, hrule, hcontributions, rfl⟩, henabled⟩
      · rintro ⟨⟨hnamed, rule, contributions, hrule, hcontributions, rfl⟩, henabled⟩
        have hutility := BaseRule.isUtility_of_ofClass? hrule
        refine ⟨hnamed, rule, contributions, hrule, ?_, rfl⟩
        exact (mapM_eq_some_iff_and
          (VariantContext.contributionOf?_aot_iff hctx hutility)).mpr ⟨hcontributions, henabled⟩

end ClassRule

end AtomicCss
