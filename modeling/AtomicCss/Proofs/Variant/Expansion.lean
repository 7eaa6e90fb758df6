/-
What a chain of modifiers makes of a class.

A chain is read from the left, and each modifier does its part in one of three places: around the
rule, in front of the selector or behind it.  A name that stands for nothing, or for a modifier
that the category does not have, ends the reading.  So a chain that is read to its end is a list
of modifiers, and what it makes of a class is put together from three lists, each with the
modifiers of one place in the order of the chain.

Nothing else of the chain is left.  How the modifiers of different places are mixed can therefore
be seen nowhere: neither in the rule nor in whether there is one, since every name is asked about
by itself.
-/
import AtomicCss.Proofs.Variant.Modifier

namespace AtomicCss

/-! ### Where modifiers do their part -/

namespace Modifier

/-- The place in which a modifier does its part. -/
inductive Kind
  | wrapper
  | ancestor
  | pseudoClass
  deriving DecidableEq

/-- Dark mode belongs to one of two places, by its strategy. -/
def kind (darkMode : DarkMode) : Modifier → Kind
  | .dark => if darkMode = .ancestor then .ancestor else .wrapper
  | .screen _ | .media _ _ => .wrapper
  | .ancestor _ _ => .ancestor
  | .pseudoClass _ _ => .pseudoClass

/-- The media query of a modifier around the rule. -/
def query? (darkMode : DarkMode) : Modifier → Option String
  | .dark => if darkMode = .media then some "(prefers-color-scheme: dark)" else none
  | .screen width => some s!"(min-width: {width})"
  | .media _ query => some query
  | .ancestor _ _ | .pseudoClass _ _ => none

/-- The selector of a modifier in front. -/
def ancestor? (darkMode : DarkMode) : Modifier → Option String
  | .dark => if darkMode = .ancestor then some ".dark" else none
  | .ancestor _ selector => some selector
  | .screen _ | .media _ _ | .pseudoClass _ _ => none

/-- The selector of a modifier behind. -/
def pseudoClass? : Modifier → Option String
  | .pseudoClass _ selector => some selector
  | .dark | .screen _ | .media _ _ | .ancestor _ _ => none

variable {darkMode : DarkMode} {m : Modifier}

theorem query?_eq_none (h : m.kind darkMode ≠ .wrapper) : m.query? darkMode = none := by
  cases m with
  | dark =>
      by_cases hmode : darkMode = .media
      · simp [kind, hmode] at h
      · simp [query?, hmode]
  | ancestor name selector | pseudoClass name selector => rfl
  | screen width => exact absurd rfl h
  | media name query => exact absurd rfl h

theorem ancestor?_eq_none (h : m.kind darkMode ≠ .ancestor) : m.ancestor? darkMode = none := by
  cases m with
  | dark =>
      by_cases hmode : darkMode = .ancestor
      · simp [kind, hmode] at h
      · simp [ancestor?, hmode]
  | screen width => rfl
  | media name text | pseudoClass name text => rfl
  | ancestor name selector => exact absurd rfl h

theorem pseudoClass?_eq_none (h : m.kind darkMode ≠ .pseudoClass) : m.pseudoClass? = none := by
  cases m with
  | dark => rfl
  | screen width => rfl
  | media name text | ancestor name text => rfl
  | pseudoClass name selector => exact absurd rfl h

end Modifier

namespace VariantContext

variable {ctx : VariantContext} {category : Category} {name : String} {m : Modifier}

/-! ### What names stand for -/

/-- What a name stands for under a context.  Dark mode has its name for itself, if there is a
strategy for it; a screen hides the fixed modifiers. -/
inductive Names (ctx : VariantContext) : String → Modifier → Prop
  | dark (h : ctx.darkMode ≠ .disabled) : Names ctx Modifier.darkName .dark
  | screen {name : String} {b : Breakpoint} (hdark : name ≠ Modifier.darkName)
      (h : ctx.screens.find? (·.name == name) = some b) : Names ctx name (.screen b.width)
  | media {name query : String} (hscreen : ∀ b ∈ ctx.screens, b.name ≠ name)
      (h : (name, query) ∈ Modifier.mediaFeatures) : Names ctx name (.media name query)
  | pseudoClass {name selector : String} (hscreen : ∀ b ∈ ctx.screens, b.name ≠ name)
      (h : (name, selector) ∈ Modifier.pseudoClasses) : Names ctx name (.pseudoClass name selector)
  | ancestor {name selector : String} (hscreen : ∀ b ∈ ctx.screens, b.name ≠ name)
      (h : (name, selector) ∈ Modifier.groupStates) : Names ctx name (.ancestor name selector)

theorem recognize?_of_builtin? (hscreen : ∀ b ∈ ctx.screens, b.name ≠ name)
    (h : name ≠ Modifier.darkName ∧ Modifier.builtin? name = some m) :
    ctx.recognize? name = some m := by
  have hnone : ctx.screens.find? (·.name == name) = none := by
    rw [List.find?_eq_none]
    intro b hb
    simpa using hscreen b hb
  rw [recognize?, if_neg h.1, hnone]
  exact h.2

/-- **A name is looked up as the relation says.** -/
theorem recognize?_eq_some_iff : ctx.recognize? name = some m ↔ ctx.Names name m := by
  constructor
  · intro h
    unfold recognize? at h
    split at h
    · rename_i hdark
      split at h
      · cases h
      · rename_i hmode
        cases h
        exact hdark ▸ .dark hmode
    · rename_i hdark
      split at h
      · rename_i screen hfound
        cases h
        exact .screen hdark hfound
      · rename_i hnone
        have hscreen : ∀ b ∈ ctx.screens, b.name ≠ name := by
          simpa using List.find?_eq_none.mp hnone
        rcases Modifier.builtin?_eq_some h with
          ⟨query, hmem, rfl⟩ | ⟨selector, hmem, rfl⟩ | ⟨selector, hmem, rfl⟩
        · exact .media hscreen hmem
        · exact .pseudoClass hscreen hmem
        · exact .ancestor hscreen hmem
  · -- No name stands in two tables, and none of them is that of dark mode.
    have hmedia : ∀ e ∈ Modifier.mediaFeatures,
        e.1 ≠ Modifier.darkName ∧ Modifier.builtin? e.1 = some (.media e.1 e.2) := by decide
    have hpseudo : ∀ e ∈ Modifier.pseudoClasses,
        e.1 ≠ Modifier.darkName ∧ Modifier.builtin? e.1 = some (.pseudoClass e.1 e.2) := by decide
    have hgroup : ∀ e ∈ Modifier.groupStates,
        e.1 ≠ Modifier.darkName ∧ Modifier.builtin? e.1 = some (.ancestor e.1 e.2) := by decide
    intro h
    cases h with
    | dark hmode => rw [recognize?, if_pos rfl, if_neg hmode]
    | screen hdark hfound => rw [recognize?, if_neg hdark, hfound]
    | media hscreen hmem => exact recognize?_of_builtin? hscreen (hmedia _ hmem)
    | pseudoClass hscreen hmem => exact recognize?_of_builtin? hscreen (hpseudo _ hmem)
    | ancestor hscreen hmem => exact recognize?_of_builtin? hscreen (hgroup _ hmem)

/-- What a modifier contributes stands in its place. -/
theorem exists_contribution (h : ctx.Names name m) :
    ∃ x, ctx.contribution? m = some x ∧ x.wrapper? = m.query? ctx.darkMode ∧
      x.ancestor? = m.ancestor? ctx.darkMode ∧ x.pseudoClass? = m.pseudoClass? := by
  cases h with
  | dark hmode =>
      cases hdark : ctx.darkMode with
      | disabled => exact absurd hdark hmode
      | media => exact ⟨_, by rw [contribution?, hdark], rfl, rfl, rfl⟩
      | ancestor => exact ⟨_, by rw [contribution?, hdark], rfl, rfl, rfl⟩
  | screen | media | pseudoClass | ancestor => exact ⟨_, rfl, rfl, rfl, rfl⟩

end VariantContext

/-! ### What modifiers make of a class -/

/-- Where the rule of a class applies under some modifiers. -/
def Expansion.ofModifiers (darkMode : DarkMode) (literal : String) (modifiers : List Modifier) :
    Expansion where
  selector :=
    String.join ((modifiers.filterMap (·.ancestor? darkMode)).map (· ++ " ")) ++
      ("." ++ String.ofList (Selector.escape literal.toList)) ++
      String.join (modifiers.filterMap Modifier.pseudoClass?)
  wrappers := modifiers.filterMap (·.query? darkMode)

/-- What modifiers of one place make is told by those of the place. -/
theorem Modifier.filterMap_eq_of_kind {darkMode : DarkMode} {kind : Kind}
    {part? : Modifier → Option String} (hpart : ∀ m, m.kind darkMode ≠ kind → part? m = none)
    {ms others : List Modifier}
    (h : ms.filter (·.kind darkMode = kind) = others.filter (·.kind darkMode = kind)) :
    ms.filterMap part? = others.filterMap part? := by
  have hown : ∀ ms : List Modifier,
      (ms.filter (·.kind darkMode = kind)).filterMap part? = ms.filterMap part? := by
    intro ms
    rw [List.filterMap_filter]
    refine List.filterMap_congr fun m _ => ?_
    by_cases hkind : m.kind darkMode = kind
    · simp [hkind]
    · simp [hkind, hpart m hkind]
  rw [← hown ms, ← hown others, h]

/-- How modifiers of different places are mixed makes no difference. -/
theorem Expansion.ofModifiers_congr {darkMode : DarkMode} (literal : String)
    {ms others : List Modifier}
    (h : ∀ kind, ms.filter (·.kind darkMode = kind) = others.filter (·.kind darkMode = kind)) :
    ofModifiers darkMode literal ms = ofModifiers darkMode literal others := by
  have hqueries := Modifier.filterMap_eq_of_kind (fun _ => Modifier.query?_eq_none) (h .wrapper)
  have hancestors :=
    Modifier.filterMap_eq_of_kind (fun _ => Modifier.ancestor?_eq_none) (h .ancestor)
  have hpseudo :=
    Modifier.filterMap_eq_of_kind (fun _ => Modifier.pseudoClass?_eq_none) (h .pseudoClass)
  simp only [ofModifiers, hqueries, hancestors, hpseudo]

namespace VariantContext

variable {ctx : VariantContext} {category : Category} {chain : List String}
  {modifiers : List Modifier}

/-- A chain contributes if it is one of modifiers that the category has. -/
theorem mapM_contributionOf?_iff {contributions : List Contribution} :
    chain.mapM (ctx.contributionOf? category) = some contributions ↔
      ∃ modifiers, List.Forall₂ ctx.Names chain modifiers ∧
        (∀ m ∈ modifiers, ctx.allows category m = true) ∧
        List.Forall₂ (fun m x => ctx.contribution? m = some x) modifiers contributions := by
  induction chain generalizing contributions with
  | nil =>
      constructor
      · intro h
        obtain rfl : [] = contributions := by simpa using h
        exact ⟨[], .nil, by simp, .nil⟩
      · rintro ⟨modifiers, hnames, -, hcontributions⟩
        cases hnames
        cases hcontributions
        rfl
  | cons name chain ih =>
      rw [mapM_cons_eq_some_iff]
      constructor
      · rintro ⟨x, xs, hx, hxs, rfl⟩
        obtain ⟨m, hname, hallowed, hm⟩ := contributionOf?_eq_some_iff.mp hx
        obtain ⟨modifiers, hnames, hall, hcontributions⟩ := ih.mp hxs
        exact ⟨m :: modifiers, .cons (recognize?_eq_some_iff.mp hname) hnames,
          List.forall_mem_cons.mpr ⟨hallowed, hall⟩, .cons hm hcontributions⟩
      · rintro ⟨modifiers, hnames, hall, hcontributions⟩
        cases hnames with
        | cons hname hnames =>
            cases hcontributions with
            | cons hm hcontributions =>
                obtain ⟨hallowed, hall⟩ := List.forall_mem_cons.mp hall
                refine ⟨_, _, contributionOf?_eq_some_iff.mpr
                  ⟨_, recognize?_eq_some_iff.mpr hname, hallowed, hm⟩, ?_, rfl⟩
                exact ih.mpr ⟨_, hnames, hall, hcontributions⟩

/-- Modifiers contribute, each in its place. -/
theorem exists_contributions (h : List.Forall₂ ctx.Names chain modifiers) (literal : String) :
    ∃ contributions,
      List.Forall₂ (fun m x => ctx.contribution? m = some x) modifiers contributions ∧
      assemble literal contributions = .ofModifiers ctx.darkMode literal modifiers := by
  suffices ∃ contributions,
      List.Forall₂ (fun m x => ctx.contribution? m = some x) modifiers contributions ∧
      contributions.filterMap Contribution.wrapper? =
        modifiers.filterMap (·.query? ctx.darkMode) ∧
      contributions.filterMap Contribution.ancestor? =
        modifiers.filterMap (·.ancestor? ctx.darkMode) ∧
      contributions.filterMap Contribution.pseudoClass? =
        modifiers.filterMap Modifier.pseudoClass? by
    obtain ⟨contributions, hcontributions, hqueries, hancestors, hpseudo⟩ := this
    have hclass : Selector.ofClass literal =
        "." ++ String.ofList (Selector.escape literal.toList) := by
      rw [← String.toList_inj]
      simp [Selector.ofClass]
    refine ⟨contributions, hcontributions, ?_⟩
    rw [assemble, hqueries, hancestors, hpseudo, hclass]
    rfl
  induction h with
  | nil => exact ⟨[], .nil, rfl, rfl, rfl⟩
  | cons hname _ ih =>
      obtain ⟨x, hx, hquery, hancestor, hpseudo⟩ := exists_contribution hname
      obtain ⟨contributions, hcontributions, hqueries, hancestors, hpseudos⟩ := ih
      refine ⟨x :: contributions, .cons hx hcontributions, ?_, ?_, ?_⟩
      · rw [List.filterMap_cons, List.filterMap_cons, hquery, hqueries]
      · rw [List.filterMap_cons, List.filterMap_cons, hancestor, hancestors]
      · rw [List.filterMap_cons, List.filterMap_cons, hpseudo, hpseudos]

/-- A chain of modifiers makes what they make, if the category has them all. -/
theorem expand?_eq_some_iff {literal : String} {e : Expansion} :
    ctx.expand? literal category chain = some e ↔
      ∃ modifiers, List.Forall₂ ctx.Names chain modifiers ∧
        (∀ m ∈ modifiers, ctx.allows category m = true) ∧
        e = .ofModifiers ctx.darkMode literal modifiers := by
  have hexpand : ctx.expand? literal category chain = some e ↔
      ∃ contributions, chain.mapM (ctx.contributionOf? category) = some contributions ∧
        e = assemble literal contributions := by
    rw [expand?, Option.bind_eq_bind, Option.bind_eq_some_iff]
    exact exists_congr fun contributions => and_congr Iff.rfl (by simp [eq_comm])
  rw [hexpand]
  constructor
  · rintro ⟨contributions, hchain, rfl⟩
    obtain ⟨modifiers, hnames, hall, hcontributions⟩ := mapM_contributionOf?_iff.mp hchain
    obtain ⟨others, hothers, hassemble⟩ := exists_contributions hnames literal
    -- What modifiers contribute is looked up, so there is only one list of it.
    rw [← mapM_eq_some_iff_forall₂] at hcontributions hothers
    obtain rfl : contributions = others := Option.some.inj (hcontributions.symm.trans hothers)
    exact ⟨modifiers, hnames, hall, hassemble⟩
  · rintro ⟨modifiers, hnames, hall, rfl⟩
    obtain ⟨contributions, hcontributions, hassemble⟩ := exists_contributions hnames literal
    exact ⟨contributions, mapM_contributionOf?_iff.mpr ⟨modifiers, hnames, hall, hcontributions⟩,
      hassemble.symm⟩

/-- The names of a chain that stand for something, as what they stand for. -/
def modifiersOf (ctx : VariantContext) (chain : List String) : List Modifier :=
  chain.filterMap ctx.recognize?

theorem modifiersOf_eq (h : List.Forall₂ ctx.Names chain modifiers) :
    ctx.modifiersOf chain = modifiers := by
  induction h with
  | nil => rfl
  | cons hname _ ih =>
      rw [modifiersOf, List.filterMap_cons, recognize?_eq_some_iff.mpr hname]
      exact congrArg _ ih

/-- A chain whose names all stand for something is one of modifiers. -/
theorem exists_names_iff {p : Modifier → Prop} :
    (∃ modifiers, List.Forall₂ ctx.Names chain modifiers ∧ ∀ m ∈ modifiers, p m) ↔
      ∀ name ∈ chain, ∃ m, ctx.Names name m ∧ p m := by
  induction chain with
  | nil => simp
  | cons name chain ih =>
      rw [List.forall_mem_cons, ← ih]
      constructor
      · rintro ⟨modifiers, hnames, hall⟩
        cases hnames with
        | cons hname hnames =>
            obtain ⟨hm, hall⟩ := List.forall_mem_cons.mp hall
            exact ⟨⟨_, hname, hm⟩, _, hnames, hall⟩
      · rintro ⟨⟨m, hname, hm⟩, modifiers, hnames, hall⟩
        exact ⟨m :: modifiers, .cons hname hnames, List.forall_mem_cons.mpr ⟨hm, hall⟩⟩

theorem expand?_of_names (h : List.Forall₂ ctx.Names chain modifiers) {literal : String}
    {e : Expansion} :
    ctx.expand? literal category chain = some e ↔
      (∀ m ∈ modifiers, ctx.allows category m = true) ∧
        e = .ofModifiers ctx.darkMode literal modifiers := by
  rw [expand?_eq_some_iff]
  constructor
  · rintro ⟨others, hothers, hall, he⟩
    obtain rfl : others = modifiers := (modifiersOf_eq hothers).symm.trans (modifiersOf_eq h)
    exact ⟨hall, he⟩
  · rintro ⟨hall, he⟩
    exact ⟨modifiers, h, hall, he⟩

theorem expand?_eq_none (h : ¬ ∃ modifiers, List.Forall₂ ctx.Names chain modifiers)
    (literal : String) (category : Category) : ctx.expand? literal category chain = none := by
  rw [Option.eq_none_iff_forall_ne_some]
  intro e he
  obtain ⟨modifiers, hnames, -⟩ := expand?_eq_some_iff.mp he
  exact h ⟨modifiers, hnames⟩

/-- Chains with the same modifiers in each place make the same of a class. -/
theorem expand?_congr {other : List String}
    (hknown : (∀ name ∈ chain, ∃ m, ctx.Names name m) ↔ ∀ name ∈ other, ∃ m, ctx.Names name m)
    (hkind : ∀ kind, (ctx.modifiersOf chain).filter (·.kind ctx.darkMode = kind) =
      (ctx.modifiersOf other).filter (·.kind ctx.darkMode = kind))
    (literal : String) (category : Category) :
    ctx.expand? literal category chain = ctx.expand? literal category other := by
  have hall (chain : List String) : (∀ name ∈ chain, ∃ m, ctx.Names name m) ↔
      ∃ modifiers, List.Forall₂ ctx.Names chain modifiers := by
    simpa using (exists_names_iff (p := fun _ => True)).symm
  rw [hall, hall] at hknown
  by_cases h : ∃ modifiers, List.Forall₂ ctx.Names chain modifiers
  · obtain ⟨modifiers, hnames⟩ := h
    obtain ⟨others, hothers⟩ := hknown.mp ⟨modifiers, hnames⟩
    rw [modifiersOf_eq hnames, modifiersOf_eq hothers] at hkind
    have hmem : ∀ m, m ∈ modifiers ↔ m ∈ others := by
      intro m
      have hm := congrArg (m ∈ ·) (hkind (m.kind ctx.darkMode))
      simpa using hm
    refine Option.ext fun e => ?_
    rw [expand?_of_names hnames, expand?_of_names hothers, Expansion.ofModifiers_congr literal hkind]
    simp only [hmem]
  · rw [expand?_eq_none h, expand?_eq_none (mt hknown.mpr h)]

/--
**What a chain makes of a class is put together place by place.**  There is a rule exactly if
every name of the chain stands for a modifier that the category has.  It then has the media
queries in the order of the chain, outermost first, and its selector has the ancestors in that
order, each followed by a space, the escaped class, and the pseudo-classes in that order.  So
chains that have the same modifiers in each place, mixed in whatever way, make the same.
-/
theorem expand?_placewise (ctx : VariantContext) (literal : String) (category : Category) :
    (∀ chain, (ctx.expand? literal category chain).isSome = true ↔
      ∀ name ∈ chain, ∃ m, ctx.Names name m ∧ ctx.allows category m = true) ∧
    (∀ chain e, ctx.expand? literal category chain = some e ↔
      ∃ modifiers, List.Forall₂ ctx.Names chain modifiers ∧
        (∀ m ∈ modifiers, ctx.allows category m = true) ∧
        e.wrappers = modifiers.filterMap (·.query? ctx.darkMode) ∧
        e.selector =
          String.join ((modifiers.filterMap (·.ancestor? ctx.darkMode)).map (· ++ " ")) ++
            ("." ++ String.ofList (Selector.escape literal.toList)) ++
            String.join (modifiers.filterMap Modifier.pseudoClass?)) ∧
    ∀ chain other,
      ((∀ name ∈ chain, ∃ m, ctx.Names name m) ↔ ∀ name ∈ other, ∃ m, ctx.Names name m) →
      (∀ kind, (ctx.modifiersOf chain).filter (·.kind ctx.darkMode = kind) =
        (ctx.modifiersOf other).filter (·.kind ctx.darkMode = kind)) →
      ctx.expand? literal category chain = ctx.expand? literal category other := by
  refine ⟨fun chain => ?_, fun chain e => ?_, fun _ _ hknown hkind =>
    expand?_congr hknown hkind literal category⟩
  · rw [← exists_names_iff, Option.isSome_iff_exists]
    simp only [expand?_eq_some_iff]
    constructor
    · rintro ⟨e, modifiers, hnames, hall, -⟩
      exact ⟨modifiers, hnames, hall⟩
    · rintro ⟨modifiers, hnames, hall⟩
      exact ⟨_, modifiers, hnames, hall, rfl⟩
  · rw [expand?_eq_some_iff]
    refine exists_congr fun modifiers => and_congr Iff.rfl (and_congr Iff.rfl ?_)
    obtain ⟨selector, wrappers⟩ := e
    rw [Expansion.ofModifiers, Expansion.mk.injEq, and_comm]

/-- Dark mode by an ancestor, a screen that hides `hover`, and two chains that mix three places. -/
theorem expand?_placewise_mixed :
    let ctx : VariantContext := ⟨.jit, .ancestor, [⟨"hover", "100px"⟩], .ofList []⟩
    let mixed := ["focus", "hover", "dark", "motion-safe", "odd", "group-hover"]
    let other := ["dark", "hover", "group-hover", "focus", "motion-safe", "odd"]
    (∀ name ∈ mixed, ∃ m, ctx.Names name m) ∧ (∀ name ∈ other, ∃ m, ctx.Names name m) ∧
    (∀ kind, (ctx.modifiersOf mixed).filter (·.kind ctx.darkMode = kind) =
      (ctx.modifiersOf other).filter (·.kind ctx.darkMode = kind)) ∧
    ctx.expand? "a" .flex mixed = ctx.expand? "a" .flex other ∧
    ctx.expand? "a" .flex mixed =
      some ⟨".dark .group:hover .a:focus:nth-child(odd)",
        ["(min-width: 100px)", "(prefers-reduced-motion: no-preference)"]⟩ ∧
    ctx.expand? "a" .flex ["focus", "wiggle"] = none := by
  intro ctx mixed other
  have hmixed : ∀ name ∈ mixed, ∃ m, ctx.Names name m := by
    simp only [← recognize?_eq_some_iff, ← Option.isSome_iff_exists]
    decide
  have hother : ∀ name ∈ other, ∃ m, ctx.Names name m := by
    simp only [← recognize?_eq_some_iff, ← Option.isSome_iff_exists]
    decide
  have hkind : ∀ kind, (ctx.modifiersOf mixed).filter (·.kind ctx.darkMode = kind) =
      (ctx.modifiersOf other).filter (·.kind ctx.darkMode = kind) := by
    rintro (_ | _ | _) <;> decide
  exact ⟨hmixed, hother, hkind,
    (expand?_placewise ctx "a" .flex).2.2 mixed other (iff_of_true hmixed hother) hkind,
    by decide +kernel, by decide +kernel⟩

end VariantContext

end AtomicCss
