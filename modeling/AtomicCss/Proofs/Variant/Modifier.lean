/-
What the name of a modifier stands for.

A context looks a name up in three places: it may be that of dark mode, that of a screen, or
that of a fixed modifier.  The first place that knows the name decides.  Under the context of a
configuration the screens are the theme's, so the order of the breakpoints does not matter and a
name can be asked of the theme itself.

The name under which a modifier is enabled is then known before it is looked up: it is one name
for all screens, and else the modifier's own.  What it adds to a rule is known as well, and
`Modifier.Means` says it without a context.  Screens aside, a modifier that is let through adds
nothing else.
-/
import AtomicCss.Proofs.Theme.Breakpoint
import AtomicCss.Variant.Expansion
import Mathlib.Data.List.Forall2

namespace AtomicCss

/-! ### Lists of look-ups -/

theorem mapM_cons_eq_some_iff {α β : Type} {f : α → Option β} {x : α} {xs : List α}
    {ys : List β} :
    (x :: xs).mapM f = some ys ↔ ∃ z zs, f x = some z ∧ xs.mapM f = some zs ∧ ys = z :: zs := by
  rw [List.mapM_cons]
  constructor
  · intro h
    obtain ⟨z, hz, h⟩ := Option.bind_eq_some_iff.mp h
    obtain ⟨zs, hzs, h⟩ := Option.bind_eq_some_iff.mp h
    exact ⟨z, zs, hz, hzs, (Option.some.inj h).symm⟩
  · rintro ⟨z, zs, hz, hzs, rfl⟩
    exact Option.bind_eq_some_iff.mpr ⟨z, hz, Option.bind_eq_some_iff.mpr ⟨zs, hzs, rfl⟩⟩

theorem mapM_eq_some_iff_forall₂ {α β : Type} {f : α → Option β} {xs : List α} {ys : List β} :
    xs.mapM f = some ys ↔ List.Forall₂ (fun x y => f x = some y) xs ys := by
  induction xs generalizing ys with
  | nil => simp [eq_comm]
  | cons x xs ih =>
      rw [mapM_cons_eq_some_iff, List.forall₂_cons_left_iff]
      refine exists_congr fun z => exists_congr fun zs => ?_
      rw [ih]

theorem exists_mem_of_mapM_eq_some {α β : Type} {f : α → Option β} :
    ∀ {xs : List α} {ys : List β}, xs.mapM f = some ys → ∀ y ∈ ys, ∃ x ∈ xs, f x = some y := by
  intro xs
  induction xs with
  | nil =>
      intro ys h y hy
      obtain rfl : [] = ys := by simpa using h
      cases hy
  | cons x xs ih =>
      intro ys h y hy
      obtain ⟨z, zs, hz, hzs, rfl⟩ := mapM_cons_eq_some_iff.mp h
      rcases List.mem_cons.mp hy with rfl | hy
      · exact ⟨x, by simp, hz⟩
      · obtain ⟨x', hx', hf⟩ := ih hzs y hy
        exact ⟨x', by simp [hx'], hf⟩

/-- If one look-up is another under a condition, so is a list of them. -/
theorem mapM_eq_some_iff_and {α β : Type} {f g : α → Option β} {p : α → Prop}
    (h : ∀ x y, f x = some y ↔ g x = some y ∧ p x) :
    ∀ {xs : List α} {ys : List β},
      xs.mapM f = some ys ↔ xs.mapM g = some ys ∧ ∀ x ∈ xs, p x := by
  intro xs
  induction xs with
  | nil => intro ys; simp
  | cons x xs ih =>
      intro ys
      rw [mapM_cons_eq_some_iff, mapM_cons_eq_some_iff, List.forall_mem_cons]
      constructor
      · rintro ⟨z, zs, hz, hzs, hys⟩
        obtain ⟨hz, hx⟩ := (h x z).mp hz
        obtain ⟨hzs, hxs⟩ := ih.mp hzs
        exact ⟨⟨z, zs, hz, hzs, hys⟩, hx, hxs⟩
      · rintro ⟨⟨z, zs, hz, hzs, hys⟩, hx, hxs⟩
        exact ⟨z, zs, (h x z).mpr ⟨hz, hx⟩, ih.mpr ⟨hzs, hxs⟩, hys⟩

theorem mem_of_lookup_eq_some {α β : Type} [BEq α] [LawfulBEq α] {l : List (α × β)} {k : α}
    {v : β} (h : l.lookup k = some v) : (k, v) ∈ l := by
  obtain ⟨before, after, rfl, -⟩ := List.lookup_eq_some_iff.mp h
  simp

/-! ### Fixed modifiers -/

theorem Modifier.builtin?_eq_some {name : String} {modifier : Modifier}
    (h : builtin? name = some modifier) :
    (∃ query, (name, query) ∈ mediaFeatures ∧ modifier = .media name query) ∨
      (∃ selector, (name, selector) ∈ pseudoClasses ∧ modifier = .pseudoClass name selector) ∨
      ∃ selector, (name, selector) ∈ groupStates ∧ modifier = .ancestor name selector := by
  unfold builtin? at h
  cases hmedia : mediaFeatures.lookup name with
  | some query =>
      rw [hmedia] at h
      exact .inl ⟨query, mem_of_lookup_eq_some hmedia, (Option.some.inj h).symm⟩
  | none =>
      rw [hmedia] at h
      cases hpseudo : pseudoClasses.lookup name with
      | some selector =>
          rw [hpseudo] at h
          exact .inr (.inl ⟨selector, mem_of_lookup_eq_some hpseudo, (Option.some.inj h).symm⟩)
      | none =>
          rw [hpseudo] at h
          cases hgroup : groupStates.lookup name with
          | some selector =>
              rw [hgroup] at h
              exact .inr (.inr ⟨selector, mem_of_lookup_eq_some hgroup, (Option.some.inj h).symm⟩)
          | none =>
              rw [hgroup] at h
              cases h

theorem Modifier.enabledAs_of_builtin? {name : String} {modifier : Modifier}
    (h : builtin? name = some modifier) : modifier.enabledAs = name := by
  rcases builtin?_eq_some h with ⟨query, -, rfl⟩ | ⟨selector, -, rfl⟩ | ⟨selector, -, rfl⟩
  · rfl
  · rfl
  · rfl

/-! ### Names under a context -/

namespace VariantContext

/-- What a name stands for: dark mode, a screen, or a fixed modifier. -/
theorem recognize?_eq_some {ctx : VariantContext} {name : String} {modifier : Modifier}
    (h : ctx.recognize? name = some modifier) :
    (name = Modifier.darkName ∧ ctx.darkMode ≠ .disabled ∧ modifier = .dark) ∨
      (∃ screen ∈ ctx.screens, modifier = .screen screen.width) ∨
      Modifier.builtin? name = some modifier := by
  unfold recognize? at h
  split at h
  · rename_i hdark
    split at h
    · cases h
    · rename_i hmode
      exact .inl ⟨hdark, hmode, (Option.some.inj h).symm⟩
  · split at h
    · rename_i screen hscreen
      exact .inr (.inl ⟨screen, List.mem_of_find?_eq_some hscreen, (Option.some.inj h).symm⟩)
    · exact .inr (.inr h)

variable {config : Config} {theme : Theme} {ctx : VariantContext} {name : String}

/-- A context has the screens of its theme, and the modes of its configuration. -/
theorem of_of? (h : of? config theme = some ctx) :
    theme.screens? = some ctx.screens ∧ ctx.mode = config.mode ∧
      ctx.darkMode = config.darkMode := by
  obtain ⟨screens, hscreens, rfl⟩ := Option.map_eq_some_iff.mp h
  exact ⟨hscreens, rfl, rfl⟩

theorem recognize?_darkName (h : of? config theme = some ctx) :
    ctx.recognize? Modifier.darkName =
      if config.darkMode = .disabled then none else some .dark := by
  rw [recognize?, if_pos rfl, (of_of? h).2.2]

theorem recognize?_of_screen (h : of? config theme = some ctx) {width : String}
    (hdark : name ≠ Modifier.darkName) (hscreen : theme.find? .screens name = some width) :
    ctx.recognize? name = some (.screen width) := by
  rw [← Theme.find?_screens (of_of? h).1, Option.map_eq_some_iff] at hscreen
  obtain ⟨b, hb, rfl⟩ := hscreen
  rw [recognize?, if_neg hdark, hb]

/-- What is no screen of the theme may be a fixed modifier. -/
theorem recognize?_of_no_screen (h : of? config theme = some ctx)
    (hdark : name ≠ Modifier.darkName) (hscreen : theme.find? .screens name = none) :
    ctx.recognize? name = Modifier.builtin? name := by
  rw [← Theme.find?_screens (of_of? h).1, Option.map_eq_none_iff] at hscreen
  rw [recognize?, if_neg hdark, hscreen]

end VariantContext

/-- The name under which a modifier is enabled, by the name it is used with: one name for all
screens of the theme, and else its own. -/
def Theme.enablingName (theme : Theme) (name : String) : String :=
  if name ≠ Modifier.darkName ∧ (theme.find? .screens name).isSome = true then
    Modifier.responsiveName
  else name

/-- **A modifier is enabled under the name that the theme says.** -/
theorem VariantContext.enabledAs_of_recognize? {config : Config} {theme : Theme}
    {ctx : VariantContext} (hctx : of? config theme = some ctx) {name : String}
    {modifier : Modifier} (h : ctx.recognize? name = some modifier) :
    modifier.enabledAs = theme.enablingName name := by
  unfold Theme.enablingName
  by_cases hdark : name = Modifier.darkName
  · subst hdark
    rw [recognize?_darkName hctx] at h
    split at h
    · cases h
    · rw [if_neg (by simp), ← Option.some.inj h]
      rfl
  · cases hscreen : theme.find? .screens name with
    | some width =>
        rw [recognize?_of_screen hctx hdark hscreen] at h
        rw [if_pos ⟨hdark, rfl⟩, ← Option.some.inj h]
        rfl
    | none =>
        rw [recognize?_of_no_screen hctx hdark hscreen] at h
        rw [if_neg (by simp)]
        exact Modifier.enabledAs_of_builtin? h

/-! ### What a name adds to a rule -/

/-- What a name adds to a rule: dark mode by the chosen strategy, every other name by its
family. -/
inductive Modifier.Means (darkMode : DarkMode) : String → Contribution → Prop
  | darkMedia (h : darkMode = .media) :
      Means darkMode darkName (.wrapper "(prefers-color-scheme: dark)")
  | darkAncestor (h : darkMode = .ancestor) : Means darkMode darkName (.ancestor ".dark")
  | media {name query : String} (h : (name, query) ∈ mediaFeatures) :
      Means darkMode name (.wrapper query)
  | pseudoClass {name selector : String} (h : (name, selector) ∈ pseudoClasses) :
      Means darkMode name (.pseudoClass selector)
  | group {name selector : String} (h : (name, selector) ∈ groupStates) :
      Means darkMode name (.ancestor selector)

namespace VariantContext

variable {ctx : VariantContext} {category : Category} {name : String} {x : Contribution}

theorem contributionOf?_eq_some_iff :
    ctx.contributionOf? category name = some x ↔
      ∃ modifier, ctx.recognize? name = some modifier ∧ ctx.allows category modifier = true ∧
        ctx.contribution? modifier = some x := by
  unfold contributionOf?
  rw [Option.bind_eq_bind, Option.bind_eq_some_iff]
  refine exists_congr fun modifier => and_congr Iff.rfl ?_
  split
  · rename_i h
    simp [h]
  · rename_i h
    simp [h]

/-- What a fixed modifier contributes is what its name means. -/
theorem exists_means_of_builtin? {modifier : Modifier}
    (h : Modifier.builtin? name = some modifier) (darkMode : DarkMode) :
    ∃ x, ctx.contribution? modifier = some x ∧ Modifier.Means darkMode name x := by
  rcases Modifier.builtin?_eq_some h with
    ⟨query, hmem, rfl⟩ | ⟨selector, hmem, rfl⟩ | ⟨selector, hmem, rfl⟩
  · exact ⟨_, rfl, .media hmem⟩
  · exact ⟨_, rfl, .pseudoClass hmem⟩
  · exact ⟨_, rfl, .group hmem⟩

/-- What dark mode contributes is what its strategy says. -/
theorem exists_means_of_dark (h : ctx.darkMode ≠ .disabled) :
    ∃ x, ctx.contribution? .dark = some x ∧
      Modifier.Means ctx.darkMode Modifier.darkName x := by
  rw [contribution?]
  cases hmode : ctx.darkMode with
  | disabled => exact absurd hmode h
  | media => exact ⟨_, rfl, .darkMedia rfl⟩
  | ancestor => exact ⟨_, rfl, .darkAncestor rfl⟩

/-- **What a modifier contributes** is the media query of a screen, or what its name means. -/
theorem screen_or_means_of_contributionOf? (h : ctx.contributionOf? category name = some x) :
    (∃ screen ∈ ctx.screens, x = .wrapper s!"(min-width: {screen.width})") ∨
      Modifier.Means ctx.darkMode name x := by
  obtain ⟨modifier, hmodifier, -, hx⟩ := contributionOf?_eq_some_iff.mp h
  rcases recognize?_eq_some hmodifier with ⟨rfl, hmode, rfl⟩ | ⟨screen, hscreen, rfl⟩ | hbuiltin
  · obtain ⟨y, hy, hmeans⟩ := exists_means_of_dark hmode
    obtain rfl : x = y := Option.some.inj (hx.symm.trans hy)
    exact .inr hmeans
  · exact .inl ⟨screen, hscreen, (Option.some.inj hx).symm⟩
  · obtain ⟨y, hy, hmeans⟩ := exists_means_of_builtin? hbuiltin ctx.darkMode
    obtain rfl : x = y := Option.some.inj (hx.symm.trans hy)
    exact .inr hmeans

end VariantContext

end AtomicCss
