/-
The selector of a class's rule.

What a rule takes from the configuration is which of the fixed ancestors and
pseudo-classes stand around the escaped class.  None of the ancestors has a backslash, and
the pseudo-classes open with a colon and have no dot: this is what `Selector.ClassName`
asks for.  So the literal comes back from the selector alone, and no two classes share a
rule, under one configuration or under several.
-/
import AtomicCss.Proofs.Rule
import AtomicCss.Proofs.Selector.ClassName
import AtomicCss.Proofs.Variant.Modifier

namespace AtomicCss

/-! ### What modifiers contribute -/

/-- What can stand around a class without being taken for a part of it. -/
def Contribution.IsApart : Contribution → Prop
  | .wrapper _ => True
  | .ancestor selector => '\\' ∉ selector.toList
  | .pseudoClass selector => selector.toList.head? = some ':' ∧ '.' ∉ selector.toList

namespace VariantContext

variable {ctx : VariantContext}

theorem isApart_of_contributionOf? {category : Category} {name : String} {x : Contribution}
    (h : ctx.contributionOf? category name = some x) : x.IsApart := by
  have hdark : '\\' ∉ ".dark".toList := by decide
  have hstates : ∀ e ∈ Modifier.groupStates, '\\' ∉ e.2.toList := by decide
  have hpseudo : ∀ e ∈ Modifier.pseudoClasses, e.2.toList.head? = some ':' ∧ '.' ∉ e.2.toList := by
    decide
  rcases screen_or_means_of_contributionOf? h with ⟨screen, -, rfl⟩ | hmeans
  · trivial
  · cases hmeans with
    | darkMedia => trivial
    | darkAncestor => exact hdark
    | media => trivial
    | pseudoClass hmem => exact hpseudo _ hmem
    | group hmem => exact hstates _ hmem

theorem selector_assemble (literal : String) (contributions : List Contribution) :
    (assemble literal contributions).selector.toList =
      (contributions.filterMap Contribution.ancestor?).flatMap (·.toList ++ [' ']) ++
        '.' :: (Selector.escape literal.toList ++
          (contributions.filterMap Contribution.pseudoClass?).flatMap String.toList) := by
  have hspace : String.toList ∘ (· ++ " ") = fun s : String => s.toList ++ [' '] := by
    funext s
    exact String.toList_append
  simp only [assemble, Selector.ofClass, String.toList_append, String.toList_join,
    String.toList_ofList, List.append_assoc, List.cons_append, List.flatMap_def, List.map_map,
    hspace]

variable {contributions : List Contribution}

theorem notMem_ancestors (h : ∀ x ∈ contributions, x.IsApart) :
    '\\' ∉ (contributions.filterMap Contribution.ancestor?).flatMap (·.toList ++ [' ']) := by
  intro hmem
  obtain ⟨selector, hselector, hmem⟩ := List.mem_flatMap.mp hmem
  obtain ⟨x, hx, hsome⟩ := List.mem_filterMap.mp hselector
  have hbackslash : '\\' ∈ selector.toList := by simpa using hmem
  cases x with
  | ancestor selector => exact h _ hx (Option.some.inj hsome ▸ hbackslash)
  | wrapper query => cases hsome
  | pseudoClass selector => cases hsome

theorem apart_of_mem_pseudoClasses (h : ∀ x ∈ contributions, x.IsApart) {selector : String}
    (hselector : selector ∈ contributions.filterMap Contribution.pseudoClass?) :
    selector.toList.head? = some ':' ∧ '.' ∉ selector.toList := by
  obtain ⟨x, hx, hsome⟩ := List.mem_filterMap.mp hselector
  cases x with
  | pseudoClass selector => exact Option.some.inj hsome ▸ h _ hx
  | wrapper query => cases hsome
  | ancestor selector => cases hsome

theorem head?_pseudoClasses (h : ∀ x ∈ contributions, x.IsApart) :
    ∀ c ∈ ((contributions.filterMap Contribution.pseudoClass?).flatMap String.toList).head?,
      c = ':' := by
  have hapart : ∀ selector ∈ contributions.filterMap Contribution.pseudoClass?,
      selector.toList.head? = some ':' ∧ '.' ∉ selector.toList :=
    fun _ => apart_of_mem_pseudoClasses h
  revert hapart
  cases contributions.filterMap Contribution.pseudoClass? with
  | nil =>
      intro _ c hc
      cases hc
  | cons selector rest =>
      intro hapart c hc
      rw [List.flatMap_cons, List.head?_append, (hapart selector List.mem_cons_self).1] at hc
      exact (Option.some.inj hc).symm

theorem notMem_pseudoClasses (h : ∀ x ∈ contributions, x.IsApart) :
    '.' ∉ (contributions.filterMap Contribution.pseudoClass?).flatMap String.toList := by
  intro hmem
  obtain ⟨selector, hselector, hdot⟩ := List.mem_flatMap.mp hmem
  exact (apart_of_mem_pseudoClasses h hselector).2 hdot

theorem className_assemble (literal : String) (h : ∀ x ∈ contributions, x.IsApart) :
    Selector.className (assemble literal contributions).selector.toList =
      Selector.escape literal.toList := by
  rw [selector_assemble]
  exact Selector.className_append (notMem_ancestors h) (Selector.quoted_escape _)
    (head?_pseudoClasses h) (notMem_pseudoClasses h)

end VariantContext

/-! ### No two classes share a selector -/

namespace ClassRule

/-- The class of a rule's selector is its escaped literal. -/
theorem className_selector {theme : Theme} {ctx : VariantContext} {literal : String}
    {r : ClassRule} (h : ofLiteral? theme ctx literal = some r) :
    Selector.className r.selector.toList = Selector.escape literal.toList := by
  obtain ⟨rule, contributions, -, hmodifiers, rfl⟩ := ofLiteral?_eq_some h
  apply VariantContext.className_assemble
  intro x hx
  obtain ⟨name, -, hname⟩ := exists_mem_of_mapM_eq_some hmodifiers x hx
  exact VariantContext.isApart_of_contributionOf? hname

/-- Different classes have different selectors, also under different themes and
modifiers. -/
theorem eq_of_selector_eq {theme₁ theme₂ : Theme} {ctx₁ ctx₂ : VariantContext}
    {s t : String} {r₁ r₂ : ClassRule} (hr₁ : ofLiteral? theme₁ ctx₁ s = some r₁)
    (hr₂ : ofLiteral? theme₂ ctx₂ t = some r₂) (h : r₁.selector = r₂.selector) : s = t := by
  have hclass : Selector.escape s.toList = Selector.escape t.toList := by
    rw [← className_selector hr₁, ← className_selector hr₂, h]
  exact String.toList_inj.mp (Selector.escape_injective hclass)

/--
**A selector determines its literal.**  The class found in it is the escaped literal, from
which the literal is read back as from any escaped text; so whatever theme and modifiers
two rules have, with one selector they have one literal.
-/
theorem literal_of_selector :
    (∀ cs, Selector.unescape (Selector.escape cs) = cs) ∧
    (∀ theme ctx literal r, ofLiteral? theme ctx literal = some r →
      Selector.className r.selector.toList = Selector.escape literal.toList) ∧
    ∀ theme₁ theme₂ ctx₁ ctx₂ s t r₁ r₂, ofLiteral? theme₁ ctx₁ s = some r₁ →
      ofLiteral? theme₂ ctx₂ t = some r₂ → r₁.selector = r₂.selector → s = t := by
  refine ⟨Selector.unescape_escape, ?_, ?_⟩
  · intro theme ctx literal r h
    exact className_selector h
  · intro theme₁ theme₂ ctx₁ ctx₂ s t r₁ r₂ hr₁ hr₂ h
    exact eq_of_selector_eq hr₁ hr₂ h

/-- A class with a digit in front, and a backslash, a dot and colons inside: more dots and
colons stand around it, and no other class has this selector. -/
theorem literal_of_selector_crowded :
    let theme : Theme := ⟨Theme.defaults⟩
    let config : Config := { content := ["a"], darkMode := .ancestor }
    let literal := "2xl:dark:group-hover:hover:z-[a\\.b:c]"
    let escaped := "\\32 xl\\:dark\\:group-hover\\:hover\\:z-\\[a\\\\\\.b\\:c\\]"
    ∃ ctx r, VariantContext.of? config theme = some ctx ∧ ofLiteral? theme ctx literal = some r ∧
      r.selector = ".dark .group:hover ." ++ escaped ++ ":hover" ∧
      Selector.className r.selector.toList = escaped.toList ∧
      Selector.unescape escaped.toList = literal.toList ∧
      ∀ theme' ctx' s r', ofLiteral? theme' ctx' s = some r' → r'.selector = r.selector →
        s = literal := by
  intro theme config literal escaped
  have hselector : ((VariantContext.of? config theme).bind fun ctx =>
      (ofLiteral? theme ctx literal).map (·.selector)) =
        some (".dark .group:hover ." ++ escaped ++ ":hover") := by
    decide +kernel
  obtain ⟨ctx, hctx, hselector⟩ := Option.bind_eq_some_iff.mp hselector
  have hescaped : Selector.escape literal.toList = escaped.toList := by decide +kernel
  obtain ⟨r, hr, hselector⟩ := Option.map_eq_some_iff.mp hselector
  obtain ⟨hunescape, hclass, hliteral⟩ := literal_of_selector
  refine ⟨ctx, r, hctx, hr, hselector, ?_, ?_, ?_⟩
  · rw [← hescaped]
    exact hclass theme ctx literal r hr
  · rw [← hescaped]
    exact hunescape literal.toList
  · intro theme' ctx' s r' hr' h
    exact hliteral theme' theme ctx' ctx s literal r' r hr' hr h

end ClassRule

end AtomicCss
