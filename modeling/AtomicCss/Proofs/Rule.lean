/-
How a rule comes about.

A class that has a rule passes three stages: it is cut into modifiers and a utility class,
the utility class is resolved against the theme, and each modifier contributes its part.
The statement here names what each stage gave, so that nobody has to go through the stages
again, and says that nothing else is asked of a class.
-/
import AtomicCss.Proofs.Utility.Resolve
import AtomicCss.Rule

namespace AtomicCss

namespace ClassRule

/-- The rule of a literal, given its utility class and what its modifiers contribute. -/
def ofParts (literal : String) (rule : BaseRule) (contributions : List Contribution) :
    ClassRule where
  literal
  category := rule.category
  token := rule.token
  modifiers := (Chain.split literal.toList).1.map String.ofList
  important := rule.important
  negative := rule.negative
  selector := (VariantContext.assemble literal contributions).selector
  wrappers := (VariantContext.assemble literal contributions).wrappers
  declarations := rule.declarations

/-- **How a rule comes about**: no modifier is empty, the class behind the modifiers resolves,
and each modifier contributes. -/
theorem ofLiteral?_eq_some_iff {theme : Theme} {ctx : VariantContext} {literal : String}
    {r : ClassRule} :
    ofLiteral? theme ctx literal = some r ↔
      (∀ m ∈ (Chain.split literal.toList).1, m ≠ []) ∧
      ∃ rule contributions,
        BaseRule.ofClass? theme (Chain.split literal.toList).2 = some rule ∧
        ((Chain.split literal.toList).1.map String.ofList).mapM
          (ctx.contributionOf? rule.category) = some contributions ∧
        r = ofParts literal rule contributions := by
  have hnamed : (Chain.split literal.toList).1.any List.isEmpty = false ↔
      ∀ m ∈ (Chain.split literal.toList).1, m ≠ [] := by
    simp
  unfold ofLiteral?
  simp only [Option.bind_eq_bind]
  split
  · rename_i h
    constructor
    · intro hnone
      cases hnone
    · intro hparts
      rw [hnamed.mpr hparts.1] at h
      cases h
  · rename_i h
    rw [Bool.not_eq_true, hnamed] at h
    constructor
    · intro hsome
      obtain ⟨rule, hrule, hsome⟩ := Option.bind_eq_some_iff.mp hsome
      obtain ⟨expansion, hexpansion, hsome⟩ := Option.bind_eq_some_iff.mp hsome
      obtain ⟨contributions, hcontributions, hassemble⟩ :=
        Option.bind_eq_some_iff.mp hexpansion
      refine ⟨h, rule, contributions, hrule, hcontributions, ?_⟩
      rw [← Option.some.inj hsome, ← Option.some.inj hassemble]
      rfl
    · intro hparts
      obtain ⟨-, rule, contributions, hrule, hcontributions, rfl⟩ := hparts
      refine Option.bind_eq_some_iff.mpr ⟨rule, hrule, ?_⟩
      refine Option.bind_eq_some_iff.mpr ⟨VariantContext.assemble literal contributions, ?_, rfl⟩
      exact Option.bind_eq_some_iff.mpr ⟨contributions, hcontributions, rfl⟩

/-- How a rule comes about: from the class behind the modifiers, and from what each
modifier contributes. -/
theorem ofLiteral?_eq_some {theme : Theme} {ctx : VariantContext} {literal : String}
    {r : ClassRule} (h : ofLiteral? theme ctx literal = some r) :
    ∃ rule contributions,
      BaseRule.ofClass? theme (Chain.split literal.toList).2 = some rule ∧
      ((Chain.split literal.toList).1.map String.ofList).mapM
        (ctx.contributionOf? rule.category) = some contributions ∧
      r = ofParts literal rule contributions :=
  (ofLiteral?_eq_some_iff.mp h).2

theorem isUtility_of_ofLiteral? {theme : Theme} {ctx : VariantContext} {literal : String}
    {r : ClassRule} (h : ofLiteral? theme ctx literal = some r) : r.category.isUtility = true := by
  obtain ⟨rule, contributions, hrule, -, rfl⟩ := ofLiteral?_eq_some h
  exact BaseRule.isUtility_of_ofClass? hrule

theorem literal_eq {theme : Theme} {ctx : VariantContext} {literal : String}
    {r : ClassRule} (h : ofLiteral? theme ctx literal = some r) : r.literal = literal := by
  obtain ⟨rule, contributions, -, -, rfl⟩ := ofLiteral?_eq_some h
  rfl

end ClassRule

end AtomicCss
