/-
What the marks of a class do to its rule.

A hyphen in front of a class without marks negates the value that the class takes, and it is refused
where there is nothing to negate: outside the two categories of numbers that may be negative, and
for keywords.  Nothing else about the rule changes.  An exclamation mark in front of a class, with a
hyphen or without, changes no value; it is noted with each declaration.
-/
import AtomicCss.Proofs.Utility.Resolve
import AtomicCss.Proofs.Value.Quantity

namespace AtomicCss

open Text

/-- The value that a token stands for. -/
def TokenRef.value? (theme : Theme) (category : Category) : TokenRef → Option String
  | .theme name => theme.find? category name
  | .arbitrary value => some value

namespace Utility

theorem value?_of_tokenValue? {theme : Theme} {category : Category} {tail : Tail}
    {token : TokenRef} {value : String}
    (h : tokenValue? theme category tail = some (token, value)) :
    token.value? theme category = some value := by
  rcases tokenValue?_eq_some_iff.mp h with ⟨name, -, hfind, rfl⟩ | ⟨text, raw, -, -, -, rfl⟩
  · exact hfind
  · rfl

/-- Where values may be negative, which properties are set does not depend on the value. -/
theorem map_property_declarations {utility : Utility}
    (h : utility.category.allowsNegative = true) (theme : Theme) (value written : String) :
    (utility.declarations theme value).map Declaration.property =
      (utility.declarations theme written).map Declaration.property := by
  cases utility with
  | scale | scaleX | scaleY | zIndex => rfl
  | _ => cases h

end Utility

theorem Category.allowsNegative_iff {category : Category} :
    category.allowsNegative = true ↔ category = .scale ∨ category = .zIndex := by
  cases category <;> simp [allowsNegative]

namespace BaseRule

variable {theme : Theme} {cs : List Char}

/-- A rule whose declarations are all important. -/
def makeImportant (rule : BaseRule) : BaseRule :=
  { rule with important := true, declarations := rule.declarations.map Declaration.makeImportant }

/-- A hyphen in front of a class asks for the rule that its utility makes of the negative value. -/
theorem ofClass?_hyphen_iff {rule : BaseRule} :
    ofClass? theme ('-' :: cs) = some rule ↔
      ∃ (utility : Utility) (tail : Utility.Tail) (token : TokenRef) (value written : String),
        Utility.find? cs = some (utility, tail) ∧ utility.category.allowsNegative = true ∧
        Utility.tokenValue? theme utility.category tail = some (token, value) ∧
        Value.negate? value = some written ∧
        rule = { ofValue theme utility token written with negative := true } := by
  have himportant : takeMark '!' ('-' :: cs) = (false, '-' :: cs) := rfl
  have hnegative : takeMark '-' ('-' :: cs) = (true, cs) := rfl
  rw [ofClass?_iff_of_marks himportant hnegative]
  constructor
  · rintro ⟨utility, tail, token, value, written, hfind, hallowed, hvalue, hwritten, hrule⟩
    exact ⟨utility, tail, token, value, written, hfind, hallowed rfl, hvalue, hwritten, hrule⟩
  · rintro ⟨utility, tail, token, value, written, hfind, hallowed, hvalue, hwritten, hrule⟩
    exact ⟨utility, tail, token, value, written, hfind, fun _ => hallowed, hvalue, hwritten, hrule⟩

theorem ofClass?_exclamation (hcs : ∀ c ∈ cs.head?, c ≠ '!') :
    ofClass? theme ('!' :: cs) = (ofClass? theme cs).map makeImportant := by
  have hmarked : takeMark '!' ('!' :: cs) = (true, cs) := rfl
  have hplain : takeMark '!' cs = (false, cs) := takeMark_of_head? hcs
  ext rule
  rw [ofClass?_iff_of_marks hmarked rfl, Option.map_eq_some_iff]
  constructor
  · rintro ⟨utility, tail, token, value, written, hfind, hallowed, hvalue, hwritten, rfl⟩
    exact ⟨_, (ofClass?_iff_of_marks hplain rfl).mpr
      ⟨utility, tail, token, value, written, hfind, hallowed, hvalue, hwritten, rfl⟩, rfl⟩
  · rintro ⟨plain, hrule, rfl⟩
    obtain ⟨utility, tail, token, value, written, hfind, hallowed, hvalue, hwritten, rfl⟩ :=
      (ofClass?_iff_of_marks hplain rfl).mp hrule
    exact ⟨utility, tail, token, value, written, hfind, hallowed, hvalue, hwritten, rfl⟩

/-- What a class with a hyphen takes over from the class without, and what it makes of its
value. -/
structure Negates (theme : Theme) (plain negated : BaseRule) : Prop where
  category_eq : negated.category = plain.category
  token_eq : negated.token = plain.token
  negative : negated.negative = true ∧ plain.negative = false
  important : negated.important = false ∧ plain.important = false
  properties_eq : negated.declarations.map Declaration.property =
    plain.declarations.map Declaration.property
  declarations : ∃ (utility : Utility) (value written : String),
    plain.token.value? theme plain.category = some value ∧ Value.IsNegative value written ∧
    utility.category = plain.category ∧
    plain.declarations = utility.declarations theme value ∧
    negated.declarations = utility.declarations theme written

/-- A class without marks can be negated if it has a rule in a category of numbers, and its value is
no keyword. -/
theorem exists_ofClass?_hyphen_iff (hcs : Unmarked cs) :
    (∃ negated, ofClass? theme ('-' :: cs) = some negated) ↔
      ∃ plain value, ofClass? theme cs = some plain ∧
        (plain.category = .scale ∨ plain.category = .zIndex) ∧
        plain.token.value? theme plain.category = some value ∧
        ¬ ∀ c ∈ trim value.toList, c.isAlpha = true ∨ c = '-' := by
  constructor
  · rintro ⟨negated, hnegated⟩
    obtain ⟨utility, tail, token, value, written, hfind, hallowed, hvalue, hwritten, -⟩ :=
      ofClass?_hyphen_iff.mp hnegated
    exact ⟨ofValue theme utility token value, value,
      (ofClass?_unmarked_iff hcs).mpr ⟨utility, tail, token, value, hfind, hvalue, rfl⟩,
      Category.allowsNegative_iff.mp hallowed, Utility.value?_of_tokenValue? hvalue,
      Value.exists_negate?_iff.mp ⟨written, hwritten⟩⟩
  · rintro ⟨plain, value, hplain, hcategory, htoken, hkeyword⟩
    obtain ⟨utility, tail, token, value', hfind, hvalue, rfl⟩ :=
      (ofClass?_unmarked_iff hcs).mp hplain
    obtain rfl : value = value' :=
      Option.some.inj (htoken.symm.trans (Utility.value?_of_tokenValue? hvalue))
    obtain ⟨written, hwritten⟩ := Value.exists_negate?_iff.mpr hkeyword
    exact ⟨_, ofClass?_hyphen_iff.mpr ⟨utility, tail, token, value, written, hfind,
      Category.allowsNegative_iff.mpr hcategory, hvalue, hwritten, rfl⟩⟩

theorem negates_of_ofClass? (hcs : Unmarked cs) {plain negated : BaseRule}
    (hplain : ofClass? theme cs = some plain)
    (hnegated : ofClass? theme ('-' :: cs) = some negated) : Negates theme plain negated := by
  obtain ⟨utility, tail, token, value, hfind, hvalue, rfl⟩ := (ofClass?_unmarked_iff hcs).mp hplain
  obtain ⟨utility', tail', token', value', written, hfind', hallowed, hvalue', hwritten, rfl⟩ :=
    ofClass?_hyphen_iff.mp hnegated
  -- Both classes are read with the same utility and take the same value.
  obtain ⟨rfl, rfl⟩ := Prod.mk.inj (Option.some.inj (hfind'.symm.trans hfind))
  obtain ⟨rfl, rfl⟩ := Prod.mk.inj (Option.some.inj (hvalue'.symm.trans hvalue))
  exact ⟨rfl, rfl, ⟨rfl, rfl⟩, ⟨rfl, rfl⟩,
    Utility.map_property_declarations hallowed theme written _,
    utility', _, written, Utility.value?_of_tokenValue? hvalue,
    Value.isNegative_of_negate? hwritten, rfl, rfl, rfl⟩

/--
**What the marks do.**  A class without marks can be negated exactly if it has a rule in one of the
categories of numbers and its value, white space around it aside, is not made of letters and hyphens
alone.  The rule then differs in its value only, which becomes the negative one.  And what an
exclamation mark stands in front of has a rule exactly if it has one without the mark, the same but
for what the mark says.
-/
theorem ofClass?_marked (theme : Theme) (cs : List Char) :
    (Unmarked cs →
      ((∃ negated, ofClass? theme ('-' :: cs) = some negated) ↔
        ∃ plain value, ofClass? theme cs = some plain ∧
          (plain.category = .scale ∨ plain.category = .zIndex) ∧
          plain.token.value? theme plain.category = some value ∧
          ¬ ∀ c ∈ trim value.toList, c.isAlpha = true ∨ c = '-') ∧
      ∀ plain negated, ofClass? theme cs = some plain →
        ofClass? theme ('-' :: cs) = some negated → Negates theme plain negated) ∧
    ((∀ c ∈ cs.head?, c ≠ '!') →
      ofClass? theme ('!' :: cs) = (ofClass? theme cs).map makeImportant) :=
  ⟨fun hcs => ⟨exists_ofClass?_hyphen_iff hcs, fun _ _ => negates_of_ofClass? hcs⟩,
    ofClass?_exclamation⟩

/-- The negative of a number, and an important rule with it. -/
theorem ofClass?_marked_half :
    let theme : Theme := ⟨.ofList [(.scale, .ofList [("50", ".5")])]⟩
    let cs := "scale-50".toList
    Unmarked cs ∧ (∀ c ∈ ('-' :: cs).head?, c ≠ '!') ∧
      ∃ plain negated, ofClass? theme cs = some plain ∧ ofClass? theme ('-' :: cs) = some negated ∧
        Negates theme plain negated ∧
        negated.declarations.head? = some ⟨"--tw-scale-x", "-.5"⟩ ∧
        ofClass? theme ('!' :: '-' :: cs) = some negated.makeImportant := by
  intro theme cs
  have hunmarked : Unmarked cs := by decide
  have hhead : ∀ c ∈ ('-' :: cs).head?, c ≠ '!' := by
    rintro c ⟨rfl⟩
    decide
  have hsome : (ofClass? theme cs).isSome = true := by decide +kernel
  have hfirst : (ofClass? theme ('-' :: cs)).map (·.declarations.head?) =
      some (some ⟨"--tw-scale-x", "-.5"⟩) := by
    decide +kernel
  obtain ⟨plain, hplain⟩ := Option.isSome_iff_exists.mp hsome
  obtain ⟨negated, hnegated, hfirst⟩ := Option.map_eq_some_iff.mp hfirst
  have himportant := (ofClass?_marked theme ('-' :: cs)).2 hhead
  rw [hnegated] at himportant
  exact ⟨hunmarked, hhead, plain, negated, hplain, hnegated,
    ((ofClass?_marked theme cs).1 hunmarked).2 plain negated hplain hnegated, hfirst, himportant⟩

end BaseRule

end AtomicCss
