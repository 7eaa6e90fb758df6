/-
Where the value of a class comes from.

A class is read from the left: marks, the stem of a utility, a hyphen, and then a token or
a text in brackets.  All of these are cut off the front, so a bracketed text stands at the
end of the class, and modifiers only come in front of it.

Most is said of classes without marks: such a class has the rule that its utility makes of one
token and its value.
-/
import AtomicCss.Utility.Resolve
import Mathlib.Data.List.Basic

namespace AtomicCss

open Text

/-- A value of the theme, or the value of a text in brackets at the end of the class. -/
inductive ComesFrom (theme : Theme) (cs : List Char) (category : Category) :
    TokenRef → String → Prop
  | theme {name value : String} (h : theme.find? category name = some value) :
      ComesFrom theme cs category (.theme name) value
  | brackets (before raw : List Char) (h : cs = before ++ '[' :: (raw ++ [']'])) :
      ComesFrom theme cs category (.arbitrary (String.ofList (Arbitrary.decode raw)))
        (String.ofList (Arbitrary.decode raw))

theorem ComesFrom.of_suffix {theme : Theme} {cs ds : List Char} {category : Category}
    {token : TokenRef} {value : String} (h : ComesFrom theme cs category token value)
    (hsuffix : cs <:+ ds) : ComesFrom theme ds category token value := by
  cases h with
  | theme h => exact .theme h
  | brackets before raw h =>
      obtain ⟨front, rfl⟩ := hsuffix
      exact .brackets (front ++ before) raw (by rw [h, List.append_assoc])

theorem Arbitrary.value?_eq_some {raw : List Char} {value : String} (h : value? raw = some value) :
    (∀ c ∈ raw, endsDeclaration c = false) ∧ value = String.ofList (decode raw) := by
  simp only [value?] at h
  split at h
  · cases h
  · rename_i hguard
    simp only [Bool.or_eq_true, not_or, Bool.not_eq_true, List.any_eq_false] at hguard
    exact ⟨hguard.1, (Option.some.inj h).symm⟩

theorem Arbitrary.bracketed?_eq_some {suffix raw : List Char} (h : bracketed? suffix = some raw) :
    suffix = '[' :: (raw ++ [']']) := by
  obtain ⟨rest, hrest, h⟩ := Option.bind_eq_some_iff.mp h
  rw [after?_eq_some_iff.mp hrest, before?_eq_some_iff.mp h]
  rfl

theorem Arbitrary.bracketed?_brackets (raw : List Char) :
    bracketed? ('[' :: (raw ++ [']'])) = some raw :=
  Option.bind_eq_some_iff.mpr ⟨raw ++ [']'], after?_append ['['] _, before?_append raw [']']⟩

theorem Arbitrary.bracketed?_eq_none_iff {suffix : List Char} :
    bracketed? suffix = none ↔ ∀ raw, suffix ≠ '[' :: (raw ++ [']']) := by
  constructor
  · rintro h raw rfl
    rw [bracketed?_brackets] at h
    cases h
  · intro h
    cases hraw : bracketed? suffix with
    | none => rfl
    | some raw => exact absurd (bracketed?_eq_some hraw) (h raw)

namespace Utility

theorem suffix_of_find? {cs text : List Char} {utility : Utility}
    (h : find? cs = some (utility, .suffix text)) : text <:+ cs := by
  obtain ⟨u, -, htail⟩ := List.exists_of_findSome?_eq_some h
  obtain ⟨tail, htail, heq⟩ := Option.map_eq_some_iff.mp htail
  obtain ⟨rfl, rfl⟩ := Prod.mk.inj heq
  unfold tail? at htail
  split at htail
  · cases htail
  · rename_i hafter
    cases htail
    rw [after?_eq_some_iff.mp hafter]
    exact (List.suffix_cons _ _).trans (List.suffix_append _ _)
  · cases htail

/-- The token that a tail asks a theme for.  A tail in brackets asks for none. -/
def Tail.Names (category : Category) : Tail → String → Prop
  | .bare, name => category.filtersDefault = false ∧ name = defaultToken
  | .suffix text, name =>
    Arbitrary.bracketed? text = none ∧ name = String.ofList text ∧ name ≠ "" ∧ name ≠ defaultToken

/-- **The value of a tail** is that of the token it names, or it stands in brackets. -/
theorem tokenValue?_eq_some_iff {theme : Theme} {category : Category} {tail : Tail}
    {token : TokenRef} {value : String} :
    tokenValue? theme category tail = some (token, value) ↔
      (∃ name, tail.Names category name ∧ theme.find? category name = some value ∧
        token = .theme name) ∨
      ∃ text raw, tail = .suffix text ∧ Arbitrary.bracketed? text = some raw ∧
        Arbitrary.value? raw = some value ∧ token = .arbitrary value := by
  have hpair : ∀ (f : String → TokenRef) (o : Option String),
      o.map (fun found => (f found, found)) = some (token, value) ↔
        o = some value ∧ token = f value := by
    intro f o
    cases o with
    | none => simp
    | some found =>
        rw [Option.map_some, Option.some_inj, Option.some_inj, Prod.mk.injEq]
        constructor
        · rintro ⟨rfl, rfl⟩
          exact ⟨rfl, rfl⟩
        · rintro ⟨rfl, rfl⟩
          exact ⟨rfl, rfl⟩
  cases tail with
  | bare =>
      rw [tokenValue?]
      by_cases hfilters : category.filtersDefault = true
      · simp [Tail.Names, hfilters]
      · rw [if_neg hfilters, hpair fun _ => .theme defaultToken]
        simp [Tail.Names, hfilters]
  | suffix text =>
      simp only [tokenValue?]
      cases hraw : Arbitrary.bracketed? text with
      | some raw =>
          show (Arbitrary.value? raw).map (fun value => (TokenRef.arbitrary value, value)) =
            some (token, value) ↔ _
          rw [hpair .arbitrary]
          simp [Tail.Names, hraw]
      | none =>
          show (if (String.ofList text = "" || String.ofList text = defaultToken) = true then none
            else (theme.find? category (String.ofList text)).map
              fun value => (TokenRef.theme (String.ofList text), value)) = some (token, value) ↔ _
          split
          · rename_i hguard
            have hno_name : ∀ name, ¬ Tail.Names category (.suffix text) name := by
              rintro name ⟨-, rfl, hne, hnot_default⟩
              simp [hne, hnot_default] at hguard
            simp [hraw, hno_name]
          · rename_i hguard
            simp only [Bool.or_eq_true, decide_eq_true_eq, not_or] at hguard
            rw [hpair fun _ => .theme (String.ofList text)]
            simp [Tail.Names, hraw, hguard.1, hguard.2]

theorem comesFrom_of_tokenValue? {theme : Theme} {category : Category} {tail : Tail}
    {cs : List Char} {token : TokenRef} {value : String}
    (h : tokenValue? theme category tail = some (token, value))
    (hcs : ∀ text, tail = .suffix text → text <:+ cs) :
    ComesFrom theme cs category token value := by
  rcases tokenValue?_eq_some_iff.mp h with
    ⟨name, -, hfind, rfl⟩ | ⟨text, raw, rfl, hraw, hvalue, rfl⟩
  · exact .theme hfind
  · obtain ⟨-, rfl⟩ := Arbitrary.value?_eq_some hvalue
    have hbrackets : ComesFrom theme text category _ _ :=
      .brackets [] raw (Arbitrary.bracketed?_eq_some hraw)
    exact hbrackets.of_suffix (hcs text rfl)

end Utility

namespace BaseRule

theorem takeMark_suffix (mark : Char) (cs : List Char) : (takeMark mark cs).2 <:+ cs := by
  cases cs with
  | nil => exact List.suffix_refl _
  | cons c cs =>
      show (if c = mark then (true, cs) else (false, c :: cs)).2 <:+ c :: cs
      split
      · exact List.suffix_cons _ _
      · exact List.suffix_refl _

/-- **The stages of a class**: its marks, its utility and tail, the tail's value, what negation
makes of it, and the declarations of that. -/
theorem ofClass?_eq_some_iff {theme : Theme} {cs : List Char} {rule : BaseRule} :
    ofClass? theme cs = some rule ↔
      rule.important = (takeMark '!' cs).1 ∧
      rule.negative = (takeMark '-' (takeMark '!' cs).2).1 ∧
      ∃ (utility : Utility) (tail : Utility.Tail) (value written : String),
        Utility.find? (takeMark '-' (takeMark '!' cs).2).2 = some (utility, tail) ∧
        rule.category = utility.category ∧
        (rule.negative = true → utility.category.allowsNegative = true) ∧
        Utility.tokenValue? theme utility.category tail = some (rule.token, value) ∧
        (if rule.negative then Value.negate? value else some value) = some written ∧
        rule.declarations =
          (if rule.important then (utility.declarations theme written).map Declaration.makeImportant
          else utility.declarations theme written) := by
  obtain ⟨category, token, important, negative, declarations⟩ := rule
  simp only [ofClass?, Option.bind_eq_bind]
  constructor
  · intro h
    obtain ⟨⟨utility, tail⟩, hfind, h⟩ := Option.bind_eq_some_iff.mp h
    split at h
    · cases h
    · rename_i hallowed
      obtain ⟨⟨token, value⟩, hvalue, h⟩ := Option.bind_eq_some_iff.mp h
      have hallowed : (takeMark '-' (takeMark '!' cs).2).1 = true →
          utility.category.allowsNegative = true := by
        intro hnegative
        simpa [hnegative] using hallowed
      split at h
      · rename_i hnegative
        obtain ⟨written, hwritten, h⟩ := Option.bind_eq_some_iff.mp h
        cases h
        exact ⟨rfl, rfl, utility, tail, value, written, hfind, rfl, hallowed, hvalue,
          (if_pos hnegative).trans hwritten, rfl⟩
      · rename_i hnegative
        cases h
        exact ⟨rfl, rfl, utility, tail, value, value, hfind, rfl, hallowed, hvalue,
          if_neg hnegative, rfl⟩
  · rintro ⟨rfl, rfl, utility, tail, value, written, hfind, rfl, hallowed, hvalue, hwritten,
      hdeclarations⟩
    rw [hdeclarations]
    refine Option.bind_eq_some_iff.mpr ⟨(utility, tail), hfind, ?_⟩
    rw [if_neg (by simpa using hallowed)]
    refine Option.bind_eq_some_iff.mpr ⟨(token, value), hvalue, ?_⟩
    by_cases hnegative : (takeMark '-' (takeMark '!' cs).2).1 = true
    · rw [if_pos hnegative] at hwritten ⊢
      exact Option.bind_eq_some_iff.mpr ⟨written, hwritten, rfl⟩
    · rw [if_neg hnegative] at hwritten ⊢
      obtain rfl := Option.some.inj hwritten
      rfl

/-- The stages that a class's value passes through. -/
theorem exists_tail_of_ofClass? {theme : Theme} {cs : List Char} {rule : BaseRule}
    (h : ofClass? theme cs = some rule) :
    ∃ (utility : Utility) (tail : Utility.Tail) (value written : String),
      Utility.find? (takeMark '-' (takeMark '!' cs).2).2 = some (utility, tail) ∧
      Utility.tokenValue? theme utility.category tail = some (rule.token, value) ∧
      (if rule.negative then Value.negate? value else some value) = some written ∧
      rule.declarations =
        (if rule.important then (utility.declarations theme written).map Declaration.makeImportant
        else utility.declarations theme written) := by
  obtain ⟨-, -, utility, tail, value, written, hfind, -, -, hvalue, hwritten, hdeclarations⟩ :=
    ofClass?_eq_some_iff.mp h
  exact ⟨utility, tail, value, written, hfind, hvalue, hwritten, hdeclarations⟩

theorem isUtility_of_ofClass? {theme : Theme} {cs : List Char} {rule : BaseRule}
    (h : ofClass? theme cs = some rule) : rule.category.isUtility = true := by
  obtain ⟨-, -, utility, -, -, -, -, hcategory, -⟩ := ofClass?_eq_some_iff.mp h
  rw [hcategory]
  cases utility <;> rfl

/-- A class's value, what negation makes of it, and the declarations of that. -/
theorem ofClass?_eq_some {theme : Theme} {cs : List Char} {rule : BaseRule}
    (h : ofClass? theme cs = some rule) :
    ∃ (utility : Utility) (value written : String),
      ComesFrom theme cs utility.category rule.token value ∧
      (if rule.negative then Value.negate? value else some value) = some written ∧
      rule.declarations =
        (if rule.important then (utility.declarations theme written).map Declaration.makeImportant
        else utility.declarations theme written) := by
  obtain ⟨utility, tail, value, written, hfind, hvalue, hwritten, hdeclarations⟩ :=
    exists_tail_of_ofClass? h
  refine ⟨utility, value, written, ?_, hwritten, hdeclarations⟩
  refine Utility.comesFrom_of_tokenValue? hvalue ?_
  rintro text rfl
  exact ((Utility.suffix_of_find? hfind).trans (takeMark_suffix _ _)).trans (takeMark_suffix _ _)

/-! ### Classes without marks -/

/-- A text that does not begin with a mark of classes. -/
def Unmarked (cs : List Char) : Prop :=
  ∀ c ∈ cs.head?, c ≠ '!' ∧ c ≠ '-'

instance (cs : List Char) : Decidable (Unmarked cs) :=
  decidable_of_iff (cs.head?.all (fun c => c != '!' && c != '-') = true) (by
    cases cs <;> simp [Unmarked])

/-- The rule that a utility makes of a token and its value. -/
def ofValue (theme : Theme) (utility : Utility) (token : TokenRef) (value : String) : BaseRule where
  category := utility.category
  token
  important := false
  negative := false
  declarations := utility.declarations theme value

theorem takeMark_of_head? {mark : Char} {cs : List Char} (h : ∀ c ∈ cs.head?, c ≠ mark) :
    takeMark mark cs = (false, cs) := by
  cases cs with
  | nil => rfl
  | cons c cs => exact if_neg (h c rfl)

/-- The rule of a class, said of what stands behind its marks. -/
theorem ofClass?_iff_of_marks {theme : Theme} {cs mid rest : List Char} {important negative : Bool}
    (himportant : takeMark '!' cs = (important, mid))
    (hnegative : takeMark '-' mid = (negative, rest)) {rule : BaseRule} :
    ofClass? theme cs = some rule ↔
      ∃ (utility : Utility) (tail : Utility.Tail) (token : TokenRef) (value written : String),
        Utility.find? rest = some (utility, tail) ∧
        (negative = true → utility.category.allowsNegative = true) ∧
        Utility.tokenValue? theme utility.category tail = some (token, value) ∧
        (if negative then Value.negate? value else some value) = some written ∧
        rule = ⟨utility.category, token, important, negative,
          if important then (utility.declarations theme written).map Declaration.makeImportant
          else utility.declarations theme written⟩ := by
  rw [ofClass?_eq_some_iff, himportant, hnegative]
  obtain ⟨category, token, important', negative', declarations⟩ := rule
  constructor
  · rintro ⟨himportant, hnegative, utility, tail, value, written, hfind, hcategory, hallowed,
      hvalue, hwritten, hdeclarations⟩
    obtain rfl : important' = important := himportant
    obtain rfl : negative' = negative := hnegative
    obtain rfl := hcategory
    exact ⟨utility, tail, token, value, written, hfind, hallowed, hvalue, hwritten,
      congrArg _ hdeclarations⟩
  · rintro ⟨utility, tail, token, value, written, hfind, hallowed, hvalue, hwritten, hrule⟩
    cases hrule
    exact ⟨rfl, rfl, utility, tail, value, written, hfind, rfl, hallowed, hvalue, hwritten, rfl⟩

/-- **A class without marks** has the rule that its utility makes of its tail's value. -/
theorem ofClass?_unmarked_iff {theme : Theme} {cs : List Char} (hcs : Unmarked cs)
    {rule : BaseRule} :
    ofClass? theme cs = some rule ↔
      ∃ (utility : Utility) (tail : Utility.Tail) (token : TokenRef) (value : String),
        Utility.find? cs = some (utility, tail) ∧
        Utility.tokenValue? theme utility.category tail = some (token, value) ∧
        rule = ofValue theme utility token value := by
  rw [ofClass?_iff_of_marks (takeMark_of_head? fun c hc => (hcs c hc).1)
    (takeMark_of_head? fun c hc => (hcs c hc).2)]
  constructor
  · rintro ⟨utility, tail, token, value, written, hfind, -, hvalue, hwritten, hrule⟩
    obtain rfl := Option.some.inj hwritten
    exact ⟨utility, tail, token, value, hfind, hvalue, hrule⟩
  · rintro ⟨utility, tail, token, value, hfind, hvalue, hrule⟩
    exact ⟨utility, tail, token, value, value, hfind, (fun h => by cases h), hvalue, rfl, hrule⟩

end BaseRule

/-! ### What a utility is there for -/

namespace Utility

/-- The properties that a utility gives its value to. -/
def ownProperties : Utility → List String
  | .scale => ["--tw-scale-x", "--tw-scale-y"]
  | .scaleX => ["--tw-scale-x"]
  | .scaleY => ["--tw-scale-y"]
  | .flex => ["flex"]
  | .transition => ["transition-property"]
  | .duration => ["transition-duration"]
  | .delay => ["transition-delay"]
  | .opacity => ["opacity"]
  | .zIndex => ["z-index"]

theorem ownProperties_isPrefix (theme : Theme) (utility : Utility) (value : String) :
    utility.ownProperties.map (Declaration.mk · value) <+: utility.declarations theme value := by
  cases utility with
  | transition =>
      show [(⟨"transition-property", value⟩ : Declaration)] <+: _
      simp only [declarations]
      split <;> exact ⟨_, rfl⟩
  | _ => exact ⟨_, rfl⟩

end Utility

end AtomicCss
