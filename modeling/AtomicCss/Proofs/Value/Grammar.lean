/-
The grammars of token values, said from the outside.

A value is checked by testing its characters, cutting off units and splitting at white space and
commas.  Here each category's grammar is written as what a value is put together from, and the
check is shown to accept exactly these values.

What counts as a number is left open in the grammars, for two notions are needed.  A number of a
style sheet has digits behind its point if it has one.  The check also takes digits with a point
behind them, such as `5.`, for a number.  This is the only difference: where every point of a
value has a digit behind it, the check accepts exactly the grammar of style sheets.
-/
import AtomicCss.Proofs.Text.Ascii
import AtomicCss.Proofs.Text.Words
import AtomicCss.Proofs.Theme.Resolve

namespace AtomicCss.Value

open Text

/-! ### Numbers -/

/-- At least one digit and nothing else. -/
def IsDigits (cs : List Char) : Prop :=
  cs ≠ [] ∧ ∀ c ∈ cs, c.isDigit = true

/-- The sign of a number, which may be absent. -/
def IsSign (cs : List Char) : Prop :=
  cs = [] ∨ cs = ['-'] ∨ cs = ['+']

/-- A number of a style sheet: an optional sign, then digits, or a point with digits behind it
and perhaps before it. -/
def IsCssNumber (cs : List Char) : Prop :=
  ∃ sign rest, cs = sign ++ rest ∧ IsSign sign ∧
    (IsDigits rest ∨ ∃ whole fraction, rest = whole ++ '.' :: fraction ∧
      (∀ c ∈ whole, c.isDigit = true) ∧ IsDigits fraction)

/-- What is taken for a number: a number of a style sheet, or digits with a point behind them. -/
def IsNumeral (cs : List Char) : Prop :=
  IsCssNumber cs ∨ ∃ sign digits, cs = sign ++ digits ++ ['.'] ∧ IsSign sign ∧ IsDigits digits

theorem count_point {cs : List Char} (h : ∀ c ∈ cs, c.isDigit = true) : cs.count '.' = 0 :=
  List.count_eq_zero.mpr fun hmem => absurd (h '.' hmem) (by decide)

theorem IsCssNumber.isDigit_getLast {cs : List Char} (h : IsCssNumber cs) :
    ∀ c ∈ cs.getLast?, c.isDigit = true := by
  have hdigits : ∀ {front digits : List Char}, IsDigits digits →
      ∀ c ∈ (front ++ digits).getLast?, c.isDigit = true := by
    intro front digits hdigits c hc
    rw [List.getLast?_append_of_ne_nil _ hdigits.1] at hc
    exact hdigits.2 c (List.mem_of_mem_getLast? hc)
  obtain ⟨sign, rest, rfl, -, hrest | ⟨whole, fraction, rfl, -, hfraction⟩⟩ := h
  · exact hdigits hrest
  · rw [← List.append_assoc, List.append_cons]
    exact hdigits hfraction

theorem isUnsignedNumber_iff {cs : List Char} :
    isUnsignedNumber cs = true ↔
      (IsDigits cs ∨ ∃ whole fraction, cs = whole ++ '.' :: fraction ∧
        (∀ c ∈ whole, c.isDigit = true) ∧ IsDigits fraction) ∨
      ∃ digits, cs = digits ++ ['.'] ∧ IsDigits digits := by
  simp only [isUnsignedNumber, Bool.and_eq_true, decide_eq_true_eq, List.all_eq_true,
    List.any_eq_true, Bool.or_eq_true, beq_iff_eq]
  constructor
  · rintro ⟨⟨hall, hcount⟩, c, hc, hdigit⟩
    have hdigits : ∀ {part : List Char}, part ⊆ cs → '.' ∉ part → ∀ x ∈ part, x.isDigit = true :=
      fun hpart hfree x hx => (hall x (hpart hx)).resolve_right fun h => hfree (h ▸ hx)
    by_cases hmem : '.' ∈ cs
    · obtain ⟨whole, fraction, rfl⟩ := List.append_of_mem hmem
      rw [List.count_append, List.count_cons_self] at hcount
      have hwhole := hdigits (List.subset_append_left _ _)
        (List.count_eq_zero.mp (by omega : whole.count '.' = 0))
      have hfraction := hdigits (fun x hx => List.mem_append_right _ (List.mem_cons_of_mem _ hx))
        (List.count_eq_zero.mp (by omega : fraction.count '.' = 0))
      cases fraction with
      | nil =>
          refine .inr ⟨whole, rfl, List.ne_nil_of_mem (a := c) ?_, hwhole⟩
          rcases List.mem_append.mp hc with hc | hc
          · exact hc
          · rw [List.mem_singleton.mp hc] at hdigit
            exact absurd hdigit (by decide)
      | cons x fraction =>
          exact .inl (.inr ⟨whole, _, rfl, hwhole, List.cons_ne_nil _ _, hfraction⟩)
    · exact .inl (.inl ⟨List.ne_nil_of_mem hc, hdigits (List.Subset.refl _) hmem⟩)
  · have hsome : ∀ {digits : List Char}, IsDigits digits → ∃ c ∈ digits, c.isDigit = true := by
      rintro digits ⟨hne, hdigits⟩
      exact ⟨digits.head hne, List.head_mem hne, hdigits _ (List.head_mem hne)⟩
    rintro ((hdigits | ⟨whole, fraction, rfl, hwhole, hfraction⟩) | ⟨digits, rfl, hdigits⟩)
    · refine ⟨⟨fun c hc => .inl (hdigits.2 c hc), ?_⟩, hsome hdigits⟩
      rw [count_point hdigits.2]
      exact Nat.zero_le 1
    · obtain ⟨c, hc, hdigit⟩ := hsome hfraction
      refine ⟨⟨fun x hx => ?_, ?_⟩, c, by simp [hc], hdigit⟩
      · rcases List.mem_append.mp hx with hx | hx
        · exact .inl (hwhole x hx)
        · exact (List.mem_cons.mp hx).symm.imp (hfraction.2 x) id
      · rw [List.count_append, List.count_cons_self, count_point hwhole,
          count_point hfraction.2]
    · obtain ⟨c, hc, hdigit⟩ := hsome hdigits
      refine ⟨⟨fun x hx => ?_, ?_⟩, c, by simp [hc], hdigit⟩
      · exact (List.mem_append.mp hx).imp (hdigits.2 x) List.mem_singleton.mp
      · rw [List.count_append, count_point hdigits.2]
        decide

theorem isNumber_iff_exists {cs : List Char} :
    isNumber cs = true ↔ ∃ sign rest, cs = sign ++ rest ∧ IsSign sign ∧
      isUnsignedNumber rest = true := by
  have hmarks : ∀ c ∈ ['-', '+'], ∀ rest, isUnsignedNumber (c :: rest) = false := by
    intro c hc rest
    have hmark : (c.isDigit || c == '.') = false := by
      rcases List.mem_pair.mp hc with rfl | rfl
      · rfl
      · rfl
    simp [isUnsignedNumber, hmark]
  constructor
  · intro h
    unfold isNumber at h
    split at h
    · exact ⟨['-'], _, rfl, .inr (.inl rfl), h⟩
    · exact ⟨['+'], _, rfl, .inr (.inr rfl), h⟩
    · exact ⟨[], _, rfl, .inl rfl, h⟩
  · rintro ⟨sign, rest, rfl, rfl | rfl | rfl, hrest⟩
    · have hunmarked : ∀ c ∈ ['-', '+'], ∀ tail, [] ++ rest ≠ c :: tail := by
        intro c hc tail heq
        rw [List.nil_append] at heq
        rw [heq, hmarks c hc] at hrest
        cases hrest
      unfold isNumber
      split
      · exact absurd ‹_› (hunmarked '-' (by simp) _)
      · exact absurd ‹_› (hunmarked '+' (by simp) _)
      · exact hrest
    · exact hrest
    · exact hrest

theorem isNumber_iff {cs : List Char} : isNumber cs = true ↔ IsNumeral cs := by
  rw [isNumber_iff_exists]
  constructor
  · rintro ⟨sign, rest, rfl, hsign, hrest⟩
    rcases isUnsignedNumber_iff.mp hrest with hbody | ⟨digits, rfl, hdigits⟩
    · exact .inl ⟨sign, rest, rfl, hsign, hbody⟩
    · exact .inr ⟨sign, digits, (List.append_assoc _ _ _).symm, hsign, hdigits⟩
  · rintro (⟨sign, rest, rfl, hsign, hbody⟩ | ⟨sign, digits, rfl, hsign, hdigits⟩)
    · exact ⟨sign, rest, rfl, hsign, isUnsignedNumber_iff.mpr (.inl hbody)⟩
    · exact ⟨sign, _, List.append_assoc _ _ _, hsign,
        isUnsignedNumber_iff.mpr (.inr ⟨digits, rfl, hdigits⟩)⟩

theorem isInteger_iff {cs : List Char} :
    isInteger cs = true ↔ ∃ digits, (cs = digits ∨ cs = '-' :: digits) ∧ IsDigits digits := by
  have hdigits : ∀ ds : List Char, (!ds.isEmpty && ds.all Char.isDigit) = true ↔ IsDigits ds := by
    intro ds
    simp [IsDigits]
  rw [isInteger, hdigits]
  cases hafter : after? ['-'] cs with
  | some rest =>
      obtain rfl : cs = '-' :: rest := after?_eq_some_iff.mp hafter
      constructor
      · intro h
        exact ⟨rest, .inr rfl, h⟩
      · rintro ⟨digits, rfl | heq, hds⟩
        · exact absurd (hds.2 '-' List.mem_cons_self) (by decide)
        · rwa [(List.cons.inj heq).2]
  | none =>
      constructor
      · intro h
        exact ⟨cs, .inl rfl, h⟩
      · rintro ⟨digits, rfl | rfl, hds⟩
        · exact hds
        · rw [show '-' :: digits = ['-'] ++ digits from rfl, after?_append] at hafter
          cases hafter

/-! ### The grammars, for a notion of numbers -/

/-- A number without plus sign, directly followed by one of `units`. -/
def IsMeasure (Number : List Char → Prop) (units : List String) (cs : List Char) : Prop :=
  ∃ number unit, unit ∈ units ∧ cs = number ++ unit.toList ∧ Number number ∧
    number.head? ≠ some '+'

/-- A component of the flex shorthand: a number, a keyword, a percentage or a length. -/
def IsComponent (Number : List Char → Prop) (cs : List Char) : Prop :=
  Number cs ∨ String.ofList cs ∈ ["auto", "content"] ∨ IsMeasure Number ["%"] cs ∨
    IsMeasure Number lengthUnits cs

/-- A name of lower-case letters, digits and hyphens. -/
def IsName (cs : List Char) : Prop :=
  cs ≠ [] ∧ ∀ c ∈ cs, c.isLower = true ∨ c.isDigit = true ∨ c = '-'

/-- Names with commas between them, and white space around each name. -/
def IsNameList (cs : List Char) : Prop :=
  ∃ pieces, pieces ≠ [] ∧ cs = [','].intercalate pieces ∧ ∀ piece ∈ pieces,
    ∃ before name after, piece = before ++ name ++ after ∧
      (∀ c ∈ before ++ after, isBlank c = true) ∧ IsName name

/-- The values of a category. -/
def Grammar (Number : List Char → Prop) : Category → List Char → Prop
  | .scale, cs | .opacity, cs => Number cs
  | .zIndex, cs =>
    String.ofList cs = "auto" ∨ ∃ digits, (cs = digits ∨ cs = '-' :: digits) ∧ IsDigits digits
  | .transitionDelay, cs | .transitionDuration, cs =>
    String.ofList cs = "0" ∨ IsMeasure Number ["ms", "s"] cs
  | .screens, cs => String.ofList cs = "0" ∨ IsMeasure Number lengthUnits cs
  | .flex, cs =>
    String.ofList cs ∈ ["none", "auto", "initial", "inherit"] ∨
      ∃ parts, parts.length ∈ [1, 2, 3] ∧ Spaced parts cs ∧ ∀ part ∈ parts, IsComponent Number part
  | .transitionProperty, cs => IsNameList cs

theorem hasUnit_iff {units : List String} {cs : List Char} :
    hasUnit units cs = true ↔ IsMeasure IsNumeral units cs := by
  rw [hasUnit, List.any_eq_true]
  constructor
  · rintro ⟨unit, hunit, h⟩
    split at h
    · rename_i number hnumber
      simp only [Bool.and_eq_true, bne_iff_ne] at h
      exact ⟨number, unit, hunit, before?_eq_some_iff.mp hnumber, isNumber_iff.mp h.1, h.2⟩
    · cases h
  · rintro ⟨number, unit, hunit, rfl, hnumber, hplus⟩
    refine ⟨unit, hunit, ?_⟩
    rw [before?_append]
    simp only [Bool.and_eq_true, bne_iff_ne]
    exact ⟨isNumber_iff.mpr hnumber, hplus⟩

theorem eq_toList_iff {cs : List Char} {s : String} :
    (cs == s.toList) = true ↔ String.ofList cs = s := by
  rw [beq_iff_eq]
  constructor
  · rintro rfl
    exact String.ofList_toList
  · rintro rfl
    exact (String.toList_ofList).symm

theorem isFlexComponent_iff {cs : List Char} :
    isFlexComponent cs = true ↔ IsComponent IsNumeral cs := by
  rw [isFlexComponent, IsComponent, Bool.or_eq_true, Bool.or_eq_true, Bool.or_eq_true,
    Bool.or_eq_true, isNumber_iff, hasUnit_iff, hasUnit_iff, eq_toList_iff, eq_toList_iff]
  simp [or_assoc]

/-- A value without white space at its ends is cut into its components at the white space. -/
theorem isFlexShorthand_trim_iff (cs : List Char) :
    isFlexShorthand (trim cs) = true ↔ Grammar IsNumeral .flex (trim cs) := by
  have hparts : ∀ parts : List (List Char),
      (!parts.isEmpty && decide (parts.length ≤ 3) && parts.all isFlexComponent) = true ↔
        parts.length ∈ [1, 2, 3] ∧ ∀ part ∈ parts, IsComponent IsNumeral part := by
    intro parts
    have hlength : (!parts.isEmpty) = true ∧ parts.length ≤ 3 ↔ parts.length ∈ [1, 2, 3] := by
      cases parts with
      | nil => simp
      | cons part parts =>
          simp only [List.isEmpty_cons, Bool.not_false, true_and, List.length_cons, List.mem_cons,
            List.not_mem_nil, or_false]
          omega
    rw [Bool.and_eq_true, Bool.and_eq_true, decide_eq_true_eq, hlength, List.all_eq_true]
    simp only [isFlexComponent_iff]
  rw [isFlexShorthand, Bool.or_eq_true, List.contains_iff_mem]
  refine or_congr Iff.rfl ((hparts _).trans ⟨?_, ?_⟩)
  · rintro ⟨hlength, hcomponents⟩
    have hne : trim cs ≠ [] := by
      intro hnil
      rw [hnil] at hlength
      exact absurd hlength (by decide)
    obtain ⟨hhead, hlast⟩ := ends_dropWhile_dropEndWhile isBlank cs
    exact ⟨_, hlength, spaced_words hne hhead hlast, hcomponents⟩
  · rintro ⟨parts, hlength, hspaced, hcomponents⟩
    rw [words_of_spaced hspaced]
    exact ⟨hlength, hcomponents⟩

theorem isPropertyName_iff {cs : List Char} : isPropertyName cs = true ↔ IsName cs := by
  simp [isPropertyName, IsName, or_assoc]

theorem IsName.apart {cs : List Char} (h : IsName cs) :
    ∀ c ∈ cs, c ≠ ',' ∧ isBlank c = false := by
  intro c hc
  have halphanum : c.isAlphanum = (c.isUpper || c.isLower || c.isDigit) := rfl
  have hascii : c.toNat < 128 := by
    rcases h.2 c hc with hlower | hdigit | rfl
    · exact toNat_lt_of_isAlphanum (by simp [halphanum, hlower])
    · exact toNat_lt_of_isAlphanum (by simp [halphanum, hdigit])
    · decide
  have hname := h.2 c hc
  revert hname
  exact forall_ascii (P := fun c => (c.isLower = true ∨ c.isDigit = true ∨ c = '-') →
    c ≠ ',' ∧ isBlank c = false) (by decide +kernel) hascii

theorem trim_of_isName {before name after : List Char}
    (hblank : ∀ c ∈ before ++ after, isBlank c = true) (hname : IsName name) :
    trim (before ++ name ++ after) = name :=
  dropEndWhile_dropWhile_append (fun c hc => hblank c (List.mem_append_left _ hc))
    (fun c hc => hblank c (List.mem_append_right _ hc)) hname.1
    (fun c hc => (hname.apart c (List.mem_of_mem_head? hc)).2)
    (fun c hc => (hname.apart c (List.mem_of_mem_getLast? hc)).2)

theorem comma_notMem_of_isName {before name after : List Char}
    (hblank : ∀ c ∈ before ++ after, isBlank c = true) (hname : IsName name) :
    ',' ∉ before ++ name ++ after := by
  intro hcomma
  have haround : ',' ∉ before ++ after := fun hmem => absurd (hblank ',' hmem) (by decide)
  rw [List.mem_append, List.mem_append] at hcomma
  rcases hcomma with (hbefore | hinside) | hafter
  · exact haround (List.mem_append_left _ hbefore)
  · exact (hname.apart ',' hinside).1 rfl
  · exact haround (List.mem_append_right _ hafter)

theorem isPropertyList_iff {cs : List Char} : isPropertyList cs = true ↔ IsNameList cs := by
  rw [isPropertyList, List.all_eq_true]
  simp only [isPropertyName_iff]
  constructor
  · intro h
    refine ⟨cs.splitOnP (· == ','), List.splitOnP_ne_nil _ _, (List.intercalate_splitOn ',').symm,
      fun piece hpiece => ?_⟩
    obtain ⟨before, after, hparts, hbefore, hafter⟩ := exists_trim piece
    exact ⟨before, trim piece, after, hparts,
      fun c hc => (List.mem_append.mp hc).elim (hbefore c) (hafter c), h piece hpiece⟩
  · rintro ⟨pieces, hne, rfl, hpieces⟩ piece hpiece
    have hfree : ∀ piece ∈ pieces, ',' ∉ piece := by
      intro piece hpiece
      obtain ⟨before, name, after, rfl, hblank, hname⟩ := hpieces piece hpiece
      exact comma_notMem_of_isName hblank hname
    have hsplit : ([','].intercalate pieces).splitOnP (· == ',') = pieces :=
      List.splitOn_intercalate ',' hfree hne
    rw [hsplit] at hpiece
    obtain ⟨before, name, after, rfl, hblank, hname⟩ := hpieces piece hpiece
    rwa [trim_of_isName hblank hname]

/-- **The check accepts what the grammar of its category has**, with numerals for numbers. -/
theorem acceptsTrimmed_trim_iff (category : Category) (cs : List Char) :
    category.valueKind.acceptsTrimmed (trim cs) = true ↔ Grammar IsNumeral category (trim cs) := by
  have hzero : (trim cs == ['0']) = true ↔ String.ofList (trim cs) = "0" :=
    eq_toList_iff (s := "0")
  cases category with
  | scale | opacity => exact isNumber_iff
  | zIndex =>
      refine Bool.or_eq_true_iff.trans (or_congr eq_toList_iff isInteger_iff)
  | flex => exact isFlexShorthand_trim_iff cs
  | transitionDelay | transitionDuration | screens =>
      exact Bool.or_eq_true_iff.trans (or_congr hzero hasUnit_iff)
  | transitionProperty => exact isPropertyList_iff

/-! ### Points with nothing behind them -/

/-- Whether every point has a digit behind it. -/
def pointsLead : List Char → Bool
  | [] => true
  | c :: cs => (c != '.' || cs.head?.any Char.isDigit) && pointsLead cs

theorem isDigit_of_pointsLead {before after : List Char}
    (h : pointsLead (before ++ '.' :: after) = true) : after.head?.any Char.isDigit = true := by
  induction before with
  | nil =>
      simp only [List.nil_append, pointsLead, Bool.and_eq_true] at h
      simpa using h.1
  | cons c before ih =>
      simp only [List.cons_append, pointsLead, Bool.and_eq_true] at h
      exact ih h.2

/-- A numeral with no digit behind it, in a text whose points have digits behind them, is a
number of a style sheet. -/
theorem isCssNumber_of_pointsLead {before number after : List Char}
    (hlead : pointsLead (before ++ (number ++ after)) = true)
    (hafter : ∀ c ∈ after.head?, c.isDigit = false) (h : IsNumeral number) :
    IsCssNumber number := by
  rcases h with h | ⟨sign, digits, rfl, -, -⟩
  · exact h
  · have hpoint : pointsLead ((before ++ (sign ++ digits)) ++ '.' :: after) = true := by
      simpa using hlead
    have := isDigit_of_pointsLead hpoint
    cases after with
    | nil => cases this
    | cons c after =>
        have hdigit : c.isDigit = true := this
        rw [hafter c rfl] at hdigit
        cases hdigit

/-- A word of a text has white space behind it, if anything. -/
theorem exists_append_of_spaced {parts : List (List Char)} {cs : List Char}
    (h : Spaced parts cs) : ∀ part ∈ parts, ∃ before after, cs = before ++ (part ++ after) ∧
      ∀ c ∈ after.head?, isBlank c = true := by
  induction h with
  | last =>
      intro part hpart
      rw [List.mem_singleton.mp hpart]
      exact ⟨[], [], by simp, by simp⟩
  | @cons word gap cs rest _ _ hgap hblank _ ih =>
      intro part hpart
      rcases List.mem_cons.mp hpart with rfl | hpart
      · refine ⟨[], gap ++ cs, rfl, fun c hc => ?_⟩
        rw [List.head?_append_of_ne_nil _ hgap] at hc
        exact hblank c (List.mem_of_mem_head? hc)
      · obtain ⟨before, after, rfl, hafter⟩ := ih part hpart
        exact ⟨word ++ (gap ++ before), after, by simp, hafter⟩

theorem not_isDigit_of_isBlank {c : Char} (h : isBlank c = true) : c.isDigit = false := by
  by_contra hdigit
  have hdigit : c.isDigit = true := by simpa using hdigit
  have hascii := toNat_lt_of_isAlphanum (by simp [Char.isAlphanum, hdigit] : c.isAlphanum = true)
  have hblank := forall_ascii (P := fun c => c.isDigit = true → isBlank c = false)
    (by decide +kernel) hascii hdigit
  rw [h] at hblank
  cases hblank

/-- The numbers of a value have no digits behind them.  So where one notion of numbers implies
another on such stretches of the value, it does so for the grammar. -/
theorem Grammar.imp {N M : List Char → Prop} {category : Category} {cs : List Char}
    (h : ∀ before number after, cs = before ++ (number ++ after) →
      (∀ c ∈ after.head?, c.isDigit = false) → N number → M number)
    (hcs : Grammar N category cs) : Grammar M category cs := by
  have hwhole : N cs → M cs := h [] cs [] (by simp) (by simp)
  have hmeasure : ∀ {units : List String},
      (∀ unit ∈ units, (unit.toList.head?.any fun c => !c.isDigit) = true) →
      ∀ before part after, cs = before ++ (part ++ after) →
        IsMeasure N units part → IsMeasure M units part := by
    rintro units hunits before _ after hparts ⟨number, unit, hunit, rfl, hnumber, hplus⟩
    refine ⟨number, unit, hunit, rfl, h before number (unit.toList ++ after) ?_ ?_ hnumber, hplus⟩
    · rw [hparts, List.append_assoc]
    · have hhead := hunits unit hunit
      cases hchars : unit.toList with
      | nil =>
          rw [hchars] at hhead
          cases hhead
      | cons x rest =>
          rw [hchars] at hhead
          intro c hc
          obtain rfl : x = c := Option.some.inj hc
          simpa using hhead
  have hends : cs = [] ++ (cs ++ []) := by simp
  cases category with
  | scale | opacity => exact hwhole hcs
  | zIndex | transitionProperty => exact hcs
  | transitionDelay | transitionDuration | screens =>
      exact Or.imp id (hmeasure (by decide) [] cs [] hends) hcs
  | flex =>
      rcases hcs with hkeyword | ⟨parts, hlength, hspaced, hcomponents⟩
      · exact .inl hkeyword
      refine .inr ⟨parts, hlength, hspaced, fun part hpart => ?_⟩
      obtain ⟨before, after, hparts, hafter⟩ := exists_append_of_spaced hspaced part hpart
      rcases hcomponents part hpart with hnumber | hkeyword | hpercentage | hlength
      · exact .inl (h before part after hparts
          (fun c hc => not_isDigit_of_isBlank (hafter c hc)) hnumber)
      · exact .inr (.inl hkeyword)
      · exact .inr (.inr (.inl (hmeasure (by decide) before part after hparts hpercentage)))
      · exact .inr (.inr (.inr (hmeasure (by decide) before part after hparts hlength)))

/-! ### The check of a token -/

/--
**A token passes its check exactly if its trimmed value is in the grammar of its category**, where
digits with a point behind them count as a number.  If every point of the value has a digit behind
it, these are the values that the category has in a style sheet.
-/
theorem checkToken_eq_ok_iff_grammar (category : Category) (token value : String) :
    (Theme.checkToken category token value = .ok () ↔
        Grammar IsNumeral category (trim value.toList)) ∧
      (pointsLead (trim value.toList) = true →
        (Theme.checkToken category token value = .ok () ↔
          Grammar IsCssNumber category (trim value.toList))) := by
  have hcheck : Theme.checkToken category token value = .ok () ↔
      Grammar IsNumeral category (trim value.toList) :=
    Theme.checkToken_eq_ok.trans (acceptsTrimmed_trim_iff category value.toList)
  refine ⟨hcheck, fun hlead => hcheck.trans ⟨Grammar.imp ?_, Grammar.imp ?_⟩⟩
  · intro before number after hparts hafter hnumber
    rw [hparts] at hlead
    exact isCssNumber_of_pointsLead hlead hafter hnumber
  · intro _ _ _ _ _ hnumber
    exact .inl hnumber

/-- A shorthand of three components with white space around it. -/
theorem checkToken_eq_ok_iff_grammar_flex :
    pointsLead (trim "\t-.5 +2  10rem ".toList) = true ∧
      Theme.checkToken .flex "x" "\t-.5 +2  10rem " = .ok () ∧
      Grammar IsCssNumber .flex (trim "\t-.5 +2  10rem ".toList) := by
  have hlead : pointsLead (trim "\t-.5 +2  10rem ".toList) = true := by decide +kernel
  have hcheck : Theme.checkToken .flex "x" "\t-.5 +2  10rem " = .ok () := by decide +kernel
  exact ⟨hlead, hcheck, ((checkToken_eq_ok_iff_grammar .flex "x" _).2 hlead).mp hcheck⟩

/-- A number that ends with its point passes the check, though it is no number of a style
sheet. -/
theorem not_grammar_of_checkToken_pointed :
    Theme.checkToken .scale "x" "5." = .ok () ∧
      ¬ Grammar IsCssNumber .scale (trim "5.".toList) := by
  refine ⟨by decide +kernel, fun h => ?_⟩
  have hnumber : IsCssNumber ['5', '.'] := h
  exact absurd (hnumber.isDigit_getLast '.' rfl) (by decide)

end AtomicCss.Value
