/-
What values of tokens are written with.

Every kind of value has a grammar, and all of them draw on one small alphabet: ASCII letters
and digits, the marks of numbers, the percent sign, the comma, and white space.  A value that
passes its category's check is written in this alphabet, so a character that a value must not
have is ruled out for all kinds at once by looking for it here.

The alphabet has no bracket, no slash and no backslash.  So the value of a token is neutral: it
opens nothing, and leaves nothing open wherever it is written.
-/
import AtomicCss.Proofs.Value.SelfContained
import AtomicCss.Theme.Value

namespace AtomicCss.Value

open Text

/-- The characters of token values. -/
def isTokenChar (c : Char) : Bool :=
  c.isAlphanum || ['+', '-', '.', '%', ','].contains c || isBlank c

/-- A text of nothing but characters of token values. -/
def TokenText (cs : List Char) : Prop :=
  ∀ c ∈ cs, isTokenChar c = true

instance (cs : List Char) : Decidable (TokenText cs) :=
  decidable_of_iff (cs.all isTokenChar = true) List.all_eq_true

theorem TokenText.append {cs ds : List Char} (hcs : TokenText cs) (hds : TokenText ds) :
    TokenText (cs ++ ds) := by
  intro c hc
  rcases List.mem_append.mp hc with hc | hc
  · exact hcs c hc
  · exact hds c hc

/-- Characters that pass a test which only characters of token values pass. -/
theorem tokenText_of_all {p : Char → Bool} {cs : List Char} (h : cs.all p = true)
    (hp : ∀ c, p c = true → isTokenChar c = true) : TokenText cs :=
  fun c hc => hp c (List.all_eq_true.mp h c hc)

theorem isTokenChar_of_isDigit {c : Char} (h : c.isDigit = true) : isTokenChar c = true := by
  simp [isTokenChar, Char.isAlphanum, h]

theorem isTokenChar_of_isBlank {c : Char} (h : isBlank c = true) : isTokenChar c = true := by
  simp [isTokenChar, h]

theorem tokenText_trim {cs : List Char} (h : TokenText (trim cs)) : TokenText cs := by
  intro c hc
  rcases mem_trim hc with hblank | hc
  · exact isTokenChar_of_isBlank hblank
  · exact h c hc

/-! ### The grammars -/

theorem tokenText_of_isUnsignedNumber {cs : List Char} (h : isUnsignedNumber cs = true) :
    TokenText cs := by
  simp only [isUnsignedNumber, Bool.and_eq_true] at h
  refine tokenText_of_all h.1.1 fun c hc => ?_
  rcases Bool.or_eq_true_iff.mp hc with hdigit | hpoint
  · exact isTokenChar_of_isDigit hdigit
  · rw [beq_iff_eq.mp hpoint]
    decide

theorem tokenText_of_isNumber {cs : List Char} (h : isNumber cs = true) : TokenText cs := by
  have hsigns : TokenText ['-'] ∧ TokenText ['+'] := by decide
  unfold isNumber at h
  split at h
  · exact hsigns.1.append (tokenText_of_isUnsignedNumber h)
  · exact hsigns.2.append (tokenText_of_isUnsignedNumber h)
  · exact tokenText_of_isUnsignedNumber h

theorem tokenText_of_isInteger {cs : List Char} (h : isInteger cs = true) : TokenText cs := by
  simp only [isInteger, Bool.and_eq_true] at h
  have hdigits := tokenText_of_all h.2 fun c => isTokenChar_of_isDigit
  cases hafter : after? ['-'] cs with
  | none => rwa [hafter] at hdigits
  | some digits =>
      rw [hafter] at hdigits
      rw [after?_eq_some_iff.mp hafter]
      exact TokenText.append (by decide) hdigits

theorem tokenText_of_hasUnit {units : List String} {cs : List Char}
    (h : hasUnit units cs = true) (hunits : ∀ unit ∈ units, TokenText unit.toList) :
    TokenText cs := by
  obtain ⟨unit, hmem, h⟩ := List.any_eq_true.mp h
  split at h
  · rename_i number hnumber
    rw [before?_eq_some_iff.mp hnumber]
    exact (tokenText_of_isNumber (Bool.and_eq_true_iff.mp h).1).append (hunits unit hmem)
  · cases h

theorem tokenText_of_isMeasure {units : List String} {cs : List Char}
    (h : (cs == ['0'] || hasUnit units cs) = true)
    (hunits : ∀ unit ∈ units, TokenText unit.toList) : TokenText cs := by
  rcases Bool.or_eq_true_iff.mp h with h | h
  · rw [beq_iff_eq.mp h]
    decide
  · exact tokenText_of_hasUnit h hunits

theorem tokenText_of_isFlexComponent {cs : List Char} (h : isFlexComponent cs = true) :
    TokenText cs := by
  simp only [isFlexComponent, Bool.or_eq_true, beq_iff_eq] at h
  rcases h with (((h | rfl) | rfl) | h) | h
  · exact tokenText_of_isNumber h
  · decide
  · decide
  · exact tokenText_of_hasUnit h (by decide)
  · exact tokenText_of_hasUnit h (by decide)

theorem tokenText_of_isFlexShorthand {cs : List Char} (h : isFlexShorthand cs = true) :
    TokenText cs := by
  have hkeywords : ∀ s ∈ ["none", "auto", "initial", "inherit"], TokenText s.toList := by decide
  simp only [isFlexShorthand, Bool.or_eq_true, Bool.and_eq_true, List.contains_iff_mem] at h
  rcases h with h | ⟨-, hparts⟩
  · simpa using hkeywords _ h
  · intro c hc
    rcases mem_words hc with hblank | ⟨word, hword, hc⟩
    · exact isTokenChar_of_isBlank hblank
    · exact tokenText_of_isFlexComponent (List.all_eq_true.mp hparts word hword) c hc

theorem tokenText_of_isPropertyName {cs : List Char} (h : isPropertyName cs = true) :
    TokenText cs := by
  simp only [isPropertyName, Bool.and_eq_true] at h
  refine tokenText_of_all h.2 fun c hc => ?_
  simp only [Bool.or_eq_true, beq_iff_eq] at hc
  rcases hc with (hlower | hdigit) | rfl
  · have halpha : c.isAlpha = true := Bool.or_eq_true_iff.mpr (.inr hlower)
    simp [isTokenChar, Char.isAlphanum, halpha]
  · exact isTokenChar_of_isDigit hdigit
  · decide

theorem tokenText_of_isPropertyList {cs : List Char} (h : isPropertyList cs = true) :
    TokenText cs := by
  intro c hc
  rcases mem_splitOnP (p := (· == ',')) hc with hcomma | ⟨name, hname, hc⟩
  · rw [beq_iff_eq.mp hcomma]
    decide
  · exact tokenText_trim (tokenText_of_isPropertyName (List.all_eq_true.mp h name hname)) c hc

/-- **Values of every kind are written in one alphabet.** -/
theorem tokenText_of_acceptsTrimmed {kind : ValueKind} {cs : List Char}
    (h : kind.acceptsTrimmed cs = true) : TokenText cs := by
  cases kind with
  | number => exact tokenText_of_isNumber h
  | zIndex =>
      rcases Bool.or_eq_true_iff.mp h with h | h
      · rw [beq_iff_eq.mp h]
        decide
      · exact tokenText_of_isInteger h
  | flex => exact tokenText_of_isFlexShorthand h
  | time | length => exact tokenText_of_isMeasure h (by decide)
  | propertyList => exact tokenText_of_isPropertyList h

theorem TokenText.neutral {cs : List Char} (h : TokenText cs) : Neutral cs := by
  have hstructural : structural.any isTokenChar = false := by decide
  exact fun c hc hmem => List.any_eq_false.mp hstructural c hmem (h c hc)

end AtomicCss.Value
