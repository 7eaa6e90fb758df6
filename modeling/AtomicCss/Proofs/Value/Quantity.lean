/-
The numbers among the values.

What is taken for a number is a numeral, perhaps with a sign in front, and exactly these stand for
a rational number.

Negating changes the text of a number, and by that the number to its opposite: a minus sign is
taken off, a plus sign is exchanged for it, and otherwise it is put on.  Zeros without a sign stay as
they are, for zero is its own opposite.
-/
import AtomicCss.Proofs.Decimal.Numeral
import AtomicCss.Proofs.Value.Grammar
import AtomicCss.Utility.Negate

namespace AtomicCss

open Text

namespace Value

open Decimal

/-- The number that a text stands for. -/
def number? : List Char → Option ℚ
  | '-' :: cs => (Scaled.ofNumeral? cs).map fun s => -s.toRat
  | '+' :: cs => (Scaled.ofNumeral? cs).map Scaled.toRat
  | cs => (Scaled.ofNumeral? cs).map Scaled.toRat

/-- A number is a numeral behind a minus sign, behind a plus sign, or without sign. -/
theorem number?_eq_some_iff {cs : List Char} {q : ℚ} :
    number? cs = some q ↔
      ∃ rest s, Scaled.ofNumeral? rest = some s ∧
        (cs = '-' :: rest ∧ q = -s.toRat ∨ cs = '+' :: rest ∧ q = s.toRat ∨
          cs = rest ∧ q = s.toRat) := by
  constructor
  · intro h
    unfold number? at h
    split at h
    · obtain ⟨s, hs, rfl⟩ := Option.map_eq_some_iff.mp h
      exact ⟨_, s, hs, .inl ⟨rfl, rfl⟩⟩
    · obtain ⟨s, hs, rfl⟩ := Option.map_eq_some_iff.mp h
      exact ⟨_, s, hs, .inr (.inl ⟨rfl, rfl⟩)⟩
    · obtain ⟨s, hs, rfl⟩ := Option.map_eq_some_iff.mp h
      exact ⟨_, s, hs, .inr (.inr ⟨rfl, rfl⟩)⟩
  · rintro ⟨rest, s, hs, ⟨rfl, rfl⟩ | ⟨rfl, rfl⟩ | ⟨rfl, rfl⟩⟩
    · exact Option.map_eq_some_iff.mpr ⟨s, hs, rfl⟩
    · exact Option.map_eq_some_iff.mpr ⟨s, hs, rfl⟩
    · have hunsigned := Scaled.head?_of_ofNumeral? hs
      unfold number?
      split
      · exact absurd rfl (hunsigned '-' rfl).1
      · exact absurd rfl (hunsigned '+' rfl).2
      · exact Option.map_eq_some_iff.mpr ⟨s, hs, rfl⟩

example : number? "-1.50".toList = some (-3 / 2) := by decide +kernel

theorem isUnsignedNumber_iff_exists {cs : List Char} :
    isUnsignedNumber cs = true ↔ ∃ s, Scaled.ofNumeral? cs = some s := by
  simp only [Scaled.ofNumeral?_eq_some_iff]
  rw [isUnsignedNumber_iff]
  constructor
  · rintro ((hdigits | ⟨whole, fraction, rfl, hwhole, hfraction⟩) | ⟨digits, rfl, hdigits⟩)
    · exact ⟨_, cs, [], ⟨.inl ⟨rfl, rfl⟩, by simpa using hdigits.1, by simpa using hdigits.2⟩, rfl⟩
    · exact ⟨_, whole, fraction, ⟨.inr rfl, List.append_ne_nil_of_right_ne_nil _ hfraction.1,
        List.forall_mem_append.mpr ⟨hwhole, hfraction.2⟩⟩, rfl⟩
    · exact ⟨_, digits, [], ⟨.inr rfl, by simpa using hdigits.1, by simpa using hdigits.2⟩, rfl⟩
  · rintro ⟨s, whole, fraction, ⟨hform, hne, hdigits⟩, -⟩
    obtain ⟨hwhole, hfraction⟩ := List.forall_mem_append.mp hdigits
    rcases hform with ⟨rfl, rfl⟩ | rfl
    · exact .inl (.inl ⟨by simpa using hne, hwhole⟩)
    · cases fraction with
      | nil => exact .inr ⟨whole, rfl, by simpa using hne, hwhole⟩
      | cons c fraction =>
          exact .inl (.inr ⟨whole, _, rfl, hwhole, List.cons_ne_nil _ _, hfraction⟩)

/-- **What is taken for a number stands for one**, and nothing else does. -/
theorem isNumber_iff_number? {cs : List Char} :
    isNumber cs = true ↔ ∃ q, number? cs = some q := by
  simp only [number?_eq_some_iff]
  rw [isNumber_iff_exists]
  constructor
  · rintro ⟨sign, rest, rfl, hsign, hrest⟩
    obtain ⟨s, hs⟩ := isUnsignedNumber_iff_exists.mp hrest
    rcases hsign with rfl | rfl | rfl
    · exact ⟨_, rest, s, hs, .inr (.inr ⟨rfl, rfl⟩)⟩
    · exact ⟨_, rest, s, hs, .inl ⟨rfl, rfl⟩⟩
    · exact ⟨_, rest, s, hs, .inr (.inl ⟨rfl, rfl⟩)⟩
  · rintro ⟨q, rest, s, hs, hform⟩
    have hrest := isUnsignedNumber_iff_exists.mpr ⟨s, hs⟩
    rcases hform with ⟨rfl, -⟩ | ⟨rfl, -⟩ | ⟨rfl, -⟩
    · exact ⟨['-'], rest, rfl, .inr (.inl rfl), hrest⟩
    · exact ⟨['+'], rest, rfl, .inr (.inr rfl), hrest⟩
    · exact ⟨[], cs, rfl, .inl rfl, hrest⟩

theorem exists_isDigit_of_isNumber {cs : List Char} (h : isNumber cs = true) :
    ∃ c ∈ cs, c.isDigit = true := by
  obtain ⟨sign, rest, rfl, -, hrest⟩ := isNumber_iff_exists.mp h
  obtain ⟨c, hc, hdigit⟩ := List.any_eq_true.mp (Bool.and_eq_true_iff.mp hrest).2
  exact ⟨c, List.mem_append_right _ hc, hdigit⟩

/-! ### The negative of a number -/

theorem isPlainZero_iff {cs : List Char} :
    isPlainZero cs = true ↔ ∀ c ∈ cs, c = '0' ∨ c = '.' := by
  simp [isPlainZero]

theorem negateNumber_of_isPlainZero {cs : List Char} (h : isPlainZero cs = true) :
    negateNumber cs = cs :=
  if_pos h

theorem negateNumber_minus (rest : List Char) : negateNumber ('-' :: rest) = rest := rfl

theorem negateNumber_plus {rest : List Char} (h : ∀ c ∈ rest.head?, c ≠ '+') :
    negateNumber ('+' :: rest) = '-' :: rest := by
  show '-' :: rest.dropWhile (· == '+') = '-' :: rest
  rw [dropWhile_eq_self fun c hc => by simpa using h c hc]

theorem negateNumber_unsigned {rest : List Char} (h : ∀ c ∈ rest.head?, c ≠ '-' ∧ c ≠ '+')
    (hzero : isPlainZero rest = false) : negateNumber rest = '-' :: rest := by
  unfold negateNumber
  rw [if_neg (by simp [hzero])]
  split
  · exact absurd rfl (h '-' rfl).1
  · rw [dropWhile_eq_self fun c hc => by simpa using (h c hc).2]

/-- **The negative of a numeral stands for the opposite number.** -/
theorem number?_negateNumber {cs : List Char} {q : ℚ} (h : number? cs = some q) :
    number? (negateNumber cs) = some (-q) := by
  obtain ⟨rest, s, hs, hform⟩ := number?_eq_some_iff.mp h
  have hunsigned := Scaled.head?_of_ofNumeral? hs
  rw [number?_eq_some_iff]
  rcases hform with ⟨rfl, rfl⟩ | ⟨rfl, rfl⟩ | ⟨rfl, rfl⟩
  · exact ⟨rest, s, hs, .inr (.inr ⟨negateNumber_minus rest, neg_neg _⟩)⟩
  · exact ⟨rest, s, hs, .inl ⟨negateNumber_plus fun c hc => (hunsigned c hc).2, rfl⟩⟩
  · by_cases hzero : isPlainZero cs = true
    · refine ⟨cs, s, hs, .inr (.inr ⟨negateNumber_of_isPlainZero hzero, ?_⟩)⟩
      rw [Scaled.toRat_of_zeros hs (isPlainZero_iff.mp hzero), neg_zero]
    · exact ⟨cs, s, hs, .inl ⟨negateNumber_unsigned hunsigned (Bool.eq_false_iff.mpr hzero), rfl⟩⟩

/-! ### The negative of a value -/

/-- What is written for the negative of a value: the opposite number, zeros without sign being
left alone, or a product for what is no number. -/
structure IsNegative (value written : String) : Prop where
  number : isNumber (trim value.toList) = true →
    isNumber written.toList = true ∧
      ∃ q, number? (trim value.toList) = some q ∧ number? written.toList = some (-q)
  zero : isNumber (trim value.toList) = true → isPlainZero (trim value.toList) = true →
    written = trimmed value
  other : isNumber (trim value.toList) = false → written = "calc(" ++ trimmed value ++ " * -1)"

theorem isNegative_of_negate? {value written : String} (h : negate? value = some written) :
    IsNegative value written := by
  simp only [negate?] at h
  split at h
  · rename_i hnumber
    obtain rfl := Option.some.inj h
    refine ⟨fun _ => ?_, fun _ hzero => ?_, fun hother => by simp [hnumber] at hother⟩
    · obtain ⟨q, hq⟩ := isNumber_iff_number?.mp hnumber
      have hnegative := number?_negateNumber hq
      rw [String.toList_ofList]
      exact ⟨isNumber_iff_number?.mpr ⟨-q, hnegative⟩, q, hq, hnegative⟩
    · rw [negateNumber_of_isPlainZero hzero, trimmed]
  · rename_i hother
    split at h
    · cases h
    · obtain rfl := Option.some.inj h
      refine ⟨fun hnumber => absurd hnumber hother, fun hnumber => absurd hnumber hother, fun _ => ?_⟩
      have htrimmed : (trimmed value).toList = trim value.toList := String.toList_ofList
      apply String.toList_inj.mp
      rw [String.toList_append, String.toList_append, htrimmed]
      exact String.toList_ofList

/-- **Only keywords have no negative.** -/
theorem exists_negate?_iff {value : String} :
    (∃ written, negate? value = some written) ↔
      ¬ ∀ c ∈ trim value.toList, c.isAlpha = true ∨ c = '-' := by
  have hkeyword : isKeyword (trim value.toList) = true ↔
      ∀ c ∈ trim value.toList, c.isAlpha = true ∨ c = '-' := by
    simp [isKeyword]
  rw [← hkeyword]
  simp only [negate?]
  split
  · rename_i hnumber
    refine iff_of_true ⟨_, rfl⟩ fun h => ?_
    obtain ⟨c, hc, hdigit⟩ := exists_isDigit_of_isNumber hnumber
    have hascii : c.toNat < 128 := toNat_lt_of_isAlphanum (by simp [Char.isAlphanum, hdigit])
    have hother := hkeyword.mp h c hc
    revert hdigit hother
    exact forall_ascii
      (P := fun c => c.isDigit = true → (c.isAlpha = true ∨ c = '-') → False) (by decide +kernel)
      hascii
  · split
    · rename_i h
      exact iff_of_false (by simp) (not_not_intro h)
    · rename_i h
      exact iff_of_true ⟨_, rfl⟩ h

end Value

end AtomicCss
