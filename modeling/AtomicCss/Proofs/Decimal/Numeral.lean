/-
The number that a numeral stands for.

A numeral without sign or exponent is digits with at most one point in front of, among or behind
them.  Reading it cuts it at the point, and all the digits together, scaled by a power of ten, are
the rational number that it stands for.
-/
import AtomicCss.Decimal.Numeral
import Mathlib.Data.List.TakeWhile
import Mathlib.Data.Rat.Cast.Order
import Mathlib.Algebra.Order.Field.Basic

namespace AtomicCss.Decimal

/-- The text has the digits `whole` in front of its point and `fraction` behind it, which is empty
where there is no point. -/
structure IsCut (cs whole fraction : List Char) : Prop where
  form : cs = whole ∧ fraction = [] ∨ cs = whole ++ '.' :: fraction
  ne_nil : whole ++ fraction ≠ []
  isDigit : ∀ c ∈ whole ++ fraction, c.isDigit = true

namespace IsCut

variable {cs whole fraction : List Char}

theorem mem_iff (h : IsCut cs whole fraction) {c : Char} (hc : c ≠ '.') :
    c ∈ cs ↔ c ∈ whole ++ fraction := by
  rcases h.form with ⟨rfl, rfl⟩ | rfl
  · rw [List.append_nil]
  · simp [hc]

theorem isDigit_or_point (h : IsCut cs whole fraction) :
    ∀ c ∈ cs, c.isDigit = true ∨ c = '.' := by
  intro c hc
  by_cases hpoint : c = '.'
  · exact .inr hpoint
  · exact .inl (h.isDigit c ((h.mem_iff hpoint).mp hc))

theorem ne_point (h : IsCut cs whole fraction) : ∀ c ∈ whole ++ fraction, c ≠ '.' := by
  rintro c hc rfl
  exact absurd (h.isDigit '.' hc) (by decide)

end IsCut

theorem digitsValue_zeros {cs : List Char} (h : ∀ c ∈ cs, c = '0') : digitsValue cs = 0 := by
  rw [List.eq_replicate_of_mem h, digitsValue]
  induction cs.length with
  | zero => rfl
  | succ n ih => exact ih

namespace Scaled

/-- The rational number that a scaled one is. -/
def toRat (s : Scaled) : ℚ :=
  s.digits * 10 ^ s.exponent

/-- **A text is read as a numeral** exactly if it can be cut into digits. -/
theorem ofNumeral?_eq_some_iff {cs : List Char} {s : Scaled} :
    ofNumeral? cs = some s ↔
      ∃ whole fraction, IsCut cs whole fraction ∧ s = ofDigits whole fraction 0 := by
  simp only [ofNumeral?]
  constructor
  · intro h
    have hwhole : ∀ c ∈ cs.takeWhile Char.isDigit, c.isDigit = true :=
      fun c hc => List.mem_takeWhile_imp hc
    have hcs : cs.takeWhile Char.isDigit ++ cs.dropWhile Char.isDigit = cs :=
      List.takeWhile_append_dropWhile
    split at h
    · rename_i hrest
      rw [hrest, List.append_nil] at hcs
      split at h
      · cases h
      · rename_i hne
        refine ⟨_, [], ⟨.inl ⟨hcs.symm, rfl⟩, ?_, ?_⟩, (Option.some.inj h).symm⟩
        · simpa using hne
        · simpa using hwhole
    · rename_i c fraction hrest
      split at h
      · rename_i hguard
        simp only [Bool.and_eq_true, decide_eq_true_eq, List.all_eq_true, Bool.not_eq_true',
          List.isEmpty_eq_false_iff] at hguard
        obtain ⟨⟨rfl, hfraction⟩, hne⟩ := hguard
        rw [hrest] at hcs
        exact ⟨_, fraction, ⟨.inr hcs.symm, hne, List.forall_mem_append.mpr ⟨hwhole, hfraction⟩⟩,
          (Option.some.inj h).symm⟩
      · cases h
  · rintro ⟨whole, fraction, hcut, rfl⟩
    obtain ⟨hwhole, hfraction⟩ := List.forall_mem_append.mp hcut.isDigit
    have hempty : (whole ++ fraction).isEmpty = false :=
      List.isEmpty_eq_false_iff.mpr hcut.ne_nil
    rcases hcut.form with ⟨rfl, rfl⟩ | rfl
    · rw [List.append_nil] at hempty
      rw [List.dropWhile_eq_nil_iff.mpr hwhole, List.takeWhile_eq_self_iff.mpr hwhole]
      simp only [hempty]
      rfl
    · have hpoint : ¬ ('.' : Char).isDigit = true := by decide
      have hall : fraction.all Char.isDigit = true := List.all_eq_true.mpr hfraction
      rw [List.takeWhile_append_of_pos hwhole, List.dropWhile_append_of_pos hwhole,
        List.takeWhile_cons_of_neg hpoint, List.dropWhile_cons_of_neg hpoint, List.append_nil]
      simp only [hall, hempty]
      rfl

theorem ofNumeral?_of_digits {digits : List Char} (hne : digits ≠ [])
    (hdigits : ∀ c ∈ digits, c.isDigit = true) :
    ofNumeral? digits = some ⟨digitsValue digits, 0⟩ := by
  refine ofNumeral?_eq_some_iff.mpr ⟨digits, [], ⟨.inl ⟨rfl, rfl⟩, ?_, ?_⟩, ?_⟩
  · rwa [List.append_nil]
  · rwa [List.append_nil]
  · rw [ofDigits, List.append_nil]
    rfl

theorem head?_of_ofNumeral? {cs : List Char} {s : Scaled} (h : ofNumeral? cs = some s) :
    ∀ c ∈ cs.head?, c ≠ '-' ∧ c ≠ '+' := by
  have hsigns : ['-', '+'].any (fun c => c.isDigit || c == '.') = false := by decide
  obtain ⟨whole, fraction, hcut, -⟩ := ofNumeral?_eq_some_iff.mp h
  intro c hc
  have hsign : c ∉ ['-', '+'] := by
    intro hmem
    apply List.any_eq_false.mp hsigns c hmem
    simpa using hcut.isDigit_or_point c (List.mem_of_mem_head? hc)
  simpa using hsign

theorem toRat_of_zeros {cs : List Char} {s : Scaled} (h : ofNumeral? cs = some s)
    (hzeros : ∀ c ∈ cs, c = '0' ∨ c = '.') : s.toRat = 0 := by
  obtain ⟨whole, fraction, hcut, rfl⟩ := ofNumeral?_eq_some_iff.mp h
  have hdigits : ∀ c ∈ whole ++ fraction, c = '0' := by
    intro c hc
    have hpoint := hcut.ne_point c hc
    exact (hzeros c ((hcut.mem_iff hpoint).mpr hc)).resolve_right hpoint
  simp [toRat, ofDigits, digitsValue_zeros hdigits]

end Scaled

end AtomicCss.Decimal
