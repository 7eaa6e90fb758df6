/-
How whole numbers lie among the magnitudes of the 64-bit binary format.

The magnitudes are ordered by exponent and mantissa.  A whole number is scaled by the power of two
that brings it between `2 ^ 52` and `2 ^ 53` and rounded there: `significand` is the result, and
`pack` puts it into normal form, which matters only where it was rounded up to `2 ^ 53`.  Both
steps keep the order, so rounding a larger number never gives a smaller magnitude.

Below `2 ^ 53` scaling multiplies and nothing is rounded, so there different numbers have different
magnitudes.
-/
import AtomicCss.Decimal.Binary64
import Mathlib.Data.Nat.Digits.Defs

namespace AtomicCss.Decimal.Magnitude

/-! ### The order of magnitudes -/

theorem isLE_infinite (a : Magnitude) : (a.compare .infinite).isLE = true := by
  cases a <;> rfl

instance : Std.OrientedCmp Magnitude.compare where
  eq_swap {a b} := by
    cases a with
    | infinite => cases b <;> rfl
    | finite m p =>
        cases b with
        | infinite => rfl
        | finite n q =>
            simp only [Magnitude.compare]
            rw [Ordering.swap_then, ← Std.OrientedCmp.eq_swap, ← Std.OrientedCmp.eq_swap]

instance : Std.TransCmp Magnitude.compare where
  isLE_trans {a b c} hab hbc := by
    cases c with
    | infinite => exact isLE_infinite a
    | finite k r =>
        cases b with
        | infinite => cases hbc
        | finite n q =>
            cases a with
            | infinite => cases hab
            | finite m p =>
                let byExponent : Nat × Int → Nat × Int → Ordering :=
                  compareLex (compareOn Prod.snd) (compareOn Prod.fst)
                have hlex : Std.TransCmp byExponent := inferInstance
                exact hlex.isLE_trans (a := (m, p)) (b := (n, q)) (c := (k, r)) hab hbc

theorem eq_of_compare {a b : Magnitude} (h : a.compare b = .eq) : a = b := by
  cases a with
  | infinite =>
      cases b with
      | infinite => rfl
      | finite n q => cases h
  | finite m p =>
      cases b with
      | infinite => cases h
      | finite n q =>
          simp only [Magnitude.compare, Ordering.then_eq_eq, Std.compare_eq_iff_eq] at h
          rw [h.1, h.2]

/-! ### Rounding a whole number -/

/-- The magnitude nearest to a whole number. -/
def ofWhole (n : Nat) : Magnitude :=
  ofScaled ⟨n, 0⟩

/-- A mantissa between `2 ^ 52` and `2 ^ 53` with its exponent, in normal form. -/
def pack (mantissa : Nat) (exponent : Int) : Magnitude :=
  let (mantissa, exponent) :=
    if mantissa = twoTo 53 then (twoTo 52, exponent + 1) else (mantissa, exponent)
  if exponent > 971 then .infinite else .finite mantissa exponent

/-- The mantissa of a whole number, to be taken `n.log2 - 52` times by two. -/
def significand (n : Nat) : Nat :=
  if n.log2 ≤ 52 then n * 2 ^ (52 - n.log2) else divNearest n (2 ^ (n.log2 - 52))

theorem divNearest_one (n : Nat) : divNearest n 1 = n := by
  simp [divNearest, Nat.mod_one]

theorem scaleDown_sub (n k s : Nat) :
    scaleDown n 1 ((k : Int) - s) = if s ≤ k then (n, 2 ^ (k - s)) else (n * 2 ^ (s - k), 1) := by
  have hpow : ∀ j, twoTo j = 2 ^ j := fun _ => rfl
  by_cases h : s ≤ k
  · have hnat : ((k : Int) - s).toNat = k - s := by omega
    rw [scaleDown, if_pos (by omega), if_pos h, hnat, hpow, Nat.one_mul]
  · have hnat : (-((k : Int) - s)).toNat = s - k := by omega
    rw [scaleDown, if_neg (by omega), if_neg h, hnat, hpow]

theorem ofRatio_one {n : Nat} (h : n ≠ 0) : ofRatio n 1 = pack (significand n) (n.log2 - 52) := by
  have hestimate : max ((n.log2 : Int) - (Nat.log2 1 : Nat) - 53) (-1074) =
      (n.log2 : Int) - (53 : Nat) := by
    rw [show Nat.log2 1 = 0 from rfl]
    omega
  have hlarge : (scaleDown n 1 ((n.log2 : Int) - (53 : Nat))).1 /
      (scaleDown n 1 ((n.log2 : Int) - (53 : Nat))).2 ≥ twoTo 53 := by
    have hle := Nat.log2_self_le h
    show 2 ^ 53 ≤ _
    rw [scaleDown_sub]
    split
    · rename_i hk
      rw [Nat.le_div_iff_mul_le (Nat.two_pow_pos _), ← Nat.pow_add]
      rwa [show 53 + (n.log2 - 53) = n.log2 by omega]
    · rename_i hk
      rw [Nat.div_one]
      calc 2 ^ 53 = 2 ^ n.log2 * 2 ^ (53 - n.log2) := by
            rw [← Nat.pow_add, show n.log2 + (53 - n.log2) = 53 by omega]
        _ ≤ n * 2 ^ (53 - n.log2) := Nat.mul_le_mul_right _ hle
  have hexponent : (n.log2 : Int) - (53 : Nat) + 1 = (n.log2 : Int) - (52 : Nat) := by omega
  have hround : divNearest (scaleDown n 1 ((n.log2 : Int) - (52 : Nat))).1
      (scaleDown n 1 ((n.log2 : Int) - (52 : Nat))).2 = significand n := by
    rw [scaleDown_sub, significand]
    by_cases hk : n.log2 ≤ 52
    · rw [if_pos hk]
      by_cases hk' : 52 ≤ n.log2
      · rw [if_pos hk', show n.log2 - 52 = 0 by omega, show 52 - n.log2 = 0 by omega]
        exact (divNearest_one n).trans (Nat.mul_one n).symm
      · rw [if_neg hk', divNearest_one]
    · rw [if_neg hk, if_pos (by omega)]
  simp only [ofRatio, if_neg h, hestimate, if_pos hlarge, hexponent, hround]
  rfl

theorem ofWhole_eq (n : Nat) :
    ofWhole n = if n = 0 then zero else if 10 ^ 400 ≤ n then .infinite
      else pack (significand n) (n.log2 - 52) := by
  by_cases hzero : n = 0
  · rw [hzero, if_pos rfl]
    rfl
  · have hdigits : (400 : Int) < 0 + (digitCount n : Int) ↔ 10 ^ 400 ≤ n := by
      have hlength := Nat.length_toDigits_le_iff (b := 10) (n := n) (k := 400)
        (by decide) (by decide)
      rw [digitCount, if_neg hzero, ← Nat.not_lt, ← hlength]
      omega
    have hsmall : ¬ ((0 : Int) + (digitCount n : Int) < -400) := by omega
    rw [if_neg hzero, ofWhole, ofScaled]
    simp only [hzero, hsmall, decide_false, Bool.or_self, Bool.false_eq_true, if_false,
      gt_iff_lt, hdigits]
    split
    · rfl
    · rw [if_pos (Int.le_refl 0), ← ofRatio_one hzero]
      exact congrArg (ofRatio · 1) (Nat.mul_one n)

/-! ### Rounding keeps the order -/

theorem divNearest_cases (n d : Nat) :
    divNearest n d = n / d ∧ (2 * (n % d) < d ∨ 2 * (n % d) = d ∧ n / d % 2 = 0) ∨
      divNearest n d = n / d + 1 ∧ ¬ (2 * (n % d) < d ∨ 2 * (n % d) = d ∧ n / d % 2 = 0) := by
  simp only [divNearest, Bool.or_eq_true, Bool.and_eq_true, decide_eq_true_eq, beq_iff_eq]
  split
  · exact .inl ⟨rfl, ‹_›⟩
  · exact .inr ⟨rfl, ‹_›⟩

theorem divNearest_mono {m n : Nat} (h : m ≤ n) (d : Nat) : divNearest m d ≤ divNearest n d := by
  have hq : m / d ≤ n / d := Nat.div_le_div_right h
  have hm := divNearest_cases m d
  have hn := divNearest_cases n d
  rcases Nat.eq_or_lt_of_le hq with heq | hlt
  · -- The quotients agree, so the remainders decide.
    have hr : m % d ≤ n % d := by
      have hpartsM := Nat.div_add_mod m d
      have hpartsN := Nat.div_add_mod n d
      rw [heq] at hpartsM
      omega
    rw [heq] at hm
    omega
  · omega

theorem significand_bounds {n : Nat} (h : n ≠ 0) :
    2 ^ 52 ≤ significand n ∧ significand n ≤ 2 ^ 53 := by
  have hle := Nat.log2_self_le h
  have hlt := Nat.lt_log2_self (n := n)
  unfold significand
  split
  · rename_i hk
    have hlow : 2 ^ 52 = 2 ^ n.log2 * 2 ^ (52 - n.log2) := by
      rw [← Nat.pow_add, show n.log2 + (52 - n.log2) = 52 by omega]
    have hhigh : 2 ^ 53 = 2 ^ (n.log2 + 1) * 2 ^ (52 - n.log2) := by
      rw [← Nat.pow_add, show n.log2 + 1 + (52 - n.log2) = 53 by omega]
    rw [hlow, hhigh]
    exact ⟨Nat.mul_le_mul_right _ hle, Nat.mul_le_mul_right _ (Nat.le_of_lt hlt)⟩
  · rename_i hk
    have hpos := Nat.two_pow_pos (n.log2 - 52)
    have hlow : 2 ^ 52 ≤ n / 2 ^ (n.log2 - 52) := by
      rw [Nat.le_div_iff_mul_le hpos, ← Nat.pow_add]
      rwa [show 52 + (n.log2 - 52) = n.log2 by omega]
    have hhigh : n / 2 ^ (n.log2 - 52) < 2 ^ 53 := by
      rw [Nat.div_lt_iff_lt_mul hpos, ← Nat.pow_add]
      rwa [show 53 + (n.log2 - 52) = n.log2 + 1 by omega]
    have := divNearest_cases n (2 ^ (n.log2 - 52))
    omega

theorem significand_mono {m n : Nat} (h : m ≤ n) (hlog : m.log2 = n.log2) :
    significand m ≤ significand n := by
  unfold significand
  rw [hlog]
  split
  · exact Nat.mul_le_mul_right _ h
  · exact divNearest_mono h _

theorem isLE_finite_iff {m n : Nat} {p q : Int} :
    ((finite m p).compare (finite n q)).isLE = true ↔ p < q ∨ p = q ∧ m ≤ n := by
  rw [Magnitude.compare, Ordering.isLE_then_iff_or, Std.compare_eq_lt, Std.compare_eq_iff_eq,
    Std.isLE_compare]

/-- Magnitudes beyond the largest exponent become infinite, which keeps the order. -/
theorem isLE_capped {m n : Nat} {p q : Int} (h : p < q ∨ p = q ∧ m ≤ n) :
    ((if p > 971 then infinite else finite m p).compare
      (if q > 971 then infinite else finite n q)).isLE = true := by
  by_cases hq : q > 971
  · rw [if_pos hq]
    exact isLE_infinite _
  · rw [if_neg (by omega : ¬ p > 971), if_neg hq]
    exact isLE_finite_iff.mpr h

theorem isLE_pack {m n : Nat} {p q : Int} (hm : 2 ^ 52 ≤ m ∧ m ≤ 2 ^ 53)
    (hn : 2 ^ 52 ≤ n ∧ n ≤ 2 ^ 53) (h : p < q ∨ p = q ∧ m ≤ n) :
    ((pack m p).compare (pack n q)).isLE = true := by
  have h52 : twoTo 52 = 2 ^ 52 := rfl
  have h53 : twoTo 53 = 2 ^ 53 := rfl
  unfold pack
  rw [h52, h53]
  by_cases hm' : m = 2 ^ 53
  · rw [if_pos hm']
    by_cases hn' : n = 2 ^ 53
    · rw [if_pos hn']
      exact isLE_capped (by omega)
    · rw [if_neg hn']
      exact isLE_capped (by omega)
  · rw [if_neg hm']
    by_cases hn' : n = 2 ^ 53
    · rw [if_pos hn']
      exact isLE_capped (by omega)
    · rw [if_neg hn']
      exact isLE_capped h

theorem isLE_zero_pack (n : Nat) {q : Int} (hq : -1074 ≤ q) :
    (zero.compare (pack n q)).isLE = true := by
  have hzero : zero = if (-1074 : Int) > 971 then infinite else finite 0 (-1074) := rfl
  rw [hzero]
  unfold pack
  by_cases h : n = twoTo 53
  · rw [if_pos h]
    exact isLE_capped (by omega)
  · rw [if_neg h]
    exact isLE_capped (by omega)

/-- **A larger number is never rounded to a smaller magnitude.** -/
theorem isLE_ofWhole {m n : Nat} (h : m ≤ n) :
    ((ofWhole m).compare (ofWhole n)).isLE = true := by
  rw [ofWhole_eq m, ofWhole_eq n]
  by_cases hzero : n = 0
  · rw [if_pos hzero, if_pos (by omega : m = 0)]
    rfl
  · rw [if_neg hzero]
    by_cases hn : 10 ^ 400 ≤ n
    · rw [if_pos hn]
      exact isLE_infinite _
    rw [if_neg hn]
    by_cases hm : m = 0
    · rw [if_pos hm]
      exact isLE_zero_pack _ (by omega)
    · rw [if_neg hm, if_neg fun hm => hn (Nat.le_trans hm h)]
      apply isLE_pack (significand_bounds hm) (significand_bounds (by omega))
      have hlog : m.log2 ≤ n.log2 := (Nat.le_log2 (by omega)).mpr
        (Nat.le_trans (Nat.log2_self_le hm) h)
      rcases Nat.eq_or_lt_of_le hlog with heq | hlt
      · exact .inr ⟨by rw [heq], significand_mono h heq⟩
      · exact .inl (by omega)

/-! ### Numbers that are not rounded -/

theorem ofWhole_of_lt {n : Nat} (h : n ≠ 0) (hn : n < 2 ^ 53) :
    ofWhole n = finite (n * 2 ^ (52 - n.log2)) (n.log2 - 52) := by
  have hlog : n.log2 < 53 := (Nat.log2_lt h).mpr hn
  have hsmall : ∀ k, 53 ≤ k → n < 10 ^ k := fun k hk =>
    calc n < 2 ^ 53 := hn
      _ ≤ 10 ^ 53 := Nat.pow_le_pow_left (by decide) 53
      _ ≤ 10 ^ k := Nat.pow_le_pow_right (by decide) hk
  have hmantissa : n * 2 ^ (52 - n.log2) < 2 ^ 53 :=
    calc n * 2 ^ (52 - n.log2) < 2 ^ (n.log2 + 1) * 2 ^ (52 - n.log2) :=
          Nat.mul_lt_mul_of_pos_right Nat.lt_log2_self (Nat.two_pow_pos _)
      _ = 2 ^ 53 := by rw [← Nat.pow_add, show n.log2 + 1 + (52 - n.log2) = 53 by omega]
  have hround : ¬ n * 2 ^ (52 - n.log2) = twoTo 53 := Nat.ne_of_lt hmantissa
  rw [ofWhole_eq, if_neg h, if_neg (Nat.not_le_of_lt (hsmall 400 (by decide))), significand,
    if_pos (by omega), pack, if_neg hround]
  exact if_neg (by omega)

/-- **Different numbers that are rounded to one magnitude are not below `2 ^ 53`.** -/
theorem le_of_ofWhole_eq {m n : Nat} (h : ofWhole m = ofWhole n) (hlt : m < n) : 2 ^ 53 ≤ m := by
  by_contra hm
  have hm : m < 2 ^ 53 := Nat.lt_of_not_le hm
  by_cases hzero : m = 0
  · -- All numbers but zero have magnitudes from that of one on.
    have hone : ((ofWhole 1).compare (ofWhole n)).isLE = true := isLE_ofWhole (by omega)
    rw [← h, hzero, show ofWhole 0 = finite 0 (-1074) from rfl,
      show ofWhole 1 = finite (2 ^ 52) (-52) by decide +kernel, isLE_finite_iff] at hone
    omega
  have hmLog : m.log2 < 53 := (Nat.log2_lt hzero).mpr hm
  rw [ofWhole_of_lt hzero hm] at h
  by_cases hn : n < 2 ^ 53
  · rw [ofWhole_of_lt (by omega) hn] at h
    obtain ⟨hmantissa, hexponent⟩ := Magnitude.finite.inj h
    have hlog : m.log2 = n.log2 := by omega
    rw [hlog] at hmantissa
    have := Nat.eq_of_mul_eq_mul_right (Nat.two_pow_pos _) hmantissa
    omega
  · have hlarge : ((ofWhole (2 ^ 53)).compare (ofWhole n)).isLE = true :=
      isLE_ofWhole (Nat.le_of_not_lt hn)
    rw [← h, show ofWhole (2 ^ 53) = finite (2 ^ 52) 1 by decide +kernel,
      isLE_finite_iff] at hlarge
    omega

end AtomicCss.Decimal.Magnitude
