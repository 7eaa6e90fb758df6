/-
Breakpoints from the narrowest to the widest.

Widths with one unit are compared by their numbers, and all others by their texts.  Each of these
is an order, but together they need not be one: `640px` comes before `1024px` by number, `1024px`
before `20em` by text, and `20em` before `640px` by text again.  `Parts` says how this happens: a
breakpoint of another unit has its text between those of two that are the other way round.

Nothing else can go wrong.  Where no breakpoint parts two others the comparison is transitive, and
then sorting puts the narrower breakpoint first.  The numbers are compared as the 64-bit format
holds them, which tells whole numbers below `2 ^ 53` apart and never turns two of them round.
-/
import AtomicCss.Proofs.Decimal.Binary64
import AtomicCss.Proofs.Decimal.Numeral
import AtomicCss.Proofs.Text.Blank
import AtomicCss.Proofs.Theme.Breakpoint
import AtomicCss.Theme.Default

namespace AtomicCss

namespace Breakpoint

open Text Decimal

/-- The unit of a width that is a number with a unit. -/
def unit? (b : Breakpoint) : Option (List Char) :=
  (Width.ofText? b.width).map Width.unit

/-- The number of a width that is a number with a unit. -/
def magnitude (b : Breakpoint) : Magnitude :=
  ((Width.ofText? b.width).map Width.number).getD .infinite

/-- Orders two breakpoints by the numbers of their widths, then by name. -/
def byNumber (a b : Breakpoint) : Ordering :=
  (a.magnitude.compare b.magnitude).then (Ord.compare a.name b.name)

/-- Orders two breakpoints by the texts of their widths, then by name. -/
def byText (a b : Breakpoint) : Ordering :=
  (Ord.compare a.width b.width).then (Ord.compare a.name b.name)

/-- Two breakpoints whose widths have one unit. -/
def SameUnit (a b : Breakpoint) : Prop :=
  a.unit? = b.unit? ∧ a.unit? ≠ none

instance (a b : Breakpoint) : Decidable (SameUnit a b) :=
  inferInstanceAs (Decidable (_ ∧ _))

theorem SameUnit.symm {a b : Breakpoint} (h : SameUnit a b) : SameUnit b a :=
  ⟨h.1.symm, h.1 ▸ h.2⟩

theorem SameUnit.trans {a b c : Breakpoint} (hab : SameUnit a b) (hbc : SameUnit b c) :
    SameUnit a c :=
  ⟨hab.1.trans hbc.1, hab.2⟩

/-! ### Two orders in one comparison -/

instance : Std.TransCmp fun a b : Breakpoint => a.magnitude.compare b.magnitude where
  eq_swap := Std.OrientedCmp.eq_swap
  isLE_trans := Std.TransCmp.isLE_trans

instance : Std.TransCmp byNumber :=
  inferInstanceAs (Std.TransCmp (compareLex
    (fun a b : Breakpoint => a.magnitude.compare b.magnitude) (compareOn name)))

instance : Std.TransCmp byText :=
  inferInstanceAs (Std.TransCmp (compareLex (compareOn width) (compareOn name)))

theorem compare_eq (a b : Breakpoint) :
    a.compare b = if SameUnit a b then byNumber a b else byText a b := by
  have hv : ∀ x : Breakpoint, x.unit? = (Width.ofText? x.width).map Width.unit := fun _ => rfl
  have hm : ∀ x : Breakpoint, x.magnitude =
      ((Width.ofText? x.width).map Width.number).getD .infinite := fun _ => rfl
  simp only [SameUnit, byNumber, byText, Breakpoint.compare, hv, hm]
  cases Width.ofText? a.width with
  | none => simp
  | some v =>
      cases Width.ofText? b.width with
      | none => simp
      | some w => simp

instance : Std.OrientedCmp Breakpoint.compare where
  eq_swap {a b} := by
    rw [compare_eq, compare_eq]
    by_cases h : SameUnit a b
    · rw [if_pos h, if_pos h.symm]
      exact Std.OrientedCmp.eq_swap
    · rw [if_neg h, if_neg fun h' => h h'.symm]
      exact Std.OrientedCmp.eq_swap

theorem AtMost.of_not {a b : Breakpoint} (h : ¬ AtMost a b) : AtMost b a := by
  have hgt : a.compare b = .gt := by
    by_contra hne
    exact h (Ordering.isLE_iff_ne_gt.mpr hne)
  rw [AtMost, Std.OrientedCmp.gt_iff_lt.mp hgt]
  rfl

/-! ### Where the two orders part -/

/-- `c` has another unit than `p` and `q`, and its text stands between theirs though the comparison
has `p` and `q` the other way round. -/
structure Parts (c p q : Breakpoint) : Prop where
  sameUnit : SameUnit p q
  other : ¬ SameUnit p c
  atMost : AtMost p q
  behind : q.width < c.width
  before : c.width < p.width

instance (c p q : Breakpoint) : Decidable (Parts c p q) :=
  decidable_of_iff (SameUnit p q ∧ ¬ SameUnit p c ∧ AtMost p q ∧ q.width < c.width ∧
    c.width < p.width)
    ⟨fun ⟨hsame, hother, hle, hbehind, hbefore⟩ => ⟨hsame, hother, hle, hbehind, hbefore⟩,
      fun h => ⟨h.sameUnit, h.other, h.atMost, h.behind, h.before⟩⟩

theorem AtMost.byNumber {a b : Breakpoint} (h : AtMost a b) (hunit : SameUnit a b) :
    (byNumber a b).isLE = true := by
  rwa [AtMost, compare_eq, if_pos hunit] at h

theorem AtMost.byText {a b : Breakpoint} (h : AtMost a b) (hunit : ¬ SameUnit a b) :
    (byText a b).isLE = true := by
  rwa [AtMost, compare_eq, if_neg hunit] at h

/-- Of widths with different units, one of which is read, one text comes before the other. -/
theorem AtMost.width_lt {a b : Breakpoint} (h : AtMost a b) (hunit : ¬ SameUnit a b)
    (hread : a.unit? ≠ none ∨ b.unit? ≠ none) : a.width < b.width := by
  have hle := h.byText hunit
  rw [Breakpoint.byText, Ordering.isLE_then_iff_or] at hle
  rcases hle with hlt | ⟨heq, -⟩
  · exact compareOfLessAndEq_eq_lt.mp hlt
  · -- Equal texts have equal units.
    have hwidth : a.width = b.width := Std.LawfulEqCmp.compare_eq_iff_eq.mp heq
    have hsame : a.unit? = b.unit? := congrArg (fun w => (Width.ofText? w).map Width.unit) hwidth
    exact absurd ⟨hsame, hread.elim id fun h => hsame ▸ h⟩ hunit

/-- Where the comparison is not transitive, one of the three parts the others. -/
theorem exists_parts {a b c : Breakpoint} (hab : AtMost a b) (hbc : AtMost b c)
    (hac : ¬ AtMost a c) : Parts c a b ∨ Parts a b c ∨ Parts b c a := by
  have hca := AtMost.of_not hac
  by_cases hu : SameUnit a b
  · by_cases hv : SameUnit b c
    · -- All three have one unit.
      have := Std.TransCmp.isLE_trans (hab.byNumber hu) (hbc.byNumber hv)
      rw [AtMost, compare_eq, if_pos (hu.trans hv)] at hac
      exact absurd this hac
    · have hw : ¬ SameUnit c a := fun h => hv (hu.symm.trans h.symm)
      exact .inl ⟨hu, fun h => hw h.symm, hab, hbc.width_lt hv (.inl hu.symm.2),
        hca.width_lt hw (.inr hu.2)⟩
  · by_cases hv : SameUnit b c
    · have hw : ¬ SameUnit c a := fun h => hu (hv.trans h).symm
      exact .inr (.inl ⟨hv, fun h => hu h.symm, hbc, hca.width_lt hw (.inl hv.symm.2),
        hab.width_lt hu (.inr hv.2)⟩)
    · by_cases hw : SameUnit c a
      · exact .inr (.inr ⟨hw, fun h => hv h.symm, hca, hab.width_lt hu (.inl hw.symm.2),
          hbc.width_lt hv (.inr hw.2)⟩)
      · -- All three are compared by their texts.
        have := Std.TransCmp.isLE_trans (hab.byText hu) (hbc.byText hv)
        rw [AtMost, compare_eq, if_neg fun h => hw h.symm] at hac
        exact absurd this hac

theorem Parts.not_atMost {c p q : Breakpoint} (h : Parts c p q) : AtMost q c ∧ ¬ AtMost p c := by
  have htext : ∀ {a b : Breakpoint}, a.width < b.width → Breakpoint.byText a b = .lt := by
    intro a b hlt
    have hwidth : Ord.compare a.width b.width = .lt := compareOfLessAndEq_eq_lt.mpr hlt
    rw [Breakpoint.byText, hwidth]
    rfl
  have hqc : ¬ SameUnit q c := fun h' => h.other (h.sameUnit.trans h')
  constructor
  · rw [AtMost, compare_eq, if_neg hqc, htext h.behind]
    rfl
  · have hgt : Breakpoint.byText p c = .gt := Std.OrientedCmp.gt_iff_lt.mpr (htext h.before)
    rw [AtMost, compare_eq, if_neg h.other, hgt]
    decide

/-- **The comparison is transitive exactly where no breakpoint parts two others.** -/
theorem consistent_iff {bs : List Breakpoint} :
    Consistent bs ↔ ∀ c ∈ bs, ∀ p ∈ bs, ∀ q ∈ bs, ¬ Parts c p q := by
  constructor
  · intro h c hc p hp q hq hparts
    obtain ⟨hqc, hpc⟩ := hparts.not_atMost
    exact hpc (h p hp q hq c hc hparts.atMost hqc)
  · intro h a ha b hb c hc hab hbc
    by_contra hac
    rcases exists_parts hab hbc hac with hparts | hparts | hparts
    · exact h c hc a ha b hb hparts
    · exact h a ha b hb c hc hparts
    · exact h b hb c hc a ha hparts

/-! ### Sorting by a transitive comparison -/

theorem Consistent.subset {as bs : List Breakpoint} (h : Consistent bs) (hsub : as ⊆ bs) :
    Consistent as :=
  fun a ha b hb c hc => h a (hsub ha) b (hsub hb) c (hsub hc)

theorem pairwise_place {a : Breakpoint} {bs : List Breakpoint} (h : Consistent (a :: bs))
    (hbs : bs.Pairwise fun x y => AtMost y x) :
    (place a bs).Pairwise fun x y => AtMost y x := by
  induction bs with
  | nil => exact List.pairwise_singleton _ a
  | cons b rest ih =>
      obtain ⟨hb, hrest⟩ := List.pairwise_cons.mp hbs
      rw [place]
      split
      · rename_i hlt
        have hsub : a :: rest ⊆ a :: b :: rest :=
          List.cons_subset_cons a (List.subset_cons_self b rest)
        refine List.pairwise_cons.mpr ⟨fun y hy => ?_, ih (h.subset hsub) hrest⟩
        rcases List.mem_cons.mp ((place_perm a rest).mem_iff.mp hy) with rfl | hy
        · rw [AtMost, hlt]
          rfl
        · exact hb y hy
      · rename_i hlt
        have hba : AtMost b a := by
          by_cases hab : AtMost a b
          · have heq : a.compare b = .eq :=
              (Ordering.isLE_iff_eq_lt_or_eq_eq.mp hab).resolve_left hlt
            rw [AtMost, Std.OrientedCmp.eq_comm.mp heq]
            rfl
          · exact AtMost.of_not hab
        refine List.pairwise_cons.mpr ⟨fun y hy => ?_, hbs⟩
        rcases List.mem_cons.mp hy with rfl | hy
        · exact hba
        · exact h y (by simp [hy]) b (by simp) a (by simp) (hb y hy) hba

theorem pairwise_foldl_place {bs placed : List Breakpoint} (h : Consistent (bs ++ placed))
    (hplaced : placed.Pairwise fun x y => AtMost y x) :
    (bs.foldl (fun sorted b => place b sorted) placed).Pairwise fun x y => AtMost y x := by
  induction bs generalizing placed with
  | nil => exact hplaced
  | cons b bs ih =>
      refine ih (h.subset fun x hx => ?_) (pairwise_place (h.subset fun x hx => ?_) hplaced)
      · rcases List.mem_append.mp hx with hx | hx
        · simp [hx]
        · rcases List.mem_cons.mp ((place_perm b placed).mem_iff.mp hx) with rfl | hx
          · simp
          · simp [hx]
      · rcases List.mem_cons.mp hx with rfl | hx
        · simp
        · simp [hx]

/-- **Sorting by a transitive comparison puts every breakpoint before those behind it.** -/
theorem pairwise_of_sort? {bs sorted : List Breakpoint} (h : sort? bs = some sorted)
    (hbs : Consistent bs) : sorted.Pairwise AtMost := by
  obtain ⟨-, rfl⟩ := sort?_eq_some_iff.mp h
  exact List.pairwise_reverse.mpr (pairwise_foldl_place (by rwa [List.append_nil]) .nil)

/-! ### Whole numbers -/

/-- The width is the whole number `n` with the unit `unit`: digits, then the unit, white space
around them aside. -/
def IsWhole (b : Breakpoint) (n : Nat) (unit : List Char) : Prop :=
  ∃ digits rest, trim b.width.toList = digits ++ rest ∧ digits ≠ [] ∧
    (∀ c ∈ digits, c.isDigit = true) ∧ digitsValue digits = n ∧
    (∀ c ∈ rest.head?, c.isDigit = false ∧ c ≠ '.') ∧ trim rest = unit ∧ unit ≠ []

theorem ofText?_of_isWhole {b : Breakpoint} {n : Nat} {unit : List Char} (h : b.IsWhole n unit) :
    Width.ofText? b.width = some ⟨.ofWhole n, unit⟩ := by
  obtain ⟨digits, rest, hwidth, hne, hdigits, rfl, hhead, rfl, hunit⟩ := h
  have hnumeral : ∀ c ∈ digits, (c.isDigit || c == '.') = true := by
    intro c hc
    rw [hdigits c hc, Bool.true_or]
  have hbehind : ∀ c ∈ rest.head?, (c.isDigit || c == '.') = false := by
    intro c hc
    obtain ⟨hdigit, hpoint⟩ := hhead c hc
    simp [hdigit, hpoint]
  have htake : (digits ++ rest).takeWhile (fun c => c.isDigit || c == '.') = digits := by
    rw [List.takeWhile_append_of_pos hnumeral]
    cases rest with
    | nil => simp
    | cons c rest => rw [List.takeWhile_cons_of_neg (by simp [hbehind c rfl]), List.append_nil]
  have hdrop : (digits ++ rest).dropWhile (fun c => c.isDigit || c == '.') = rest := by
    rw [List.dropWhile_append_of_pos hnumeral, dropWhile_eq_self hbehind]
  have hempty : (trim rest).isEmpty = false := by simpa using hunit
  simp only [Width.ofText?, hwidth, htake, hdrop,
    Scaled.ofNumeral?_of_digits hne hdigits]
  simp [hempty, Magnitude.ofWhole]

/-- Breakpoints that are in order and whose widths are whole numbers with one unit have these
numbers in order, as far as they can be told apart. -/
theorem order_of_isWhole {a b : Breakpoint} {m n : Nat} {unit : List Char}
    (ha : a.IsWhole m unit) (hb : b.IsWhole n unit) (hab : AtMost a b) (hname : a.name ≠ b.name) :
    m < n ∨ a.name < b.name ∧
      (m = n ∨ 2 ^ 53 ≤ m ∧ 2 ^ 53 ≤ n ∧ Magnitude.ofWhole m = Magnitude.ofWhole n) := by
  have hsame : SameUnit a b := by
    simp [SameUnit, unit?, ofText?_of_isWhole ha, ofText?_of_isWhole hb]
  have hle := hab.byNumber hsame
  simp only [Breakpoint.byNumber, magnitude, ofText?_of_isWhole ha, ofText?_of_isWhole hb,
    Option.map_some, Option.getD_some, Ordering.isLE_then_iff_or] at hle
  by_cases hlt : m < n
  · exact .inl hlt
  have hge : ((Magnitude.ofWhole n).compare (Magnitude.ofWhole m)).isLE = true :=
    Magnitude.isLE_ofWhole (Nat.le_of_not_lt hlt)
  rcases hle with hmagnitude | ⟨hmagnitude, hnames⟩
  · -- The larger number is not rounded to a smaller magnitude.
    rw [Std.OrientedCmp.gt_iff_lt.mpr hmagnitude] at hge
    cases hge
  · have heq := Magnitude.eq_of_compare hmagnitude
    have hbefore : a.name < b.name := by
      rcases Ordering.isLE_iff_eq_lt_or_eq_eq.mp hnames with h | h
      · exact compareOfLessAndEq_eq_lt.mp h
      · exact absurd (Std.LawfulEqCmp.compare_eq_iff_eq.mp h) hname
    refine .inr ⟨hbefore, ?_⟩
    rcases Nat.eq_or_lt_of_le (Nat.le_of_not_lt hlt) with h | h
    · exact .inl h.symm
    · have hlow := Magnitude.le_of_ofWhole_eq heq.symm h
      exact .inr ⟨by omega, hlow, heq⟩

end Breakpoint

namespace Theme

open Breakpoint Decimal

variable {theme : Theme} {screens : List Breakpoint}

theorem pairwise_name_screens (h : theme.screens? = some screens) :
    screens.Pairwise fun a b => a.name ≠ b.name := by
  refine ((perm_of_sort? h).pairwise_iff fun hne => Ne.symm hne).mpr (List.pairwise_map.mpr ?_)
  refine ((theme.tokens.find? .screens).getD ∅).sorted.imp fun {x y} hlt heq => ?_
  have heq : x.1 = y.1 := heq
  simp [heq] at hlt

theorem pairwise_isWhole (h : theme.screens? = some screens) (hscreens : Consistent screens) :
    screens.Pairwise fun a b => ∀ m n unit, a.IsWhole m unit → b.IsWhole n unit →
      m < n ∨ a.name < b.name ∧
        (m = n ∨ 2 ^ 53 ≤ m ∧ 2 ^ 53 ≤ n ∧ Magnitude.ofWhole m = Magnitude.ofWhole n) := by
  have hsorted : screens.Pairwise AtMost :=
    pairwise_of_sort? h (hscreens.subset (perm_of_sort? h).symm.subset)
  exact (hsorted.and (pairwise_name_screens h)).imp fun ⟨hab, hname⟩ m n unit ha hb =>
    order_of_isWhole ha hb hab hname

/--
**The screens of a theme come out from the narrowest to the widest, unless one parts two others.**
They can be sorted where they are few, and where the comparison is transitive among them.  What
comes out is the tokens of their category in some order, and the comparison is transitive among
them exactly where none parts two others.  Then whole numbers of one unit stand in order, by name
where they are equal or beyond what the 64-bit format can tell apart.
-/
theorem screens_narrowestFirst (theme : Theme) :
    (theme.breakpoints.length ≤ insertionLimit ∨ Consistent theme.breakpoints →
      ∃ screens, theme.screens? = some screens) ∧
    ∀ screens, theme.screens? = some screens →
      screens.Perm (((theme.tokens.find? .screens).getD ∅).entries.map fun e => ⟨e.1, e.2⟩) ∧
      (Consistent screens ↔ ∀ c ∈ screens, ∀ p ∈ screens, ∀ q ∈ screens, ¬ Parts c p q) ∧
      ((∀ c ∈ screens, ∀ p ∈ screens, ∀ q ∈ screens, ¬ Parts c p q) →
        screens.Pairwise fun a b => ∀ m n unit, a.IsWhole m unit → b.IsWhole n unit →
          m < n ∨ a.name < b.name ∧
            (m = n ∨ 2 ^ 53 ≤ m ∧ 2 ^ 53 ≤ n ∧ Magnitude.ofWhole m = Magnitude.ofWhole n)) :=
  ⟨exists_sort?, fun _ h =>
    ⟨perm_of_sort? h, consistent_iff, fun hparts => pairwise_isWhole h (consistent_iff.mpr hparts)⟩⟩

/-- Lengths in two units come out in order where none parts two others. -/
theorem screens_narrowestFirst_mixed :
    let theme : Theme := ⟨.ofList [(.screens, .ofList [("3xl", "90em"), ("lg", "1024px"),
      ("sm", "640px")])]⟩
    let screens : List Breakpoint := [⟨"sm", "640px"⟩, ⟨"lg", "1024px"⟩, ⟨"3xl", "90em"⟩]
    theme.screens? = some screens ∧
      (∀ c ∈ screens, ∀ p ∈ screens, ∀ q ∈ screens, ¬ Parts c p q) ∧
      screens.Pairwise fun a b => ∀ m n unit, a.IsWhole m unit → b.IsWhole n unit →
        m < n ∨ a.name < b.name ∧
          (m = n ∨ 2 ^ 53 ≤ m ∧ 2 ^ 53 ≤ n ∧ Magnitude.ofWhole m = Magnitude.ofWhole n) := by
  intro theme screens
  obtain ⟨hsorts, hspec⟩ := theme.screens_narrowestFirst
  obtain ⟨sorted, hsorted⟩ := hsorts (.inl (by decide +kernel))
  have hscreens : theme.screens? = some screens := by decide +kernel
  obtain rfl := Option.some.inj (hsorted.symm.trans hscreens)
  have hparts : ∀ c ∈ screens, ∀ p ∈ screens, ∀ q ∈ screens, ¬ Parts c p q := by
    decide +kernel
  exact ⟨hscreens, hparts, (hspec screens hscreens).2.2 hparts⟩

/-- A screen in `em` parts two in `px`, and the default screens come out in disorder. -/
theorem not_narrowestFirst_parted :
    (resolve defaults { extend := .ofList [(.screens, .ofList [("big", "20em")])] }).map screens? =
        .ok (some [⟨"lg", "1024px"⟩, ⟨"2xl", "1536px"⟩, ⟨"big", "20em"⟩, ⟨"sm", "640px"⟩,
          ⟨"md", "768px"⟩, ⟨"xl", "1280px"⟩]) ∧
      IsWhole ⟨"lg", "1024px"⟩ 1024 "px".toList ∧ IsWhole ⟨"sm", "640px"⟩ 640 "px".toList ∧
      Parts ⟨"big", "20em"⟩ ⟨"sm", "640px"⟩ ⟨"lg", "1024px"⟩ := by
  refine ⟨by decide +kernel, ?_, ?_, by decide +kernel⟩
  · exact ⟨"1024".toList, "px".toList, by decide +kernel, by decide,
      List.all_eq_true.mp (by decide), by decide, by rintro c ⟨⟩; decide, by decide +kernel,
      by decide⟩
  · exact ⟨"640".toList, "px".toList, by decide +kernel, by decide,
      List.all_eq_true.mp (by decide), by decide, by rintro c ⟨⟩; decide, by decide +kernel,
      by decide⟩

end Theme

end AtomicCss
