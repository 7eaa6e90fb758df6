/-
What is left of a list once a known beginning or end is taken off.
-/
namespace AtomicCss.Text

variable {α : Type} [DecidableEq α]

/-- What follows `stem` in `xs`, if `xs` begins with it. -/
def after? : List α → List α → Option (List α)
  | [], xs => some xs
  | _ :: _, [] => none
  | s :: stem, x :: xs => if s = x then after? stem xs else none

/-- What comes before `tail` in `xs`, if `xs` ends with it. -/
def before? (tail xs : List α) : Option (List α) :=
  (after? tail.reverse xs.reverse).map List.reverse

theorem after?_eq_some_iff {stem xs rest : List α} :
    after? stem xs = some rest ↔ xs = stem ++ rest := by
  induction stem generalizing xs with
  | nil => simp [after?, eq_comm]
  | cons s stem ih =>
    cases xs with
    | nil => simp [after?]
    | cons x xs =>
      by_cases h : s = x
      · simp [after?, h, ih]
      · simp [after?, h, Ne.symm h]

theorem after?_append (stem rest : List α) : after? stem (stem ++ rest) = some rest :=
  after?_eq_some_iff.mpr rfl

/-- What follows a beginning is not longer than the whole. -/
theorem after?_length {stem xs rest : List α} (h : after? stem xs = some rest) :
    rest.length ≤ xs.length := by
  rw [after?_eq_some_iff.mp h, List.length_append]
  omega

theorem before?_eq_some_iff {tail xs rest : List α} :
    before? tail xs = some rest ↔ xs = rest ++ tail := by
  constructor
  · intro h
    obtain ⟨r, hr, rfl⟩ := Option.map_eq_some_iff.mp h
    have := after?_eq_some_iff.mp hr
    simpa using congrArg List.reverse this
  · rintro rfl
    refine Option.map_eq_some_iff.mpr ⟨rest.reverse, ?_, by simp⟩
    exact after?_eq_some_iff.mpr (by simp)

theorem before?_append (xs tail : List α) : before? tail (xs ++ tail) = some xs :=
  before?_eq_some_iff.mpr rfl

end AtomicCss.Text
