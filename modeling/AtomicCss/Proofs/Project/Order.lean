/-
The order of paths.

Paths are ordered by their components from the left, those that are names by their texts.  This is
not the order in which they stand as texts: `a.html` comes before `a/b.html` as a text, since a dot
comes before a slash, but behind it as a path, since `a` comes before `a.html`.

What a walk finds it knows by the path of its start and the names that lead from there, and the
names are components of the path as they are (`components_pathFrom`).  So it is the order of
locations that the paths of a walk have (`before_pathFrom`).
-/
import AtomicCss.Project.Basic
import AtomicCss.Proofs.Project.Plain
import Mathlib.Data.List.Lex
import Mathlib.Data.List.TakeWhile

namespace AtomicCss

namespace Component

/-- Which of two components that are not both names comes first. -/
def rank : Component → Nat
  | .root => 0
  | .current => 1
  | .parent => 2
  | .name _ => 3

/-- One component comes before another. -/
inductive Before : Component → Component → Prop
  | rank {a b : Component} (h : a.rank < b.rank) : Before a b
  | name {text other : List Char} (h : text < other) : Before (.name text) (.name other)

theorem not_before_self (c : Component) : ¬ Before c c := by
  intro h
  cases h with
  | rank h => exact Nat.lt_irrefl _ h
  | name h => exact List.lt_irrefl _ h

end Component

/-- The order of locations is that of the lists of names. -/
theorem Location.compare_eq_lt_iff {a b : Location} : compare a b = .lt ↔ a < b := by
  have hname (m n : String) : compare m n = .lt ↔ m < n := compareOfLessAndEq_eq_lt
  induction a generalizing b with
  | nil =>
      cases b with
      | nil => simp
      | cons n b => simp [List.compare_nil_cons]
  | cons m a ih =>
      cases b with
      | nil => simp [List.compare_cons_nil]
      | cons n b =>
          simp only [List.compare_cons_cons, List.cons_lt_cons_iff, Ordering.then_eq_lt, hname,
            Std.LawfulEqCmp.compare_eq_iff_eq]
          exact or_congr Iff.rfl (and_congr Iff.rfl ih)

namespace Path

/-- One path comes before another. -/
def Before (path other : List Char) : Prop :=
  List.Lex Component.Before (components path) (components other)

theorem components_ne_of_before {path other : List Char} (h : Before path other) :
    components path ≠ components other := by
  intro heq
  unfold Before at h
  rw [heq] at h
  exact List.lex_irrefl Component.not_before_self _ h

/-! ### The components of a plain path -/

theorem bodyComponents_of_isStep {step : List Char} (h : IsStep step) :
    bodyComponents step = [.name step] := by
  have htrim : trimStart step = step := by
    simpa using trimStart_append_of_isStep h []
  have hslash : ∀ c ∈ step, (c != '/') = true := by
    intro c hc
    rw [bne_iff_ne]
    rintro rfl
    exact h.slash_notMem hc
  have hsegment : ofSegment? ((trimStart step).takeWhile (· != '/')) = some (.name step) := by
    rw [htrim, List.takeWhile_eq_self_iff.mpr hslash]
    simp [ofSegment?, h.ne_nil, h.ne_current, h.ne_parent]
  rw [bodyComponents_of_ofSegment? hsegment, htrim, List.dropWhile_eq_nil_iff.mpr hslash,
    bodyComponents_nil]

theorem bodyComponents_intercalate {steps : List (List Char)} (h : ∀ step ∈ steps, IsStep step) :
    bodyComponents (['/'].intercalate steps) = steps.map .name := by
  induction steps with
  | nil => exact bodyComponents_nil
  | cons step steps ih =>
      obtain ⟨hstep, hsteps⟩ := List.forall_mem_cons.mp h
      cases steps with
      | nil => simpa [List.intercalate] using bodyComponents_of_isStep hstep
      | cons next steps =>
          rw [List.intercalate_cons_cons, List.append_assoc, List.singleton_append,
            bodyComponents_append, bodyComponents_of_isStep hstep, ih hsteps]
          rfl

theorem head?_append_slash {dir : List Char} (h : dir ≠ []) (path : List Char) :
    head? (dir ++ '/' :: path) =
      (head? dir).map fun (c, rest) => (c, rest ++ '/' :: path) := by
  cases dir with
  | nil => exact absurd rfl h
  | cons c dir =>
      by_cases hslash : c = '/'
      · subst hslash
        rfl
      · by_cases hdot : c = '.'
        · subst hdot
          cases dir with
          | nil => rfl
          | cons d dir =>
              by_cases hd : d = '/'
              · subst hd
                rfl
              · simp [head?, startsWithCurrent, hd]
        · simp [head?, startsWithCurrent, hslash, hdot]

theorem components_append_slash {dir : List Char} (h : dir ≠ []) (path : List Char) :
    components (dir ++ '/' :: path) = components dir ++ bodyComponents path := by
  rw [components, head?_append_slash h, components]
  cases head? dir with
  | none => exact bodyComponents_append dir path
  | some head => simp [bodyComponents_append]

theorem components_join {dir path : List Char} (h : dir ≠ []) :
    components (join dir path) = components dir ++ bodyComponents path := by
  rcases join_cases h path with ⟨front, rfl, hjoin⟩ | hjoin
  · rw [hjoin]
    cases front with
    | nil => simp [components, head?]
    | cons c front =>
        rw [components_append_slash (List.cons_ne_nil c front),
          components_append_slash (List.cons_ne_nil c front), bodyComponents_nil, List.append_nil]
  · rw [hjoin, components_append_slash h]

/-! ### The paths of a walk -/

variable {start : List Char} {names others : List String}

/-- A walk puts the names behind the components of its start. -/
theorem components_pathFrom (hstart : start ≠ []) (h : ∀ name ∈ names, isName name = true) :
    components (IgnoreTable.pathFrom start names) =
      components start ++ names.map fun name => .name name.toList := by
  have hsteps : ∀ step ∈ names.map String.toList, IsStep step := by
    intro step hstep
    obtain ⟨name, hname, rfl⟩ := List.mem_map.mp hstep
    exact isStep_of_isName (h name hname)
  unfold IgnoreTable.pathFrom
  split
  · rename_i hnone
    rw [hnone, List.map_nil, List.append_nil]
  · rw [components_join hstart, IgnoreTable.pathOf, bodyComponents_intercalate hsteps, List.map_map]
    rfl

theorem lex_name_of_lt (h : names < others) :
    List.Lex Component.Before (names.map fun name => .name name.toList)
      (others.map fun name => .name name.toList) := by
  induction (h : List.Lex (· < ·) names others) with
  | nil => exact .nil
  | cons _ ih => exact .cons ih
  | rel hname => exact .rel (.name hname)

/-- **The paths of a walk are ordered as the locations are.** -/
theorem before_pathFrom (hstart : start ≠ []) (h : ∀ name ∈ names, isName name = true)
    (hothers : ∀ name ∈ others, isName name = true) (hlt : names < others) :
    Before (IgnoreTable.pathFrom start names) (IgnoreTable.pathFrom start others) := by
  unfold Before
  rw [components_pathFrom hstart h, components_pathFrom hstart hothers]
  exact List.Lex.append_left _ (lex_name_of_lt hlt) _

end Path

end AtomicCss
