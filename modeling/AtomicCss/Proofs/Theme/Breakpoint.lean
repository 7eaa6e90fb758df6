/-
Sorting breakpoints loses none.

Breakpoints of mixed units need not be ordered by a transitive relation, so nothing is said here of
the order they come to stand in, and a long list of them may not be sorted at all.  But what is
sorted is put into its place one after the other, and all are kept.  So a screen that is looked for
by its name is found wherever it stands, and has the width of its token.
-/
import AtomicCss.Proofs.SortedMap
import AtomicCss.Theme.Table

namespace AtomicCss

namespace Breakpoint

variable {bs sorted : List Breakpoint}

open List in
theorem place_perm (a : Breakpoint) (bs : List Breakpoint) : place a bs ~ a :: bs := by
  induction bs with
  | nil => exact List.Perm.refl _
  | cons b bs ih =>
      rw [place]
      split
      · exact (ih.cons b).trans (List.Perm.swap a b bs)
      · exact List.Perm.refl _

open List in
theorem foldl_place_perm (bs placed : List Breakpoint) :
    bs.foldl (fun sorted b => place b sorted) placed ~ bs ++ placed := by
  induction bs generalizing placed with
  | nil => exact List.Perm.refl _
  | cons b bs ih =>
      calc bs.foldl (fun sorted b => place b sorted) (place b placed)
          ~ bs ++ place b placed := ih _
        _ ~ bs ++ b :: placed := (place_perm b placed).append_left bs
        _ ~ b :: bs ++ placed := List.perm_middle

theorem sort?_eq_some_iff :
    sort? bs = some sorted ↔
      (bs.length ≤ insertionLimit ∨ Consistent bs) ∧ placeAll bs = sorted := by
  unfold sort?
  split
  · rename_i h
    rw [Option.some.injEq, and_iff_right h]
  · rename_i h
    simp [h]

/-- Few breakpoints can be sorted, and any number of them if the comparison is transitive. -/
theorem exists_sort? (h : bs.length ≤ insertionLimit ∨ Consistent bs) :
    ∃ sorted, sort? bs = some sorted :=
  ⟨_, sort?_eq_some_iff.mpr ⟨h, rfl⟩⟩

open List in
/-- **Sorting keeps every breakpoint.** -/
theorem perm_of_sort? (h : sort? bs = some sorted) : sorted ~ bs := by
  obtain ⟨-, rfl⟩ := sort?_eq_some_iff.mp h
  have hplaced := foldl_place_perm bs []
  rw [List.append_nil] at hplaced
  exact (List.reverse_perm _).trans hplaced

end Breakpoint

namespace Theme

variable {theme : Theme} {screens : List Breakpoint}

theorem find?_screens_eq (theme : Theme) (name : String) :
    theme.find? .screens name = ((theme.tokens.find? .screens).getD ∅).find? name := by
  unfold find?
  cases theme.tokens.find? .screens <;> rfl

theorem mem_breakpoints_iff {b : Breakpoint} :
    b ∈ theme.breakpoints ↔ theme.find? .screens b.name = some b.width := by
  rw [find?_screens_eq]
  constructor
  · intro h
    obtain ⟨e, he, rfl⟩ := List.mem_map.mp h
    exact SortedMap.find?_of_mem he
  · intro h
    exact List.mem_map.mpr ⟨(b.name, b.width), SortedMap.mem_of_find? h, rfl⟩

theorem mem_screens_iff (h : theme.screens? = some screens) {b : Breakpoint} :
    b ∈ screens ↔ theme.find? .screens b.name = some b.width :=
  (Breakpoint.perm_of_sort? h).mem_iff.trans mem_breakpoints_iff

theorem breakpoints_congr {other : Theme}
    (h : ∀ name, other.find? .screens name = theme.find? .screens name) :
    other.breakpoints = theme.breakpoints := by
  have hsame : (other.tokens.find? .screens).getD ∅ = (theme.tokens.find? .screens).getD ∅ := by
    apply SortedMap.ext_find?
    intro name
    rw [← find?_screens_eq, ← find?_screens_eq, h]
  rw [breakpoints, breakpoints, hsame]

/-- **A screen is found by its name**, and has the width that the theme gives the name. -/
theorem find?_screens (h : theme.screens? = some screens) (name : String) :
    (screens.find? (·.name == name)).map (·.width) = theme.find? .screens name := by
  cases hfind : screens.find? (·.name == name) with
  | some b =>
      have hmem := (mem_screens_iff h).mp (List.mem_of_find?_eq_some hfind)
      have hname : b.name = name := by simpa using List.find?_some hfind
      rw [hname] at hmem
      rw [hmem]
      rfl
  | none =>
      cases hwidth : theme.find? .screens name with
      | none => rfl
      | some width =>
          have hmem : ⟨name, width⟩ ∈ screens := (mem_screens_iff h).mpr hwidth
          have hmissed := List.find?_eq_none.mp hfind _ hmem
          simp at hmissed

end Theme

end AtomicCss
