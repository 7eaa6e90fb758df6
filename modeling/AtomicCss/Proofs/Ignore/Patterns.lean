/-
Patterns of files to leave out, one by one.

Such patterns are used together: one that is too deep makes the whole list useless, and the
fault says which one it is.  That aside every pattern decides for itself, so a usable list
leaves a path out exactly if one of its patterns alone would.
-/
import AtomicCss.Ignore.Patterns
import Mathlib.Data.List.Basic

namespace AtomicCss

namespace Glob

/-- Whether a pattern has an expression whose depth counts. -/
def Shape.hasExpression : Shape → Bool
  | .extended | .general => true
  | .name | .extension | .fixed => false

theorem depthFault?_eq_none_iff {globs : List Glob} :
    depthFault? globs = none ↔ ∀ g ∈ globs, g.shape.hasExpression = true → isTooDeep g = false := by
  unfold depthFault?
  constructor
  · intro h g hg hshape
    split at h
    · cases h
    · rename_i hfind
      rw [Option.map_eq_none_iff, List.findIdx?_eq_none_iff] at h
      have hextended := List.find?_eq_none.mp hfind g hg
      have hgeneral := h g
      cases hkind : g.shape with
      | extended => simpa [hkind] using hextended
      | general => exact hgeneral (List.mem_filter.mpr ⟨hg, by simp [hkind]⟩)
      | name | extension | fixed =>
          rw [hkind] at hshape
          cases hshape
  · intro h
    have hfind : (globs.find? fun g => g.shape = .extended && isTooDeep g) = none := by
      rw [List.find?_eq_none]
      intro g hg hdeep
      simp only [Bool.and_eq_true, decide_eq_true_eq] at hdeep
      have hshallow := h g hg (by rw [hdeep.1]; rfl)
      rw [hdeep.2] at hshallow
      cases hshallow
    rw [hfind]
    simp only [Option.map_eq_none_iff, List.findIdx?_eq_none_iff]
    intro g hg
    obtain ⟨hg, hgeneral⟩ := List.mem_filter.mp hg
    exact h g hg (by rw [of_decide_eq_true hgeneral]; rfl)

end Glob

namespace IgnorePatterns

variable {globs : List Glob} {usable : IgnorePatterns} {path : List Char}

theorem ofGlobs_eq_ok : ofGlobs globs = .ok usable ↔
    Glob.depthFault? globs = none ∧ usable = ⟨globs⟩ := by
  unfold ofGlobs
  split
  · rename_i hfault
    simp [hfault]
  · rename_i hfault
    simp [hfault, eq_comm]

/-- Patterns leave out what one of them does by itself. -/
theorem isMatch_eq_true_iff :
    isMatch ⟨globs⟩ path = true ↔ ∃ g ∈ globs, isMatch ⟨[g]⟩ path = true := by
  simp [isMatch]

end IgnorePatterns

end AtomicCss
