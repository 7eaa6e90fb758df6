/-
Pieces with a separator between them.

Paths are steps between slashes, and blocks are declarations between semicolons.  What such a
text begins and ends with is decided by its first and its last piece, and it has no characters
but theirs and the separator.
-/
import Mathlib.Data.List.Basic

namespace AtomicCss.Text

variable {α : Type}

/-- The first piece comes first, and what follows does not depend on it. -/
theorem exists_intercalate_cons (sep : α) (pieces : List (List α)) :
    ∃ rest, ∀ piece, [sep].intercalate (piece :: pieces) = piece ++ rest := by
  cases pieces with
  | nil => exact ⟨[], by simp⟩
  | cons next pieces =>
      refine ⟨sep :: [sep].intercalate (next :: pieces), fun piece => ?_⟩
      rw [List.intercalate_cons_cons, List.append_assoc]
      rfl

/-- What comes before the last piece is nothing, or ends with the separator. -/
theorem exists_intercalate_append (sep : α) (pieces : List (List α)) (last : List α) :
    ∃ front, [sep].intercalate (pieces ++ [last]) = front ++ last ∧
      (front = [] ∨ ∃ before, front = before ++ [sep]) := by
  induction pieces with
  | nil => exact ⟨[], by simp, .inl rfl⟩
  | cons piece pieces ih =>
      obtain ⟨front, hfront, hsep⟩ := ih
      refine ⟨piece ++ sep :: front, ?_, .inr ?_⟩
      · obtain ⟨next, rest, hnext⟩ := List.exists_cons_of_ne_nil
          (List.append_ne_nil_of_right_ne_nil pieces (List.cons_ne_nil last []))
        rw [List.cons_append, hnext, List.intercalate_cons_cons, ← hnext, hfront]
        simp
      · rcases hsep with rfl | ⟨before, rfl⟩
        · exact ⟨piece, rfl⟩
        · exact ⟨piece ++ sep :: before, by simp⟩

/-- Further pieces come behind the others. -/
theorem intercalate_isPrefix (sep : α) (pieces more : List (List α)) :
    [sep].intercalate pieces <+: [sep].intercalate (pieces ++ more) := by
  induction pieces with
  | nil => exact List.nil_prefix
  | cons piece pieces ih =>
      cases pieces with
      | nil =>
          obtain ⟨rest, hrest⟩ := exists_intercalate_cons sep more
          rw [List.intercalate_singleton, List.singleton_append, hrest]
          exact List.prefix_append piece rest
      | cons next pieces =>
          rw [List.cons_append, List.cons_append, List.intercalate_cons_cons,
            List.intercalate_cons_cons]
          exact (List.prefix_append_right_inj _).mpr ih

theorem notMem_intercalate {sep a : α} {pieces : List (List α)} (hsep : a ≠ sep)
    (h : ∀ piece ∈ pieces, a ∉ piece) : a ∉ [sep].intercalate pieces := by
  induction pieces with
  | nil => simp
  | cons piece pieces ih =>
      obtain ⟨hpiece, hpieces⟩ := List.forall_mem_cons.mp h
      cases pieces with
      | nil => simpa using hpiece
      | cons next pieces =>
          rw [List.intercalate_cons_cons]
          simp only [List.mem_append, List.mem_singleton, not_or]
          exact ⟨⟨hpiece, hsep⟩, ih hpieces⟩

/-- A separator at the end, too, ends every piece with one. -/
theorem intercalate_concat (sep : α) {pieces : List (List α)} (h : pieces ≠ []) :
    [sep].intercalate pieces ++ [sep] = pieces.flatMap (· ++ [sep]) := by
  induction pieces with
  | nil => exact absurd rfl h
  | cons piece pieces ih =>
      cases pieces with
      | nil => simp
      | cons next pieces =>
          rw [List.intercalate_cons_cons, List.append_assoc, ih (List.cons_ne_nil _ _)]
          rfl

/-- Pieces that end with one separator and are put together with another can as well begin with
the other and be put together with the one. -/
theorem cons_intercalate_map_concat (a b : α) {pieces : List (List α)} (h : pieces ≠ []) :
    a :: [a].intercalate (pieces.map (· ++ [b])) =
      [b].intercalate (pieces.map (a :: ·)) ++ [b] := by
  induction pieces with
  | nil => exact absurd rfl h
  | cons piece pieces ih =>
      cases pieces with
      | nil => simp
      | cons next pieces =>
          have hrest := ih (List.cons_ne_nil _ _)
          simp only [List.map_cons, List.intercalate_cons_cons] at hrest ⊢
          rw [List.append_assoc _ _ [b], ← hrest]
          simp

end AtomicCss.Text
