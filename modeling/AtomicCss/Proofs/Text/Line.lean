/-
Cutting a text into lines.

A text has one line more than line feeds.  Where two texts are put together, the last line
of the first and the first line of the second become one; all other lines stay as they are.
-/
import AtomicCss.Text.Line
import Mathlib.Data.List.Basic

namespace AtomicCss.Text

theorem splitLines_cons_lineFeed (cs : List Char) :
    splitLines ('\n' :: cs) = [] :: splitLines cs := rfl

theorem splitLines_cons {c : Char} (h : c ≠ '\n') (cs : List Char) :
    splitLines (c :: cs) = consLine c (splitLines cs) := by
  simp [splitLines, h]

theorem splitLines_ne_nil (cs : List Char) : splitLines cs ≠ [] := by
  cases cs with
  | nil => exact List.cons_ne_nil _ _
  | cons c cs =>
      by_cases h : c = '\n'
      · subst h
        exact List.cons_ne_nil _ _
      · rw [splitLines_cons h]
        unfold consLine
        split <;> exact List.cons_ne_nil _ _

theorem splitLines_of_notMem {cs : List Char} (h : '\n' ∉ cs) : splitLines cs = [cs] := by
  induction cs with
  | nil => rfl
  | cons c cs ih =>
      rw [List.mem_cons, not_or] at h
      rw [splitLines_cons (Ne.symm h.1), ih h.2]
      rfl

theorem length_splitLines (cs : List Char) :
    (splitLines cs).length = cs.count '\n' + 1 := by
  induction cs with
  | nil => rfl
  | cons c cs ih =>
      by_cases h : c = '\n'
      · subst h
        rw [splitLines_cons_lineFeed, List.length_cons, ih, List.count_cons_self]
      · rw [splitLines_cons h, List.count_cons_of_ne h, ← ih]
        cases hlines : splitLines cs with
        | nil => exact absurd hlines (splitLines_ne_nil cs)
        | cons line lines => rfl

/-- Of two texts that are put together only the lines where they meet change. -/
theorem exists_splitLines_append (a b : List Char) :
    ∃ before last first after, splitLines a = before ++ [last] ∧
      splitLines b = first :: after ∧
      splitLines (a ++ b) = before ++ (last ++ first) :: after := by
  obtain ⟨first, after, hb⟩ := List.exists_cons_of_ne_nil (splitLines_ne_nil b)
  induction a with
  | nil => exact ⟨[], [], first, after, rfl, hb, hb⟩
  | cons c a ih =>
      obtain ⟨before, last, first', after', ha, hb', hab⟩ := ih
      by_cases h : c = '\n'
      · subst h
        refine ⟨[] :: before, last, first', after', ?_, hb', ?_⟩
        · rw [splitLines_cons_lineFeed, ha, List.cons_append]
        · rw [List.cons_append, splitLines_cons_lineFeed, hab, List.cons_append]
      · rw [List.cons_append, splitLines_cons h, splitLines_cons h, ha, hab]
        cases before with
        | nil => exact ⟨[], c :: last, first', after', rfl, hb', rfl⟩
        | cons line before =>
            exact ⟨(c :: line) :: before, last, first', after', rfl, hb', rfl⟩

theorem splitLines_append_lineFeed (a b : List Char) :
    splitLines (a ++ '\n' :: b) = splitLines a ++ splitLines b := by
  obtain ⟨before, last, first, after, ha, hb, hab⟩ := exists_splitLines_append a ('\n' :: b)
  rw [splitLines_cons_lineFeed] at hb
  obtain ⟨rfl, rfl⟩ := List.cons.inj hb
  rw [hab, ha, List.append_nil, List.append_assoc]
  rfl

/-! ### Lines of a printed list -/

theorem dropCarriageReturn_of_notMem {line : List Char} (h : '\r' ∉ line) :
    dropCarriageReturn line = line := by
  unfold dropCarriageReturn
  cases hbefore : before? ['\r'] line with
  | none => rfl
  | some rest =>
      rw [before?_eq_some_iff.mp hbefore] at h
      exact absurd (List.mem_append_right rest List.mem_cons_self) h

/-- Texts that are closed by line feeds are cut into these texts and a last line that is
empty. -/
theorem splitLines_flatMap_lineFeed {texts : List (List Char)} (h : ∀ t ∈ texts, '\n' ∉ t) :
    splitLines (texts.flatMap (· ++ ['\n'])) = texts ++ [[]] := by
  induction texts with
  | nil => rfl
  | cons t texts ih =>
      have hrest := ih fun u hu => h u (List.mem_cons_of_mem t hu)
      rw [List.flatMap_cons, List.append_assoc, List.singleton_append,
        splitLines_append_lineFeed, splitLines_of_notMem (h t List.mem_cons_self), hrest]
      rfl

/-- **Texts that are printed on a line each are read back.** -/
theorem displayLines_flatMap_lineFeed {texts : List (List Char)}
    (h : ∀ t ∈ texts, '\n' ∉ t ∧ '\r' ∉ t) :
    displayLines (texts.flatMap (· ++ ['\n'])) = texts := by
  have hdrop : texts.map dropCarriageReturn = texts := by
    refine (List.map_congr_left fun t ht => ?_).trans (List.map_id texts)
    exact dropCarriageReturn_of_notMem (h t ht).2
  simp only [displayLines, splitLines_flatMap_lineFeed fun t ht => (h t ht).1,
    List.dropLast_concat, List.getLast?_concat, hdrop]

end AtomicCss.Text
