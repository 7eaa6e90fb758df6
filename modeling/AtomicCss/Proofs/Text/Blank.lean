/-
What trimming and splitting leave of a text.

Both only set characters aside: trimming the white space at the ends, splitting the
separators.  So whatever holds of the white space and of what is left holds of the whole
text.
-/
import AtomicCss.Text.Blank
import Mathlib.Data.List.Basic
import Mathlib.Data.List.TakeWhile

namespace AtomicCss.Text

theorem exists_dropEndWhile (p : Char → Bool) (cs : List Char) :
    ∃ after, cs = dropEndWhile p cs ++ after ∧ ∀ c ∈ after, p c = true := by
  refine ⟨(cs.reverse.takeWhile p).reverse, ?_,
    fun c hc => List.mem_takeWhile_imp (List.mem_reverse.mp hc)⟩
  rw [dropEndWhile, ← List.reverse_append, List.takeWhile_append_dropWhile, List.reverse_reverse]

/-- What `p` holds of is dropped at both ends and nothing else. -/
theorem exists_dropWhile_dropEndWhile (p : Char → Bool) (cs : List Char) :
    ∃ before after, cs = before ++ dropEndWhile p (cs.dropWhile p) ++ after ∧
      (∀ c ∈ before, p c = true) ∧ ∀ c ∈ after, p c = true := by
  obtain ⟨after, hcs, hafter⟩ := exists_dropEndWhile p (cs.dropWhile p)
  refine ⟨cs.takeWhile p, after, ?_, fun c hc => List.mem_takeWhile_imp hc, hafter⟩
  rw [List.append_assoc, ← hcs, List.takeWhile_append_dropWhile]

theorem not_of_head?_dropWhile {p : Char → Bool} {cs : List Char} :
    ∀ c ∈ (cs.dropWhile p).head?, p c = false := by
  intro c hc
  have := List.head?_dropWhile_not p cs
  rw [hc] at this
  exact Bool.eq_false_iff.mpr (by simpa using this)

/-- The first and the last character that are left are none that are dropped. -/
theorem ends_dropWhile_dropEndWhile (p : Char → Bool) (cs : List Char) :
    (∀ c ∈ (dropEndWhile p (cs.dropWhile p)).head?, p c = false) ∧
      ∀ c ∈ (dropEndWhile p (cs.dropWhile p)).getLast?, p c = false := by
  constructor
  · intro c hc
    obtain ⟨after, hcs, -⟩ := exists_dropEndWhile p (cs.dropWhile p)
    have hfirst : c ∈ (cs.dropWhile p).head? := by
      rw [hcs]
      cases hkept : dropEndWhile p (cs.dropWhile p) with
      | nil =>
          rw [hkept] at hc
          cases hc
      | cons x kept =>
          rw [hkept] at hc
          exact hc
    exact not_of_head?_dropWhile c hfirst
  · intro c hc
    rw [dropEndWhile, List.getLast?_reverse] at hc
    exact not_of_head?_dropWhile c hc

theorem dropWhile_eq_self {p : Char → Bool} {cs : List Char}
    (h : ∀ c ∈ cs.head?, p c = false) : cs.dropWhile p = cs := by
  cases cs with
  | nil => rfl
  | cons c cs => rw [List.dropWhile_cons_of_neg (by simp [h c rfl])]

/-- What `p` holds of is dropped at both ends, up to a first and a last character that it does
not hold of. -/
theorem dropEndWhile_dropWhile_append {p : Char → Bool} {left middle right : List Char}
    (hleft : ∀ c ∈ left, p c = true) (hright : ∀ c ∈ right, p c = true) (hne : middle ≠ [])
    (hhead : ∀ c ∈ middle.head?, p c = false) (hlast : ∀ c ∈ middle.getLast?, p c = false) :
    dropEndWhile p ((left ++ middle ++ right).dropWhile p) = middle := by
  have hstart : (left ++ middle ++ right).dropWhile p = middle ++ right := by
    rw [List.append_assoc, List.dropWhile_append_of_pos hleft]
    apply dropWhile_eq_self
    intro c hc
    rw [List.head?_append_of_ne_nil _ hne] at hc
    exact hhead c hc
  have hend : (middle ++ right).reverse.dropWhile p = middle.reverse := by
    rw [List.reverse_append,
      List.dropWhile_append_of_pos fun c hc => hright c (List.mem_reverse.mp hc)]
    apply dropWhile_eq_self
    intro c hc
    rw [List.head?_reverse] at hc
    exact hlast c hc
  rw [hstart, dropEndWhile, hend, List.reverse_reverse]

theorem exists_trim (cs : List Char) :
    ∃ before after, cs = before ++ trim cs ++ after ∧ (∀ c ∈ before, isBlank c = true) ∧
      ∀ c ∈ after, isBlank c = true :=
  exists_dropWhile_dropEndWhile isBlank cs

theorem mem_trim {cs : List Char} {c : Char} (h : c ∈ cs) : isBlank c = true ∨ c ∈ trim cs := by
  obtain ⟨before, after, hcs, hbefore, hafter⟩ := exists_trim cs
  rw [hcs, List.mem_append, List.mem_append] at h
  rcases h with (h | h) | h
  · exact .inl (hbefore c h)
  · exact .inr h
  · exact .inl (hafter c h)

theorem mem_splitOnP {p : Char → Bool} {c : Char} :
    ∀ {cs : List Char}, c ∈ cs → p c = true ∨ ∃ piece ∈ cs.splitOnP p, c ∈ piece := by
  intro cs
  induction cs with
  | nil => intro h; cases h
  | cons x cs ih =>
      intro h
      rw [List.splitOnP_cons_eq_if_modifyHead]
      by_cases hx : p x = true
      · rw [if_pos hx]
        rcases List.mem_cons.mp h with rfl | h
        · exact .inl hx
        · exact (ih h).imp_right fun ⟨piece, hmem, hc⟩ => ⟨piece, by simp [hmem], hc⟩
      · rw [if_neg hx]
        obtain ⟨first, pieces, hsplit⟩ :=
          List.exists_cons_of_ne_nil (List.splitOnP_ne_nil p cs)
        rw [hsplit] at ih ⊢
        rcases List.mem_cons.mp h with rfl | h
        · exact .inr ⟨c :: first, by simp, by simp⟩
        · refine (ih h).imp_right fun ⟨piece, hmem, hc⟩ => ?_
          rcases List.mem_cons.mp hmem with rfl | hmem
          · exact ⟨x :: piece, by simp, by simp [hc]⟩
          · exact ⟨piece, by simp [hmem], hc⟩

theorem mem_words {cs : List Char} {c : Char} (h : c ∈ cs) :
    isBlank c = true ∨ ∃ word ∈ words cs, c ∈ word := by
  refine (mem_splitOnP h).imp_right fun ⟨word, hmem, hc⟩ => ⟨word, ?_, hc⟩
  refine List.mem_filter.mpr ⟨hmem, ?_⟩
  cases word with
  | nil => cases hc
  | cons _ _ => rfl

end AtomicCss.Text
