/-
The words of a text.

`words` cuts a text at every white space and drops the empty pieces.  `Spaced` says from the
outside what such a text looks like: words without white space, with white space between them.
For a text that neither begins nor ends with white space the two come to the same.
-/
import AtomicCss.Proofs.Text.Blank

namespace AtomicCss.Text

/-- `cs` is made of words, which have no white space in them, and of white space between
them. -/
inductive Spaced : List (List Char) → List Char → Prop
  | last {word : List Char} (hne : word ≠ []) (hword : ∀ c ∈ word, isBlank c = false) :
      Spaced [word] word
  | cons {word gap cs : List Char} {rest : List (List Char)} (hne : word ≠ [])
      (hword : ∀ c ∈ word, isBlank c = false) (hgap : gap ≠ [])
      (hblank : ∀ c ∈ gap, isBlank c = true) (hrest : Spaced rest cs) :
      Spaced (word :: rest) (word ++ (gap ++ cs))

theorem words_append_blank {c : Char} (hc : isBlank c = true) (a b : List Char) :
    words (a ++ c :: b) = words a ++ words b := by
  rw [words, List.splitOnP_append_cons a b hc, List.filter_append]
  rfl

theorem words_of_not_blank {word : List Char} (hne : word ≠ [])
    (hword : ∀ c ∈ word, isBlank c = false) : words word = [word] := by
  rw [words, List.splitOnP_eq_singleton hword]
  simp [hne]

theorem words_append_of_blank {gap : List Char} (hblank : ∀ c ∈ gap, isBlank c = true)
    (cs : List Char) : words (gap ++ cs) = words cs := by
  induction gap with
  | nil => rfl
  | cons c gap ih =>
      obtain ⟨hc, hgap⟩ := List.forall_mem_cons.mp hblank
      have hnil : words [] = [] := by simp [words, List.splitOnP_nil]
      have := words_append_blank hc [] (gap ++ cs)
      rw [hnil, List.nil_append, List.nil_append] at this
      rw [List.cons_append, this, ih hgap]

theorem words_append_gap {word gap : List Char} (hne : word ≠ [])
    (hword : ∀ c ∈ word, isBlank c = false) (hgap : gap ≠ [])
    (hblank : ∀ c ∈ gap, isBlank c = true) (cs : List Char) :
    words (word ++ (gap ++ cs)) = word :: words cs := by
  obtain ⟨c, gap, rfl⟩ := List.exists_cons_of_ne_nil hgap
  obtain ⟨hc, hblank⟩ := List.forall_mem_cons.mp hblank
  rw [List.cons_append, words_append_blank hc, words_of_not_blank hne hword,
    words_append_of_blank hblank]
  rfl

theorem words_of_spaced {parts : List (List Char)} {cs : List Char} (h : Spaced parts cs) :
    words cs = parts := by
  induction h with
  | last hne hword => exact words_of_not_blank hne hword
  | cons hne hword hgap hblank _ ih => rw [words_append_gap hne hword hgap hblank, ih]

/-- A text that does not begin with white space is a word, then white space, then a text that
does not begin with white space either. -/
theorem exists_word {cs : List Char} (hne : cs ≠ [])
    (hhead : ∀ c ∈ cs.head?, isBlank c = false) :
    ∃ word gap rest, cs = word ++ (gap ++ rest) ∧ word ≠ [] ∧
      (∀ c ∈ word, isBlank c = false) ∧ (∀ c ∈ gap, isBlank c = true) ∧
      (∀ c ∈ rest.head?, isBlank c = false) ∧ (gap = [] → rest = []) := by
  obtain ⟨c, cs, rfl⟩ := List.exists_cons_of_ne_nil hne
  have hc : isBlank c = false := hhead c rfl
  let tail := cs.dropWhile fun c => !isBlank c
  refine ⟨c :: cs.takeWhile fun c => !isBlank c, tail.takeWhile isBlank, tail.dropWhile isBlank,
    ?_, List.cons_ne_nil _ _, fun x hx => ?_, fun x hx => List.mem_takeWhile_imp hx,
    not_of_head?_dropWhile, fun hgap => ?_⟩
  · rw [List.takeWhile_append_dropWhile, List.cons_append, List.takeWhile_append_dropWhile]
  · rcases List.mem_cons.mp hx with rfl | hx
    · exact hc
    · simpa using List.mem_takeWhile_imp hx
  · have hstart : ∀ x ∈ tail.head?, isBlank x = true := fun x hx => by
      simpa using not_of_head?_dropWhile x hx
    cases htail : tail with
    | nil => rfl
    | cons x rest =>
        rw [htail] at hgap hstart
        rw [List.takeWhile_cons_of_pos (hstart x rfl)] at hgap
        cases hgap

theorem spaced_words {cs : List Char} (hne : cs ≠ []) (hhead : ∀ c ∈ cs.head?, isBlank c = false)
    (hlast : ∀ c ∈ cs.getLast?, isBlank c = false) : Spaced (words cs) cs := by
  induction hlen : cs.length using Nat.strongRecOn generalizing cs with
  | _ len ih =>
      obtain ⟨word, gap, rest, rfl, hword, hfree, hblank, hrest, hgap⟩ := exists_word hne hhead
      by_cases hnil : rest = []
      · -- Without a rest there is no white space either, for the text does not end with it.
        have hgapNil : gap = [] := by
          by_contra hne
          have hmem := List.getLast_mem hne
          have := hlast (gap.getLast hne) (by
            rw [hnil, List.append_nil, List.getLast?_append_of_ne_nil _ hne]
            exact List.getLast?_eq_some_getLast hne)
          rw [hblank _ hmem] at this
          cases this
        rw [hnil, hgapNil, List.append_nil, List.append_nil, words_of_not_blank hword hfree]
        exact .last hword hfree
      · have hgapNe : gap ≠ [] := fun h => hnil (hgap h)
        have hlast' : ∀ c ∈ rest.getLast?, isBlank c = false := by
          intro c hc
          apply hlast
          rw [List.getLast?_append_of_ne_nil _ (List.append_ne_nil_of_right_ne_nil gap hnil),
            List.getLast?_append_of_ne_nil _ hnil]
          exact hc
        have hlt : rest.length < len := by
          have := List.length_pos_iff.mpr hword
          rw [List.length_append, List.length_append] at hlen
          omega
        rw [words_append_gap hword hfree hgapNe hblank]
        exact .cons hword hfree hgapNe hblank (ih rest.length hlt hnil hrest hlast' rfl)

end AtomicCss.Text
