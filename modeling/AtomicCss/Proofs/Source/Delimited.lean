/-
No delimited class is missed.

A class is made of class characters and of bracket groups whose brackets nest.  Where one
stands between two barriers, or between a barrier and an end of the text, it is found with
its line, whatever the rest of the text is: the barriers keep the surroundings out, groups
that were left open among them, and between the barriers the class is one single run.
-/
import AtomicCss.Proofs.Source.Barrier
import AtomicCss.Proofs.Text.Blank

namespace AtomicCss.Source

open Text

/-- A text in which brackets nest and nothing ends a class. -/
inductive Balanced : List Char → Prop
  | nil : Balanced []
  | char {c : Char} {cs : List Char} (hbarrier : isBarrier c = false) (hopen : c ≠ '[')
      (hclose : c ≠ ']') (hcs : Balanced cs) : Balanced (c :: cs)
  | group {inner cs : List Char} (hinner : Balanced inner) (hcs : Balanced cs) :
      Balanced ('[' :: (inner ++ ']' :: cs))

/-- A text made of class characters and of whole bracket groups. -/
inductive ClassText : List Char → Prop
  | nil : ClassText []
  | char {c : Char} {cs : List Char} (hc : isClassChar c = true) (hcs : ClassText cs) :
      ClassText (c :: cs)
  | group {inner cs : List Char} (hinner : Balanced inner) (hcs : ClassText cs) :
      ClassText ('[' :: (inner ++ ']' :: cs))

/-! ### A class is one run -/

/-- Looking for the end of a group goes past balanced text. -/
theorem closing?_append_of_balanced {inner : List Char} (h : Balanced inner) :
    ∀ (n : Nat) (cs : List Char),
      closing? n (inner ++ cs) =
        (closing? n cs).map fun (group, rest) => (inner ++ group, rest) := by
  induction h with
  | nil =>
      intro n cs
      simp
  | char hbarrier hopen hclose _ ih =>
      intro n cs
      rw [List.cons_append, closing?, if_neg hclose, if_neg hopen, hbarrier, ih, Option.map_map]
      rfl
  | @group inner tail _ _ ihInner ihTail =>
      intro n cs
      have hopen : closing? n ('[' :: (inner ++ ']' :: (tail ++ cs))) =
          (closing? (n + 1) (inner ++ ']' :: (tail ++ cs))).map
            fun (group, rest) => ('[' :: group, rest) := rfl
      have hclose : closing? (n + 1) (']' :: (tail ++ cs)) =
          (closing? n (tail ++ cs)).map fun (group, rest) => (']' :: group, rest) := rfl
      simp only [List.cons_append, List.append_assoc]
      rw [hopen, ihInner, hclose, ihTail, Option.map_map, Option.map_map, Option.map_map]
      congr 1

theorem group?_of_balanced {inner : List Char} (h : Balanced inner) (cs : List Char) :
    group? ('[' :: (inner ++ ']' :: cs)) = some ('[' :: (inner ++ [']']), cs) := by
  have hclose : closing? 0 (']' :: cs) = some ([']'], cs) := rfl
  rw [group?, closing?_append_of_balanced h, hclose]
  rfl

/-- A run that begins with a class goes on as what stands behind the class does. -/
theorem run_append_of_classText {cs : List Char} (h : ClassText cs) (rest : List Char) :
    run (cs ++ rest) = (cs ++ (run rest).1, (run rest).2) := by
  induction h with
  | nil => rfl
  | @char c cs hc _ ih =>
      have hopen : c ≠ '[' := by
        intro heq
        subst heq
        exact absurd hc (by decide)
      rw [List.cons_append, run_of_group?_eq_none (by simp [group?, hopen]), if_pos hc, ih,
        List.cons_append]
  | group hinner _ ih =>
      simp only [List.cons_append, List.append_assoc]
      rw [run_of_group?_eq_some (group?_of_balanced hinner _), ih]
      simp

theorem run_of_classText {cs : List Char} (h : ClassText cs) : run cs = (cs, []) := by
  have := run_append_of_classText h []
  rwa [run_nil, List.append_nil] at this

theorem runs_of_classText {cs : List Char} (h : ClassText cs) (hne : cs ≠ []) :
    runs cs = [cs] := by
  have hrun := run_of_classText h
  rw [runs_of_run_ne_nil (by rw [hrun]; exact hne), hrun, runs_nil]

theorem splitLines_of_classText {cs : List Char} (h : ClassText cs) : splitLines cs = [cs] := by
  apply splitLines_of_notMem
  intro hmem
  have hrun := not_isBarrier_of_mem_run cs '\n'
  rw [run_of_classText h] at hrun
  exact absurd (hrun hmem) (by decide)

/-! ### The surroundings -/

theorem candidatesFrom_subset_behind {before : List Char}
    (h : ∀ d ∈ before.getLast?, isBarrier d = true) (first : Nat) (cs : List Char) :
    candidatesFrom (first + before.count '\n') (splitLines cs) ⊆
      candidatesFrom first (splitLines (before ++ cs)) := by
  rcases List.eq_nil_or_concat before with rfl | ⟨a, d, rfl⟩
  · exact List.Subset.refl _
  · have hd : isBarrier d = true := h d (by simp)
    rw [List.concat_eq_append, List.append_assoc, List.singleton_append,
      candidatesFrom_append_barrier hd]
    exact List.subset_append_right _ _

theorem candidatesFrom_subset_before {after : List Char}
    (h : ∀ d ∈ after.head?, isBarrier d = true) (first : Nat) (cs : List Char) :
    candidatesFrom first (splitLines cs) ⊆
      candidatesFrom first (splitLines (cs ++ after)) := by
  cases after with
  | nil =>
      rw [List.append_nil]
      exact List.Subset.refl _
  | cons d after =>
      rw [candidatesFrom_append_barrier (h d rfl)]
      exact List.subset_append_left _ _

/-- What a class between barriers contributes is found. -/
theorem mem_candidates_of_mem_candidatesOfRun {before cs after t : List Char}
    (hbefore : ∀ d ∈ before.getLast?, isBarrier d = true)
    (hafter : ∀ d ∈ after.head?, isBarrier d = true) (hcs : ClassText cs) (hne : cs ≠ [])
    (ht : t ∈ candidatesOfRun cs) :
    ⟨String.ofList t, 1 + before.count '\n'⟩ ∈ candidates (before ++ cs ++ after) := by
  show _ ∈ candidatesFrom 1 (splitLines (before ++ cs ++ after))
  rw [List.append_assoc]
  apply candidatesFrom_subset_behind hbefore
  apply candidatesFrom_subset_before hafter
  rw [splitLines_of_classText hcs, candidatesFrom_cons, candidatesOfLine,
    runs_of_classText hcs hne]
  refine List.mem_append_left _ (List.mem_map_of_mem ?_)
  rw [List.flatMap_cons]
  exact List.mem_append_left _ ht

/-! ### Punctuation at the ends -/

/-- Trimming takes off the punctuation at both ends and nothing else. -/
theorem trimRun_append {left middle right : List Char} (hleft : ∀ c ∈ left, isEdge c = true)
    (hright : ∀ c ∈ right, isEdge c = true) (hne : middle ≠ [])
    (hhead : ∀ c ∈ middle.head?, isEdge c = false)
    (hlast : ∀ c ∈ middle.getLast?, isEdge c = false) :
    trimRun (left ++ middle ++ right) = middle :=
  dropEndWhile_dropWhile_append hleft hright hne hhead hlast

theorem mem_candidatesOfRun_self {cs : List Char} (h : cs.any Char.isAlpha = true) :
    cs ∈ candidatesOfRun cs := by
  simp [candidatesOfRun, h]

theorem mem_candidatesOfRun_trimRun {cs : List Char}
    (h : (trimRun cs).any Char.isAlpha = true) : trimRun cs ∈ candidatesOfRun cs := by
  have hany : cs.any Char.isAlpha = true := by
    obtain ⟨c, hc, halpha⟩ := List.any_eq_true.mp h
    exact List.any_eq_true.mpr ⟨c, (trimRun_sublist cs).subset hc, halpha⟩
  by_cases heq : trimRun cs = cs
  · rw [heq]
    exact mem_candidatesOfRun_self hany
  · simp [candidatesOfRun, hany, h, heq]

/-! ### The statement -/

/--
**A class between two barriers is found**, with the number of its line, and so is the class
without the punctuation at its ends, as long as it has a letter.  A side on which there is no
barrier has to be an end of the text.
-/
theorem mem_candidates_of_delimited {before cs after : List Char}
    (hbefore : ∀ d ∈ before.getLast?, isBarrier d = true)
    (hafter : ∀ d ∈ after.head?, isBarrier d = true) (hcs : ClassText cs)
    (hletter : cs.any Char.isAlpha = true) :
    ⟨String.ofList cs, 1 + before.count '\n'⟩ ∈ candidates (before ++ cs ++ after) ∧
      ∀ left middle right, cs = left ++ middle ++ right →
        (∀ c ∈ left, c ∈ ['.', ':', '/']) → (∀ c ∈ right, c ∈ ['.', ':', '/']) →
        (∀ c ∈ middle.head?, c ∉ ['.', ':', '/']) →
        (∀ c ∈ middle.getLast?, c ∉ ['.', ':', '/']) → middle.any Char.isAlpha = true →
        ⟨String.ofList middle, 1 + before.count '\n'⟩ ∈ candidates (before ++ cs ++ after) := by
  have hne : cs ≠ [] := by
    intro h
    rw [h] at hletter
    cases hletter
  have hedge : ∀ c, isEdge c = true ↔ c ∈ ['.', ':', '/'] := by
    intro c
    simp [isEdge, or_assoc]
  refine ⟨mem_candidates_of_mem_candidatesOfRun hbefore hafter hcs hne
    (mem_candidatesOfRun_self hletter), ?_⟩
  intro left middle right hparts hleft hright hhead hlast hmiddle
  have hmiddleNe : middle ≠ [] := by
    intro h
    rw [h] at hmiddle
    cases hmiddle
  have htrim : trimRun cs = middle := by
    rw [hparts]
    exact trimRun_append (fun c hc => (hedge c).mpr (hleft c hc))
      (fun c hc => (hedge c).mpr (hright c hc)) hmiddleNe
      (fun c hc => Bool.eq_false_iff.mpr fun h => hhead c hc ((hedge c).mp h))
      (fun c hc => Bool.eq_false_iff.mpr fun h => hlast c hc ((hedge c).mp h))
  apply mem_candidates_of_mem_candidatesOfRun hbefore hafter hcs hne
  rw [← htrim] at hmiddle ⊢
  exact mem_candidatesOfRun_trimRun hmiddle

/-- Groups that were left open on the lines before keep nothing from being found. -/
theorem mem_candidates_of_delimited_unclosed :
    let before := "w-[a\n[[<".toList
    let cs := "z-[[1]].".toList
    let after := " ]".toList
    (∀ d ∈ before.getLast?, isBarrier d = true) ∧ (∀ d ∈ after.head?, isBarrier d = true) ∧
      ClassText cs ∧ cs.any Char.isAlpha = true ∧
      ⟨"z-[[1]].", 2⟩ ∈ candidates (before ++ cs ++ after) ∧
      ⟨"z-[[1]]", 2⟩ ∈ candidates (before ++ cs ++ after) := by
  intro before cs after
  have hbefore : ∀ d ∈ before.getLast?, isBarrier d = true := by
    intro d hd
    cases hd
    rfl
  have hafter : ∀ d ∈ after.head?, isBarrier d = true := by
    intro d hd
    cases hd
    rfl
  have hone : Balanced ['1'] := .char (by decide) (by decide) (by decide) .nil
  have hinner : Balanced ['[', '1', ']'] := .group hone .nil
  have hdot : ClassText ['.'] := .char (by decide) .nil
  have hcs : ClassText cs := .char (by decide) (.char (by decide) (.group hinner hdot))
  have hletter : cs.any Char.isAlpha = true := by decide
  obtain ⟨hwhole, hmiddle⟩ := mem_candidates_of_delimited hbefore hafter hcs hletter
  refine ⟨hbefore, hafter, hcs, hletter, hwhole, ?_⟩
  exact hmiddle [] "z-[[1]]".toList ['.'] rfl (by simp) (by simp) (by simp) (by simp)
    (by decide +kernel)

end AtomicCss.Source
