/-
Plain paths.

A plain path is made of steps with single slashes between them, none of which stays in place
or goes back.  Nothing in it is redundant, so trimming leaves it as it is, and from the
directory that it is joined to it is itself again (`relativeTo_join`).
-/
import AtomicCss.Ignore.Table
import AtomicCss.Proofs.Project.Path
import AtomicCss.Proofs.Text.Intercalate

namespace AtomicCss

namespace Path

/-- Whether a text between slashes leads from a directory to something in it. -/
structure IsStep (step : List Char) : Prop where
  ne_nil : step ≠ []
  slash_notMem : '/' ∉ step
  ne_current : step ≠ ['.']
  ne_parent : step ≠ ['.', '.']

instance (step : List Char) : Decidable (IsStep step) :=
  decidable_of_iff (step ≠ [] ∧ '/' ∉ step ∧ step ≠ ['.'] ∧ step ≠ ['.', '.'])
    ⟨fun ⟨hnil, hslash, hcurrent, hparent⟩ => ⟨hnil, hslash, hcurrent, hparent⟩,
      fun ⟨hnil, hslash, hcurrent, hparent⟩ => ⟨hnil, hslash, hcurrent, hparent⟩⟩

theorem isStep_of_isName {name : String} (h : isName name = true) : IsStep name.toList := by
  simp only [isName, Bool.and_eq_true, bne_iff_ne, ne_eq, Bool.not_eq_true',
    List.contains_eq_mem, decide_eq_false_iff_not] at h
  obtain ⟨⟨⟨⟨⟨hempty, hcurrent⟩, hparent⟩, hslash⟩, -⟩, -⟩ := h
  have hne (other : String) (hother : name ≠ other) : name.toList ≠ other.toList :=
    fun heq => hother (String.toList_inj.mp heq)
  exact ⟨hne "" hempty, hslash, hne "." hcurrent, hne ".." hparent⟩

/-! ### Nothing is redundant -/

/-- A path that begins with a step begins with nothing redundant. -/
theorem trimStart_append_of_isStep {step : List Char} (h : IsStep step) (rest : List Char) :
    trimStart (step ++ rest) = step ++ rest := by
  obtain ⟨hnil, hslash, hcurrent, -⟩ := h
  cases step with
  | nil => exact absurd rfl hnil
  | cons c step =>
      have hc : c ≠ '/' := fun hc => hslash (hc ▸ List.mem_cons_self)
      have hdot : c :: step ++ rest ≠ ['.'] := by
        intro heq
        obtain ⟨rfl, hstep⟩ := List.cons.inj heq
        exact hcurrent (by rw [(List.append_eq_nil_iff.mp hstep).1])
      have hdots : ∀ more, c :: step ++ rest ≠ '.' :: '/' :: more := by
        intro more heq
        obtain ⟨rfl, hstep⟩ := List.cons.inj heq
        cases step with
        | nil => exact hcurrent rfl
        | cons d step =>
            obtain ⟨rfl, -⟩ := List.cons.inj hstep
            exact hslash (by simp)
      exact trimStart.eq_5 _ (by simp) (fun more heq => hc (List.cons.inj heq).1) hdot hdots

theorem trimReversed_eq_trimStart (cs : List Char) : trimEnd.trimReversed cs = trimStart cs := by
  fun_induction trimStart cs with
  | case1 | case3 => rfl
  | case2 rest ih | case4 rest ih => exact ih
  | case5 cs hnil hslash hdot hdots => exact trimEnd.trimReversed.eq_5 cs hnil hslash hdot hdots

theorem IsStep.reverse {step : List Char} (h : IsStep step) : IsStep step.reverse where
  ne_nil := by simpa using h.ne_nil
  slash_notMem := by simpa using h.slash_notMem
  ne_current := fun heq => h.ne_current (by simpa using congrArg List.reverse heq)
  ne_parent := fun heq => h.ne_parent (by simpa using congrArg List.reverse heq)

variable {steps : List (List Char)}

theorem trimStart_intercalate (h : ∀ step ∈ steps, IsStep step) :
    trimStart (['/'].intercalate steps) = ['/'].intercalate steps := by
  cases steps with
  | nil => rfl
  | cons step steps =>
      obtain ⟨rest, hpath⟩ := Text.exists_intercalate_cons '/' steps
      rw [hpath]
      exact trimStart_append_of_isStep (h step List.mem_cons_self) rest

theorem intercalate_ne_nil (h : ∀ step ∈ steps, IsStep step) (hne : steps ≠ []) :
    ['/'].intercalate steps ≠ [] := by
  obtain ⟨step, rest, rfl⟩ := List.exists_cons_of_ne_nil hne
  obtain ⟨more, hmore⟩ := Text.exists_intercalate_cons '/' rest
  rw [hmore]
  exact List.append_ne_nil_of_left_ne_nil (h step List.mem_cons_self).ne_nil more

theorem trimEnd_intercalate (h : ∀ step ∈ steps, IsStep step) :
    trimEnd 0 (['/'].intercalate steps) = ['/'].intercalate steps := by
  rcases List.eq_nil_or_concat steps with rfl | ⟨init, last, rfl⟩
  · rfl
  · rw [List.concat_eq_append] at h ⊢
    obtain ⟨front, hpath, -⟩ := Text.exists_intercalate_append '/' init last
    have hreverse : (front ++ last).reverse = last.reverse ++ front.reverse := by simp
    show (trimEnd.trimReversed (['/'].intercalate (init ++ [last])).reverse).reverse = _
    rw [hpath, trimReversed_eq_trimStart, hreverse,
      trimStart_append_of_isStep (h last (by simp)).reverse]
    simp

/-! ### Paths from a directory -/

/-- What is left of a path after a directory that it is joined to. -/
theorem bodyAfter?_append (dir path : List Char) :
    bodyAfter? (bodyComponents dir) (dir ++ '/' :: path) = some (trimEnd 0 (trimStart path)) := by
  by_cases h : trimStart dir = []
  · rw [bodyComponents_of_trimStart_nil h, bodyAfter?, trimStart_append, if_pos h]
  · obtain ⟨c, hc⟩ := exists_ofSegment?_trimStart h
    have hnext : next? (dir ++ '/' :: path) =
        some (c, (trimStart dir).dropWhile (· != '/') ++ '/' :: path) := by
      simp only [next?, trimStart_append, if_neg h, takeWhile_append_slash,
        dropWhile_append_slash, hc, Option.map_some]
    have hshorter : ((trimStart dir).dropWhile (· != '/')).length < dir.length :=
      next?_length_lt (c := c) (by simp [next?, hc])
    rw [bodyComponents_of_ofSegment? hc, bodyAfter?, hnext]
    simp only [if_true]
    exact bodyAfter?_append _ _
termination_by dir.length

theorem relativeTo_eq {dir path rest more : List Char} {c : Component}
    (hdir : head? dir = some (c, rest)) (hpath : head? path = some (c, more)) :
    relativeTo dir path = (bodyAfter? (bodyComponents rest) more).getD path := by
  have hcomponents : components dir = c :: bodyComponents rest := by rw [components, hdir]
  rw [relativeTo, relative?, hcomponents, hpath]
  simp only [if_true]

theorem join_cases {dir : List Char} (h : dir ≠ []) (path : List Char) :
    (∃ front, dir = front ++ ['/'] ∧ join dir path = front ++ '/' :: path) ∨
      join dir path = dir ++ '/' :: path := by
  unfold join
  split
  · rename_i hnone
    exact absurd (List.getLast?_eq_none_iff.mp hnone) h
  · rename_i hslash
    obtain ⟨front, rfl⟩ := List.getLast?_eq_some_iff.mp hslash
    exact .inl ⟨front, rfl, by simp⟩
  · exact .inr rfl

/-- A directory that is written from the root stays in front of what is joined to it. -/
theorem exists_join_of_root {dir : List Char} (hdir : dir.head? = some '/') (path : List Char) :
    ∃ front, join dir path = front ++ '/' :: path ∧
      (front ++ '/' :: path).head? = some '/' := by
  obtain ⟨rest, rfl⟩ := List.head?_eq_some_iff.mp hdir
  rcases join_cases (List.cons_ne_nil '/' rest) path with ⟨front, hfront, hjoin⟩ | hjoin
  · refine ⟨front, hjoin, ?_⟩
    cases front with
    | nil => rfl
    | cons c front => rw [← (List.cons.inj hfront).1]; rfl
  · exact ⟨'/' :: rest, hjoin, rfl⟩

theorem trim_intercalate (h : ∀ step ∈ steps, IsStep step) :
    trimEnd 0 (trimStart (['/'].intercalate steps)) = ['/'].intercalate steps := by
  rw [trimStart_intercalate h, trimEnd_intercalate h]

/-- **From a directory that is written from the root, a plain path that is joined to it is
itself again.** -/
theorem relativeTo_join {dir : List Char} (hdir : dir.head? = some '/')
    (h : ∀ step ∈ steps, IsStep step) :
    relativeTo dir (join dir (['/'].intercalate steps)) = ['/'].intercalate steps := by
  obtain ⟨rest, rfl⟩ := List.head?_eq_some_iff.mp hdir
  have hroot (more : List Char) : head? ('/' :: more) = some (.root, more) := rfl
  rcases join_cases (List.cons_ne_nil '/' rest) (['/'].intercalate steps) with
    ⟨front, hfront, hjoin⟩ | hjoin
  · rw [hjoin]
    cases front with
    | nil =>
        obtain rfl : rest = [] := by simpa using hfront
        rw [List.nil_append, relativeTo_eq (hroot _) (hroot _), bodyComponents_nil, bodyAfter?,
          trim_intercalate h, Option.getD_some]
    | cons c front =>
        obtain ⟨rfl, hrest⟩ := List.cons.inj hfront
        obtain rfl : rest = front ++ ['/'] := hrest
        rw [List.cons_append, relativeTo_eq (hroot _) (hroot _), bodyComponents_append,
          bodyComponents_nil, List.append_nil, bodyAfter?_append, trim_intercalate h,
          Option.getD_some]
  · rw [hjoin, List.cons_append, relativeTo_eq (hroot _) (hroot _), bodyAfter?_append,
      trim_intercalate h, Option.getD_some]

/-- From the current directory a plain path is itself, with the dot in front or without. -/
theorem relativeTo_current_join (h : ∀ step ∈ steps, IsStep step) :
    relativeTo ['.'] (join ['.'] (['/'].intercalate steps)) = ['/'].intercalate steps := by
  have hpath : head? (join ['.'] (['/'].intercalate steps)) =
      some (.current, '/' :: ['/'].intercalate steps) := rfl
  have hskip : trimStart ('/' :: ['/'].intercalate steps) = trimStart (['/'].intercalate steps) :=
    trimStart.eq_2 _
  have hdir : head? ['.'] = some (.current, []) := rfl
  rw [relativeTo_eq hdir hpath, bodyComponents_nil, bodyAfter?, hskip,
    trim_intercalate h, Option.getD_some]

end Path

end AtomicCss
