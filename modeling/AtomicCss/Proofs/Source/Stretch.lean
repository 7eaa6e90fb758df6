/-
Where the candidates of a text stand.

`stretches` lists the runs of a whole text from left to right, each with what comes before it
and behind it.  The search by lines finds these runs and no others, on the lines on which they
begin.

They are the longest classes of the text.  Every class that stands anywhere in the text lies
within one of them: where none begins the search goes on by one character, and a class that
begins within a run ends within it.  And they do not overlap, so none lies within another.
-/
import AtomicCss.Proofs.Source.Run
import Mathlib.Data.List.Pairwise

namespace AtomicCss.Source

open Text

/-- A stretch of a text, with what comes before it and behind it. -/
structure Stretch where
  before : List Char
  text : List Char
  after : List Char

namespace Stretch

/-- The line on which a stretch begins, counted from one. -/
def line (s : Stretch) : Nat :=
  1 + s.before.count '\n'

/-- How many characters come before a stretch. -/
def start (s : Stretch) : Nat :=
  s.before.length

/-- How many characters come before the end of a stretch. -/
def stop (s : Stretch) : Nat :=
  s.start + s.text.length

/-- What a stretch contributes to the candidates. -/
def candidates (s : Stretch) : List Candidate :=
  (candidatesOfRun s.text).map fun text => ⟨String.ofList text, s.line⟩

/-- A class that stands in the text `cs`. -/
structure IsClassIn (cs : List Char) (s : Stretch) : Prop where
  whole : s.before ++ (s.text ++ s.after) = cs
  classText : ClassText s.text
  ne_nil : s.text ≠ []

/-- A class that stands in the text `cs` and is part of no longer one. -/
structure IsLongestIn (cs : List Char) (s : Stretch) : Prop extends IsClassIn cs s where
  longest : ∀ t, IsClassIn cs t → t.start ≤ s.start → s.stop ≤ t.stop → t = s

/-- Stretches that do not overlap. -/
def Apart (s t : Stretch) : Prop :=
  s.stop ≤ t.start ∨ t.stop ≤ s.start

instance : Std.Symm Apart := ⟨fun _ _ => Or.symm⟩

theorem IsClassIn.ext {cs : List Char} {s t : Stretch} (hs : s.IsClassIn cs)
    (ht : t.IsClassIn cs) (hstart : s.start = t.start) (hstop : s.stop = t.stop) : s = t := by
  obtain ⟨before, text, after⟩ := s
  obtain ⟨before', text', after'⟩ := t
  simp only [stop, start] at hstart hstop
  obtain ⟨rfl, hrest⟩ := List.append_inj (hs.whole.trans ht.whole.symm) hstart
  obtain ⟨rfl, rfl⟩ := List.append_inj hrest (by simpa using hstop)
  rfl

end Stretch

/-- The runs of `cs`, which stands behind `before`. -/
def stretchesFrom (before cs : List Char) : List Stretch :=
  match h : run cs with
  | ([], _) =>
    match cs with
    | [] => []
    | c :: cs => stretchesFrom (before ++ [c]) cs
  | (c :: more, rest) =>
    have : rest.length < cs.length := by
      have hl := congrArg List.length (run_append cs)
      rw [h] at hl
      simp only [List.length_append, List.length_cons] at hl
      omega
    ⟨before, c :: more, rest⟩ :: stretchesFrom (before ++ c :: more) rest
termination_by cs.length

/-- The runs of a text that have a letter. -/
def stretches (cs : List Char) : List Stretch :=
  (stretchesFrom [] cs).filter fun s => s.text.any Char.isAlpha

/-! ### Runs in their places -/

theorem mem_stretchesFrom {before cs : List Char} {s : Stretch}
    (h : s ∈ stretchesFrom before cs) :
    s.IsClassIn (before ++ cs) ∧ before.length ≤ s.start ∧ (run s.after).1 = [] := by
  fun_induction stretchesFrom before cs with
  | case1 => cases h
  | case2 before c cs rest _ ih =>
      obtain ⟨hclass, hstart, hafter⟩ := ih h
      rw [List.append_assoc] at hclass
      rw [List.length_append] at hstart
      exact ⟨hclass, by omega, hafter⟩
  | case3 before cs c more rest hrun _ ih =>
      have hcs : c :: more ++ rest = cs := by
        have := run_append cs
        rwa [hrun] at this
      rcases List.mem_cons.mp h with rfl | h
      · have hclass := classText_run cs
        have hafter := run_behind cs
        rw [hrun] at hclass hafter
        exact ⟨⟨congrArg (before ++ ·) hcs, hclass, List.cons_ne_nil _ _⟩, Nat.le_refl _, hafter⟩
      · obtain ⟨hclass, hstart, hafter⟩ := ih h
        rw [List.append_assoc, hcs] at hclass
        rw [List.length_append] at hstart
        exact ⟨hclass, by omega, hafter⟩

theorem pairwise_stretchesFrom (before cs : List Char) :
    (stretchesFrom before cs).Pairwise fun s t => s.stop ≤ t.start := by
  fun_induction stretchesFrom before cs with
  | case1 => exact .nil
  | case2 before c cs rest _ ih => exact ih
  | case3 before cs c more rest hrun _ ih =>
      refine .cons (fun t ht => ?_) ih
      have := (mem_stretchesFrom ht).2.1
      rwa [List.length_append] at this

theorem exists_mem_stretchesFrom {cs : List Char} (before : List Char) :
    ∀ {left t right : List Char}, left ++ (t ++ right) = cs → ClassText t → t ≠ [] →
      ∃ s ∈ stretchesFrom before cs, s.start ≤ before.length + left.length ∧
        before.length + left.length + t.length ≤ s.stop := by
  fun_induction stretchesFrom before cs with
  | case1 before =>
      intro left t right heq _ hne
      simp [hne] at heq
  | case2 before c cs rest hrun ih =>
      intro left t right heq ht hne
      cases left with
      | nil =>
          -- A class that begins here would be the beginning of a run.
          rw [← heq, List.nil_append, run_append_of_classText ht] at hrun
          exact absurd (List.append_eq_nil_iff.mp (Prod.mk.inj hrun).1).1 hne
      | cons x left =>
          obtain ⟨s, hs, hstart, hstop⟩ := ih (List.cons.inj heq).2 ht hne
          rw [List.length_append, List.length_singleton] at hstart hstop
          rw [List.length_cons]
          exact ⟨s, hs, by omega, by omega⟩
  | case3 before cs c more rest hrun _ ih =>
      intro left t right heq ht hne
      have hcs := run_append cs
      have hclass := classText_run cs
      have hrest := run_behind cs
      simp only [hrun] at hcs hclass hrest
      by_cases hlt : left.length < (c :: more).length
      · have hle := length_le_of_classText hclass hrest ht (heq.trans hcs.symm) hlt
        refine ⟨_, List.mem_cons_self, Nat.le_add_right _ _, ?_⟩
        rw [Nat.add_assoc]
        exact Nat.add_le_add_left hle _
      · -- The class begins behind the run.
        obtain ⟨left', rfl⟩ : c :: more <+: left :=
          List.prefix_of_prefix_length_le ⟨rest, hcs⟩ ⟨t ++ right, heq⟩ (Nat.le_of_not_lt hlt)
        have hleft : left' ++ (t ++ right) = rest := by
          rw [← hcs, List.append_assoc] at heq
          exact List.append_cancel_left heq
        obtain ⟨s, hs, hstart, hstop⟩ := ih hleft ht hne
        rw [List.length_append] at hstart hstop ⊢
        exact ⟨s, List.mem_cons_of_mem _ hs, by omega, by omega⟩

/-- **The runs of a text are its longest classes.** -/
theorem mem_stretchesFrom_iff {cs : List Char} {s : Stretch} :
    s ∈ stretchesFrom [] cs ↔ s.IsLongestIn cs := by
  have hcover : ∀ t : Stretch, t.IsClassIn cs →
      ∃ u ∈ stretchesFrom [] cs, u.start ≤ t.start ∧ t.stop ≤ u.stop := by
    intro t ht
    obtain ⟨u, hu, hstart, hstop⟩ := exists_mem_stretchesFrom [] ht.whole ht.classText ht.ne_nil
    rw [List.length_nil, Nat.zero_add] at hstart hstop
    exact ⟨u, hu, hstart, hstop⟩
  constructor
  · intro hs
    have hclass := (mem_stretchesFrom hs).1
    refine ⟨hclass, fun t ht hstart hstop => ?_⟩
    obtain ⟨u, hu, hstart', hstop'⟩ := hcover t ht
    -- The two runs overlap, so they are one.
    have hsame : u = s := by
      by_contra hne
      have hapart := (pairwise_stretchesFrom [] cs).imp (S := Stretch.Apart) Or.inl
      have hpos := List.length_pos_iff.mpr hclass.ne_nil
      have := hapart.forall hu hs hne
      simp only [Stretch.Apart, Stretch.stop] at hstop hstop' this
      omega
    subst hsame
    exact ht.ext hclass (Nat.le_antisymm hstart hstart') (Nat.le_antisymm hstop' hstop)
  · intro hs
    obtain ⟨u, hu, hstart, hstop⟩ := hcover s hs.toIsClassIn
    rwa [← hs.longest u (mem_stretchesFrom hu).1 hstart hstop]

/-! ### Runs on their lines -/

theorem exists_firstLine (cs : List Char) :
    ∃ line lines tail, splitLines cs = line :: lines ∧ cs = line ++ tail ∧
      ∀ c ∈ tail.head?, c = '\n' := by
  induction cs with
  | nil => exact ⟨[], [], [], rfl, rfl, by simp⟩
  | cons c cs ih =>
      by_cases h : c = '\n'
      · exact ⟨[], splitLines cs, c :: cs, by rw [h]; rfl, rfl, by simp [h]⟩
      · obtain ⟨line, lines, tail, hlines, rfl, htail⟩ := ih
        exact ⟨c :: line, lines, tail, by rw [splitLines_cons h, hlines]; rfl, rfl, htail⟩

/-- A run at the beginning of a text lies on its first line. -/
theorem run_of_splitLines {cs line : List Char} {lines : List (List Char)}
    (h : splitLines cs = line :: lines) : (run line).1 = (run cs).1 := by
  obtain ⟨line', lines', tail, hlines, rfl, htail⟩ := exists_firstLine cs
  obtain ⟨rfl, rfl⟩ := List.cons.inj (h.symm.trans hlines)
  cases tail with
  | nil => rw [List.append_nil]
  | cons c tail =>
      obtain rfl : c = '\n' := htail c rfl
      rw [run_append_barrier (by decide)]

theorem candidatesFrom_of_run_eq_nil {c : Char} {cs : List Char} (h : (run (c :: cs)).1 = [])
    (first : Nat) :
    candidatesFrom first (splitLines (c :: cs)) =
      candidatesFrom (first + [c].count '\n') (splitLines cs) := by
  by_cases hc : c = '\n'
  · subst hc
    rw [splitLines_cons_lineFeed, candidatesFrom_cons, candidatesOfLine, runs_nil,
      List.count_singleton_self]
    rfl
  · obtain ⟨line, lines, -, hlines, -, -⟩ := exists_firstLine cs
    have hfirst : splitLines (c :: cs) = (c :: line) :: lines := by
      rw [splitLines_cons hc, hlines]
      rfl
    rw [hfirst, hlines, candidatesFrom_cons, candidatesFrom_cons, candidatesOfLine,
      runs_of_run_eq_nil ((run_of_splitLines hfirst).trans h), List.count_singleton]
    simp [hc, candidatesOfLine]

theorem candidatesFrom_of_classText {cs rest : List Char} (hcs : ClassText cs) (hne : cs ≠ [])
    (hrest : (run rest).1 = []) (first : Nat) :
    candidatesFrom first (splitLines (cs ++ rest)) =
      ((candidatesOfRun cs).map fun text => ⟨String.ofList text, first⟩) ++
        candidatesFrom first (splitLines rest) := by
  obtain ⟨before, last, line, lines, hlast, hlines, hboth⟩ := exists_splitLines_append cs rest
  rw [splitLines_of_classText hcs] at hlast
  obtain ⟨rfl, rfl⟩ : before = [] ∧ last = cs := by
    cases before with
    | nil => exact ⟨rfl, (List.cons.inj hlast).1.symm⟩
    | cons x before => simp at hlast
  have hstop : run line = ([], line) := by
    have hnil := (run_of_splitLines hlines).trans hrest
    have := run_append line
    rw [hnil, List.nil_append] at this
    exact Prod.ext hnil this
  have hrun : run (last ++ line) = (last, line) := by
    rw [run_append_of_classText hcs, hstop, List.append_nil]
  have hruns : runs (last ++ line) = last :: runs line := by
    rw [runs_of_run_ne_nil (by rw [hrun]; exact hne), hrun]
  rw [hboth, hlines, List.nil_append, candidatesFrom_cons, candidatesFrom_cons, candidatesOfLine,
    hruns, List.flatMap_cons, List.map_append, List.append_assoc]
  rfl

theorem count_append_run (before : List Char) {cs text rest : List Char}
    (h : run cs = (text, rest)) : (before ++ text).count '\n' = before.count '\n' := by
  have hfree : '\n' ∉ text := by
    intro hmem
    have := not_isBarrier_of_mem_run cs '\n' (by rw [h]; exact hmem)
    exact absurd this (by decide)
  rw [List.count_append, List.count_eq_zero.mpr hfree, Nat.add_zero]

/-- The search by lines finds the runs of the whole text. -/
theorem candidatesFrom_eq (before cs : List Char) :
    candidatesFrom (1 + before.count '\n') (splitLines cs) =
      (stretchesFrom before cs).flatMap Stretch.candidates := by
  fun_induction stretchesFrom before cs with
  | case1 before =>
      rw [show splitLines [] = [[]] from rfl, candidatesFrom_cons, candidatesOfLine, runs_nil]
      rfl
  | case2 before c cs rest hrun ih =>
      rw [candidatesFrom_of_run_eq_nil (by rw [hrun]), ← ih, List.count_append, Nat.add_assoc]
  | case3 before cs c more rest hrun _ ih =>
      have hcs := run_append cs
      have hclass := classText_run cs
      have hrest := run_behind cs
      simp only [hrun] at hcs hclass hrest
      have hline := count_append_run before hrun
      rw [← hcs, candidatesFrom_of_classText hclass (List.cons_ne_nil _ _) hrest,
        List.flatMap_cons, ← ih, hline]
      rfl

/-! ### What a run contributes -/

/-- `t` is `cs` without the punctuation at its ends. -/
def IsStripped (cs t : List Char) : Prop :=
  ∃ left right, cs = left ++ t ++ right ∧ (∀ c ∈ left ++ right, c ∈ ['.', ':', '/']) ∧
    (∀ c ∈ t.head?, c ∉ ['.', ':', '/']) ∧ ∀ c ∈ t.getLast?, c ∉ ['.', ':', '/']

theorem isEdge_iff {c : Char} : isEdge c = true ↔ c ∈ ['.', ':', '/'] := by
  simp [isEdge, or_assoc]

theorem isStripped_trimRun (cs : List Char) : IsStripped cs (trimRun cs) := by
  obtain ⟨left, right, hcs, hleft, hright⟩ := exists_dropWhile_dropEndWhile isEdge cs
  obtain ⟨hhead, hlast⟩ := ends_dropWhile_dropEndWhile isEdge cs
  have hkept : ∀ c, isEdge c = false → c ∉ ['.', ':', '/'] := by
    intro c hc hmem
    rw [isEdge_iff.mpr hmem] at hc
    cases hc
  refine ⟨left, right, hcs, fun c hc => ?_, fun c hc => hkept c (hhead c hc),
    fun c hc => hkept c (hlast c hc)⟩
  rcases List.mem_append.mp hc with hc | hc
  · exact isEdge_iff.mp (hleft c hc)
  · exact isEdge_iff.mp (hright c hc)

/-- A run with a letter contributes itself, and what is left of it without the punctuation at
its ends if that is less and has a letter. -/
theorem Stretch.candidates_of_letter {s : Stretch} (h : s.text.any Char.isAlpha = true) :
    s.candidates = ⟨String.ofList s.text, s.line⟩ ::
      if trimRun s.text ≠ s.text ∧ (trimRun s.text).any Char.isAlpha = true then
        [⟨String.ofList (trimRun s.text), s.line⟩] else [] := by
  by_cases htrim : trimRun s.text = s.text
  · simp [Stretch.candidates, candidatesOfRun, h, htrim]
  · by_cases hletter : (trimRun s.text).any Char.isAlpha = true
    · simp [Stretch.candidates, candidatesOfRun, h, htrim, hletter]
    · simp [Stretch.candidates, candidatesOfRun, h, htrim, hletter]

theorem flatMap_stretches (cs : List Char) :
    (stretches cs).flatMap Stretch.candidates =
      (stretchesFrom [] cs).flatMap Stretch.candidates := by
  rw [stretches]
  induction stretchesFrom [] cs with
  | nil => rfl
  | cons s rest ih =>
      by_cases h : s.text.any Char.isAlpha = true
      · rw [List.filter_cons, if_pos h, List.flatMap_cons, List.flatMap_cons, ih]
      · rw [List.filter_cons, if_neg h, List.flatMap_cons, ih]
        simp [Stretch.candidates, candidatesOfRun, h]

/-! ### The statement -/

/--
**The candidates of a text are its longest classes that have a letter**, in the order of the
text and apart from each other, each followed by itself without the punctuation at its ends if
that is something else that has a letter.  A class lies on one line, whose number it gets, and
what stands behind it does not go on with it.
-/
theorem candidates_eq_longest (cs : List Char) :
    candidates cs = (stretches cs).flatMap Stretch.candidates ∧
      ((stretches cs).Pairwise fun s t => s.stop ≤ t.start) ∧
      (∀ s, s ∈ stretches cs ↔ s.IsLongestIn cs ∧ s.text.any Char.isAlpha = true) ∧
      ∀ s ∈ stretches cs,
        (∀ c ∈ s.text, c ≠ '\n' ∧ isBlank c = false ∧
          c ∉ ['\x22', '\x27', '\x60', '\x7b', '\x7d', '<', '>']) ∧
        (∀ c ∈ s.after.head?, isClassChar c = false) ∧
        (∀ inner rest, Balanced inner → s.after ≠ '[' :: (inner ++ ']' :: rest)) ∧
        ∃ t, IsStripped s.text t ∧
          s.candidates = ⟨String.ofList s.text, s.line⟩ ::
            if t ≠ s.text ∧ t.any Char.isAlpha = true then [⟨String.ofList t, s.line⟩] else [] := by
  refine ⟨?_, (pairwise_stretchesFrom [] cs).filter _, fun s => ?_, fun s hs => ?_⟩
  · rw [flatMap_stretches]
    exact candidatesFrom_eq [] cs
  · rw [stretches, List.mem_filter, mem_stretchesFrom_iff]
  · obtain ⟨hmem, hletter⟩ := List.mem_filter.mp hs
    obtain ⟨hclass, -, hafter⟩ := mem_stretchesFrom hmem
    obtain ⟨hchar, hgroup⟩ := run_eq_nil_iff.mp hafter
    refine ⟨fun c hc => ?_, hchar, group?_eq_none_iff.mp hgroup, trimRun s.text,
      isStripped_trimRun s.text, Stretch.candidates_of_letter hletter⟩
    have hbarrier : isBarrier c = false := by
      have := not_isBarrier_of_mem_run s.text c
      rw [run_of_classText hclass.classText] at this
      exact this hc
    have hnone : ¬ (isBlank c = true ∨
        c ∈ ['\x22', '\x27', '\x60', '\x7b', '\x7d', '<', '>']) := by
      rw [← isBarrier_iff, hbarrier]
      exact Bool.false_ne_true
    rw [not_or] at hnone
    refine ⟨?_, Bool.eq_false_iff.mpr hnone.1, hnone.2⟩
    intro hfeed
    subst hfeed
    exact hnone.1 (by decide)

-- The first bracket opens no whole group: it ends a class, and the next one begins behind it.
example :
    (stretches "a[b:[c] 2 d[[e]]/".toList).map (fun s => (s.start, s.stop)) =
      [(0, 1), (2, 7), (10, 17)] := by
  decide +kernel

end AtomicCss.Source
