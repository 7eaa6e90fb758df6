/-
What a barrier separates.

A barrier ends every run and every bracket group.  So nothing that is read before one
depends on what stands behind it, not even an unclosed bracket, and reading starts afresh
after it: the candidates of a text with a barrier in it are those of the two sides, where
only the line numbers of the second side count on from the first.
-/
import AtomicCss.Proofs.Source.Candidate
import AtomicCss.Proofs.Text.Line

namespace AtomicCss.Source

open Text

/-! ### How runs are read -/

theorem run_nil : run [] = ([], []) := by
  rw [run]
  rfl

theorem run_of_group?_eq_some {cs group rest : List Char} (h : group? cs = some (group, rest)) :
    run cs = (group ++ (run rest).1, (run rest).2) := by
  rw [run]
  split
  · rename_i group' rest' h'
    obtain ⟨rfl, rfl⟩ := Prod.mk.inj (Option.some.inj (h'.symm.trans h))
    rfl
  · rename_i h'
    cases h'.symm.trans h

/-- A run takes class characters where no group begins. -/
theorem run_of_group?_eq_none {c : Char} {cs : List Char} (h : group? (c :: cs) = none) :
    run (c :: cs) = if isClassChar c then (c :: (run cs).1, (run cs).2) else ([], c :: cs) := by
  rw [run]
  split
  · rename_i h'
    cases h'.symm.trans h
  · rfl

theorem runs_nil : runs [] = [] := by
  rw [runs]
  split
  · rfl
  · rename_i h
    rw [run_nil] at h
    cases h

/-- Where no run begins, one character is left out. -/
theorem runs_of_run_eq_nil {c : Char} {cs : List Char} (h : (run (c :: cs)).1 = []) :
    runs (c :: cs) = runs cs := by
  rw [runs]
  split
  · rfl
  · rename_i h'
    rw [h'] at h
    cases h

/-- A run is taken whole. -/
theorem runs_of_run_ne_nil {cs : List Char} (h : (run cs).1 ≠ []) :
    runs cs = (run cs).1 :: runs (run cs).2 := by
  rw [runs]
  split
  · rename_i h'
    rw [h'] at h
    exact absurd rfl h
  · rename_i h'
    simp only [h']

variable {d : Char}

/-! ### Within a line -/

theorem closing?_append_barrier (hd : isBarrier d = true) (b : List Char) :
    ∀ (a : List Char) (inner : Nat),
      closing? inner (a ++ d :: b) =
        (closing? inner a).map fun (group, rest) => (group, rest ++ d :: b) := by
  have hclose : d ≠ ']' := by
    intro h
    subst h
    exact absurd hd (by decide)
  have hopen : d ≠ '[' := by
    intro h
    subst h
    exact absurd hd (by decide)
  intro a
  induction a with
  | nil =>
      intro inner
      simp [closing?, hclose, hopen, hd]
  | cons c a ih =>
      intro inner
      have step : ∀ n, (closing? n (a ++ d :: b)).map (fun p => (c :: p.1, p.2)) =
          ((closing? n a).map fun p => (c :: p.1, p.2)).map
            fun p => (p.1, p.2 ++ d :: b) := by
        intro n
        rw [ih, Option.map_map, Option.map_map]
        rfl
      rw [List.cons_append, closing?, closing?]
      by_cases h : c = ']'
      · rw [if_pos h, if_pos h]
        by_cases hinner : inner = 0
        · rw [if_pos hinner, if_pos hinner]
          rfl
        · rw [if_neg hinner, if_neg hinner]
          exact step _
      · rw [if_neg h, if_neg h]
        by_cases h : c = '['
        · rw [if_pos h, if_pos h]
          exact step _
        · rw [if_neg h, if_neg h]
          by_cases h : isBarrier c = true
          · rw [if_pos h, if_pos h]
            rfl
          · rw [if_neg h, if_neg h]
            exact step _

theorem group?_append_barrier (hd : isBarrier d = true) (a b : List Char) :
    group? (a ++ d :: b) = (group? a).map fun (group, rest) => (group, rest ++ d :: b) := by
  cases a with
  | nil =>
      have hopen : d ≠ '[' := by
        intro h
        subst h
        exact absurd hd (by decide)
      simp [group?, hopen]
  | cons c a =>
      by_cases h : c = '['
      · subst h
        simp only [List.cons_append, group?, closing?_append_barrier hd, Option.map_map]
        rfl
      · simp [group?, h]

theorem run_barrier (hd : isBarrier d = true) (b : List Char) : run (d :: b) = ([], d :: b) := by
  have hnone : group? (d :: b) = none := by
    have := group?_append_barrier hd [] b
    exact this
  rw [run_of_group?_eq_none hnone, if_neg]
  intro hclass
  rw [not_isBarrier_of_isClassChar hclass] at hd
  cases hd

theorem run_append_barrier (hd : isBarrier d = true) (a b : List Char) :
    run (a ++ d :: b) = ((run a).1, (run a).2 ++ d :: b) := by
  fun_induction run a with
  | case1 a group rest h _ more rest' hrun ih =>
      have hgroup : group? (a ++ d :: b) = some (group, rest ++ d :: b) := by
        rw [group?_append_barrier hd, h]
        rfl
      rw [hrun] at ih
      rw [run_of_group?_eq_some hgroup, ih]
  | case2 h => exact run_barrier hd b
  | case3 c a h hc more rest hrun ih =>
      have hgroup : group? (c :: (a ++ d :: b)) = none := by
        rw [← List.cons_append, group?_append_barrier hd, h]
        rfl
      rw [hrun] at ih
      rw [List.cons_append, run_of_group?_eq_none hgroup, if_pos hc, ih]
  | case4 c a h hc =>
      have hgroup : group? (c :: (a ++ d :: b)) = none := by
        rw [← List.cons_append, group?_append_barrier hd, h]
        rfl
      rw [List.cons_append, run_of_group?_eq_none hgroup, if_neg hc]

/-- **A barrier separates the runs before it from those behind it.** -/
theorem runs_append_barrier (hd : isBarrier d = true) (a b : List Char) :
    runs (a ++ d :: b) = runs a ++ runs b := by
  fun_induction runs a with
  | case1 =>
      rw [List.nil_append, List.nil_append]
      exact runs_of_run_eq_nil (by rw [run_barrier hd])
  | case2 c a rest h ih =>
      rw [List.cons_append, runs_of_run_eq_nil, ih]
      rw [← List.cons_append, run_append_barrier hd, h]
  | case3 a c more rest h _ ih =>
      have hrun := run_append_barrier hd a b
      rw [h] at hrun
      rw [runs_of_run_ne_nil (by simp [hrun]), hrun, ih, List.cons_append]

/-! ### From line to line -/

theorem candidatesOfLine_append_barrier (hd : isBarrier d = true) (a b : List Char)
    (line : Nat) :
    candidatesOfLine (a ++ d :: b) line = candidatesOfLine a line ++ candidatesOfLine b line := by
  simp only [candidatesOfLine, runs_append_barrier hd, List.flatMap_append, List.map_append]

/-- The candidates of lines that are counted from `first` on. -/
def candidatesFrom (first : Nat) (lines : List (List Char)) : List Candidate :=
  (lines.zipIdx first).flatMap fun (cs, line) => candidatesOfLine cs line

theorem candidatesFrom_append (first : Nat) (a b : List (List Char)) :
    candidatesFrom first (a ++ b) =
      candidatesFrom first a ++ candidatesFrom (first + a.length) b := by
  simp only [candidatesFrom, List.zipIdx_append, List.flatMap_append]

theorem candidatesFrom_cons (first : Nat) (cs : List Char) (lines : List (List Char)) :
    candidatesFrom first (cs :: lines) =
      candidatesOfLine cs first ++ candidatesFrom (first + 1) lines := by
  simp only [candidatesFrom, List.zipIdx_cons, List.flatMap_cons]

/-- **A barrier separates the candidates before it from those behind it**, whose lines are
counted on. -/
theorem candidatesFrom_append_barrier (hd : isBarrier d = true) (first : Nat)
    (a b : List Char) :
    candidatesFrom first (splitLines (a ++ d :: b)) =
      candidatesFrom first (splitLines a) ++
        candidatesFrom (first + (a ++ [d]).count '\n') (splitLines b) := by
  obtain ⟨before, last, next, after, ha, hb, hab⟩ := exists_splitLines_append a (d :: b)
  have hlength : before.length = a.count '\n' := by
    have := length_splitLines a
    rw [ha, List.length_append, List.length_singleton] at this
    omega
  have hsame : candidatesFrom (first + before.length + 1) [] = [] := rfl
  rw [ha, hab, candidatesFrom_append, candidatesFrom_cons, candidatesFrom_append,
    candidatesFrom_cons, hsame, List.append_nil, List.append_assoc, List.count_append, ← hlength]
  congr 1
  by_cases h : d = '\n'
  · -- The barrier ends the last line before it.
    subst h
    rw [splitLines_cons_lineFeed] at hb
    obtain ⟨rfl, rfl⟩ := List.cons.inj hb
    rw [List.append_nil, List.count_cons_self, List.count_nil]
    rfl
  · -- The barrier stands within a line, which both sides share.
    rw [splitLines_cons h] at hb
    cases hlines : splitLines b with
    | nil => exact absurd hlines (splitLines_ne_nil b)
    | cons line lines =>
        rw [hlines] at hb
        obtain ⟨rfl, rfl⟩ := List.cons.inj hb
        rw [candidatesOfLine_append_barrier hd, candidatesFrom_cons, List.count_cons_of_ne h,
          List.count_nil, List.append_assoc]
        rfl

/-! ### Further down -/

/-- The candidate, so many lines further down. -/
def Candidate.movedDown (lines : Nat) (candidate : Candidate) : Candidate :=
  { candidate with line := candidate.line + lines }

theorem candidatesOfLine_add (cs : List Char) (line lines : Nat) :
    candidatesOfLine cs (line + lines) =
      (candidatesOfLine cs line).map (Candidate.movedDown lines) := by
  rw [candidatesOfLine, candidatesOfLine, List.map_map]
  rfl

/-- Counting lines from further down moves all candidates by as much. -/
theorem candidatesFrom_add (first lines : Nat) (css : List (List Char)) :
    candidatesFrom (first + lines) css =
      (candidatesFrom first css).map (Candidate.movedDown lines) := by
  induction css generalizing first with
  | nil => rfl
  | cons cs css ih =>
      rw [candidatesFrom_cons, candidatesFrom_cons, List.map_append, candidatesOfLine_add,
        Nat.add_right_comm first lines 1, ih]

theorem isBarrier_iff {d : Char} :
    isBarrier d = true ↔
      isBlank d = true ∨ d ∈ ['\x22', '\x27', '\x60', '\x7b', '\x7d', '<', '>'] := by
  simp [isBarrier, or_assoc]

theorem isBarrier_eq_false_iff {d : Char} :
    isBarrier d = false ↔
      isBlank d = false ∧ d ∉ ['\x22', '\x27', '\x60', '\x7b', '\x7d', '<', '>'] := by
  rw [← Bool.not_eq_true, isBarrier_iff, not_or, Bool.not_eq_true]

theorem candidates_append (hd : isBarrier d = true) (a b : List Char) :
    candidates (a ++ d :: b) =
      candidates a ++ (candidates b).map (Candidate.movedDown ((a ++ [d]).count '\n')) :=
  (candidatesFrom_append_barrier hd 1 a b).trans
    (congrArg (candidates a ++ ·) (candidatesFrom_add 1 _ (splitLines b)))

/--
**Candidates distribute over barriers.**  White space, a quote, a brace or an angle bracket parts
a text in two: the candidates are those of the first part and those of the second, moved down by
the line feeds before it.  Neither part matters to what is found in the other, whatever it leaves
open.  So a line between two others can be exchanged, and all candidates but its own stay.
-/
theorem candidates_append_barrier (a b : List Char)
    (hd : isBlank d = true ∨ d ∈ ['\x22', '\x27', '\x60', '\x7b', '\x7d', '<', '>']) :
    candidates (a ++ d :: b) =
        candidates a ++ (candidates b).map (Candidate.movedDown ((a ++ [d]).count '\n')) ∧
      ∀ line, '\n' ∉ line →
        candidates (a ++ '\n' :: (line ++ '\n' :: b)) =
          candidates a ++ (candidates line).map (Candidate.movedDown (a.count '\n' + 1)) ++
            (candidates b).map (Candidate.movedDown (a.count '\n' + 2)) := by
  refine ⟨candidates_append (isBarrier_iff.mpr hd) a b, fun line hline => ?_⟩
  have hfeed : isBarrier '\n' = true := by decide
  have hfeeds : ∀ cs : List Char, (cs ++ ['\n']).count '\n' = cs.count '\n' + 1 := by
    intro cs
    rw [List.count_append, List.count_singleton_self]
  have hmoved : ∀ k l, Candidate.movedDown k ∘ Candidate.movedDown l =
      Candidate.movedDown (l + k) := by
    intro k l
    funext c
    exact congrArg (Candidate.mk c.text) (Nat.add_assoc c.line l k)
  rw [candidates_append hfeed, candidates_append hfeed, hfeeds, hfeeds,
    List.count_eq_zero.mpr hline, List.map_append, List.map_map, hmoved, List.append_assoc,
    Nat.zero_add, Nat.add_comm 1]

/-- Groups that are left open before a barrier are left out, and those behind it are found. -/
theorem candidates_append_barrier_unclosed :
    let a := "w-[a\nz-[[".toList
    let b := "b-[c]\n]".toList
    (isBlank '<' = true ∨ '<' ∈ ['\x22', '\x27', '\x60', '\x7b', '\x7d', '<', '>']) ∧
      candidates (a ++ '<' :: b) = [⟨"w-", 1⟩, ⟨"a", 1⟩, ⟨"z-", 2⟩, ⟨"b-[c]", 2⟩] ∧
      candidates (a ++ '\n' :: ("[x".toList ++ '\n' :: b)) =
        [⟨"w-", 1⟩, ⟨"a", 1⟩, ⟨"z-", 2⟩, ⟨"x", 3⟩, ⟨"b-[c]", 4⟩] := by
  intro a b
  have hd : isBlank '<' = true ∨ '<' ∈ ['\x22', '\x27', '\x60', '\x7b', '\x7d', '<', '>'] := by
    decide
  obtain ⟨hparts, hline⟩ := candidates_append_barrier a b hd
  refine ⟨hd, hparts.trans ?_, (hline "[x".toList (by decide)).trans ?_⟩
  · decide +kernel
  · decide +kernel

end AtomicCss.Source
