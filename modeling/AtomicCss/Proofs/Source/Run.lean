/-
What a run is.

A run is made of class characters and of bracket groups whose brackets nest, and it is read as
far as that is possible.  So a run is a class, and no class begins right behind it.

Nor does a class reach out of a run.  One that begins at the beginning of a run, or between two
of its groups, is read along with it and ends no later.  One that begins within a group meets
the bracket that closes the group before it has opened one for it, so it ends before that:
brackets that nest can be counted, and the beginning of a text in which they nest never closes
more of them than it opens.
-/
import AtomicCss.Proofs.Source.Delimited

namespace AtomicCss.Source

open Text

/-! ### A run is a class -/

/-- A text that closes `n + 1` groups, the last of them with its last character. -/
inductive Closes : Nat → List Char → Prop
  | last {inner : List Char} (hinner : Balanced inner) : Closes 0 (inner ++ [']'])
  | more {n : Nat} {inner cs : List Char} (hinner : Balanced inner) (hcs : Closes n cs) :
      Closes (n + 1) (inner ++ ']' :: cs)

namespace Closes

variable {n : Nat} {cs : List Char}

theorem char {c : Char} (hbarrier : isBarrier c = false) (hopen : c ≠ '[') (hclose : c ≠ ']')
    (h : Closes n cs) : Closes n (c :: cs) := by
  cases h with
  | last hinner => exact .last (.char hbarrier hopen hclose hinner)
  | more hinner hcs => exact .more (.char hbarrier hopen hclose hinner) hcs

theorem group (h : Closes (n + 1) cs) : Closes n ('[' :: cs) := by
  cases h with
  | more hinner hcs =>
      cases hcs with
      | last htail =>
          have := Closes.last (.group hinner htail)
          rwa [List.cons_append, List.append_assoc] at this
      | more htail hcs =>
          have := Closes.more (.group hinner htail) hcs
          rwa [List.cons_append, List.append_assoc] at this

end Closes

theorem closes_of_closing? {n : Nat} {cs group rest : List Char}
    (h : closing? n cs = some (group, rest)) : Closes n group := by
  induction cs generalizing n group rest with
  | nil => cases h
  | cons c cs ih =>
      have step : ∀ {k}, (closing? k cs).map (fun p => (c :: p.1, p.2)) = some (group, rest) →
          ∃ more, Closes k more ∧ group = c :: more := by
        intro k hk
        obtain ⟨⟨more, tail⟩, hmore, heq⟩ := Option.map_eq_some_iff.mp hk
        cases heq
        exact ⟨more, ih hmore, rfl⟩
      rw [closing?] at h
      split at h
      · rename_i hclose
        subst hclose
        split at h
        · rename_i hlast
          subst hlast
          cases h
          exact .last .nil
        · obtain ⟨more, hmore, rfl⟩ := step h
          have hpos : n - 1 + 1 = n := by omega
          have := Closes.more .nil hmore
          rwa [hpos] at this
      · rename_i hclose
        split at h
        · rename_i hopen
          subst hopen
          obtain ⟨more, hmore, rfl⟩ := step h
          exact hmore.group
        · rename_i hopen
          split at h
          · cases h
          · rename_i hbarrier
            obtain ⟨more, hmore, rfl⟩ := step h
            exact hmore.char (Bool.eq_false_iff.mpr hbarrier) hopen hclose

theorem exists_balanced_of_group? {cs group rest : List Char}
    (h : group? cs = some (group, rest)) :
    ∃ inner, Balanced inner ∧ group = '[' :: (inner ++ [']']) := by
  unfold group? at h
  split at h
  · obtain ⟨⟨more, tail⟩, hmore, heq⟩ := Option.map_eq_some_iff.mp h
    cases heq
    cases closes_of_closing? hmore with
    | last hinner => exact ⟨_, hinner, rfl⟩
  · cases h

theorem group?_eq_none_iff {cs : List Char} :
    group? cs = none ↔ ∀ inner rest, Balanced inner → cs ≠ '[' :: (inner ++ ']' :: rest) := by
  constructor
  · intro h inner rest hinner heq
    rw [heq, group?_of_balanced hinner] at h
    cases h
  · intro h
    cases hgroup : group? cs with
    | none => rfl
    | some found =>
        obtain ⟨inner, hinner, hfound⟩ := exists_balanced_of_group? hgroup
        have := (group?_append hgroup).1
        rw [hfound, List.cons_append, List.append_assoc] at this
        exact absurd this.symm (h inner found.2 hinner)

theorem classText_run (cs : List Char) : ClassText (run cs).1 := by
  fun_induction run cs with
  | case1 cs group rest h _ more rest' hrun ih =>
      rw [hrun] at ih
      obtain ⟨inner, hinner, rfl⟩ := exists_balanced_of_group? h
      have := ClassText.group hinner ih
      rwa [List.cons_append, List.append_assoc]
  | case2 => exact .nil
  | case3 c cs h hc more rest hrun ih =>
      rw [hrun] at ih
      exact .char hc ih
  | case4 => exact .nil

/-- No run begins where a run ends. -/
theorem run_behind (cs : List Char) : (run (run cs).2).1 = [] := by
  fun_induction run cs with
  | case1 cs group rest h _ more rest' hrun ih =>
      rw [hrun] at ih
      exact ih
  | case2 => rw [run_nil]
  | case3 c cs h hc more rest hrun ih =>
      rw [hrun] at ih
      exact ih
  | case4 c cs h hc => rw [run_of_group?_eq_none h, if_neg hc]

theorem run_eq_nil_iff {cs : List Char} :
    (run cs).1 = [] ↔ (∀ c ∈ cs.head?, isClassChar c = false) ∧ group? cs = none := by
  cases hgroup : group? cs with
  | some found =>
      rw [run_of_group?_eq_some hgroup]
      simp [(group?_append hgroup).2]
  | none =>
      cases cs with
      | nil => simp [run_nil]
      | cons c cs =>
          rw [run_of_group?_eq_none hgroup]
          by_cases hc : isClassChar c = true <;> simp [hc]

/-! ### Counting brackets -/

theorem balanced_of_classText {cs : List Char} (h : ClassText cs) : Balanced cs := by
  induction h with
  | nil => exact .nil
  | @char c cs hc _ ih =>
      refine .char (not_isBarrier_of_isClassChar hc) ?_ ?_ ih
      all_goals
        intro heq
        subst heq
        exact absurd hc (by decide)
  | group hinner _ ih => exact .group hinner ih

namespace Balanced

theorem count_eq {cs : List Char} (h : Balanced cs) : cs.count '[' = cs.count ']' := by
  induction h with
  | nil => rfl
  | char _ hopen hclose _ ih =>
      rw [List.count_cons_of_ne hopen, List.count_cons_of_ne hclose, ih]
  | group _ _ ihInner ih =>
      simp [List.count_append, ihInner, ih]
      omega

theorem count_le {cs : List Char} (h : Balanced cs) :
    ∀ {left right : List Char}, cs = left ++ right → left.count ']' ≤ left.count '[' := by
  induction h with
  | nil =>
      intro left right heq
      rw [(List.append_eq_nil_iff.mp heq.symm).1]
      exact Nat.le_refl _
  | char _ hopen hclose _ ih =>
      intro left right heq
      cases left with
      | nil => exact Nat.le_refl _
      | cons x left =>
          obtain ⟨rfl, hrest⟩ := List.cons.inj heq
          rw [List.count_cons_of_ne hopen, List.count_cons_of_ne hclose]
          exact ih hrest
  | @group inner cs hinner _ ihInner ih =>
      intro left right heq
      cases left with
      | nil => exact Nat.le_refl _
      | cons x left =>
          obtain ⟨rfl, hrest⟩ := List.cons.inj heq
          have hleft : left.count ']' ≤ left.count '[' + 1 := by
            rcases List.append_eq_append_iff.mp hrest with ⟨more, rfl, hmore⟩ | ⟨more, hmore, -⟩
            · have hcount := hinner.count_eq
              cases more with
              | nil =>
                  rw [List.append_nil]
                  omega
              | cons y more =>
                  obtain ⟨rfl, htail⟩ := List.cons.inj hmore
                  have := ih htail
                  rw [List.count_append, List.count_append, List.count_cons_self,
                    List.count_cons_of_ne (by decide)]
                  omega
            · exact Nat.le_succ_of_le (ihInner hmore)
          rw [List.count_cons_self, List.count_cons_of_ne (by decide)]
          exact hleft

end Balanced

/-! ### No class reaches out of a run -/

theorem length_le_of_prefix {cs t rest after : List Char} (hcs : ClassText cs)
    (hrest : (run rest).1 = []) (ht : ClassText t) (heq : t ++ after = cs ++ rest) :
    t.length ≤ cs.length := by
  have hsame := congrArg (fun text => (run text).1) heq
  simp only [run_append_of_classText ht, run_append_of_classText hcs, hrest,
    List.append_nil] at hsame
  rw [← hsame, List.length_append]
  exact Nat.le_add_right _ _

/-- A class that begins within a group ends before the bracket that closes the group. -/
theorem length_le_of_interior {left right t rest after : List Char}
    (hinner : Balanced (left ++ right)) (ht : ClassText t)
    (heq : t ++ after = right ++ ']' :: rest) : t.length ≤ right.length := by
  rcases List.append_eq_append_iff.mp heq with ⟨more, rfl, -⟩ | ⟨more, rfl, hmore⟩
  · rw [List.length_append]
    exact Nat.le_add_right _ _
  · cases more with
    | nil => exact Nat.le_of_eq (congrArg List.length (List.append_nil right))
    | cons c more =>
        -- The class would close the group without having opened it.
        obtain ⟨rfl, -⟩ := List.cons.inj hmore
        have hclosed := (balanced_of_classText ht).count_le
          (List.append_cons right ']' more)
        have hleft := hinner.count_le rfl
        have hwhole := hinner.count_eq
        rw [List.count_append, List.count_singleton_self, List.count_append,
          List.count_singleton] at hclosed
        rw [List.count_append, List.count_append] at hwhole
        simp at hclosed
        omega

/-- **A class that begins within a run ends within it.** -/
theorem length_le_of_classText {cs rest : List Char} (hcs : ClassText cs)
    (hrest : (run rest).1 = []) :
    ∀ {before t after : List Char}, ClassText t → before ++ (t ++ after) = cs ++ rest →
      before.length < cs.length → before.length + t.length ≤ cs.length := by
  induction hcs with
  | nil =>
      intro before t after _ _ hlt
      exact absurd hlt (Nat.not_lt_zero _)
  | @char c cs hc hcs ih =>
      intro before t after ht heq hlt
      cases before with
      | nil =>
          rw [List.length_nil, Nat.zero_add]
          exact length_le_of_prefix (.char hc hcs) hrest ht heq
      | cons x before =>
          have := ih ht (List.cons.inj heq).2 (Nat.lt_of_succ_lt_succ hlt)
          simp only [List.length_cons]
          omega
  | @group inner cs hinner hcs ih =>
      intro before t after ht heq hlt
      cases before with
      | nil =>
          rw [List.length_nil, Nat.zero_add]
          exact length_le_of_prefix (.group hinner hcs) hrest ht heq
      | cons x before =>
          have htail : before ++ (t ++ after) = inner ++ (']' :: (cs ++ rest)) := by
            simpa using (List.cons.inj heq).2
          simp only [List.length_cons, List.length_append] at hlt ⊢
          rcases List.append_eq_append_iff.mp htail with ⟨right, rfl, hright⟩ | ⟨more, rfl, hmore⟩
          · have := length_le_of_interior hinner ht hright
            rw [List.length_append]
            omega
          · cases more with
            | nil =>
                have hwhole : Balanced (inner ++ []) := by rwa [List.append_nil]
                have hright : t ++ after = [] ++ ']' :: (cs ++ rest) := hmore.symm
                have := length_le_of_interior hwhole ht hright
                rw [List.length_nil] at this
                rw [List.append_nil]
                omega
            | cons y more =>
                obtain ⟨-, hbehind⟩ := List.cons.inj hmore
                rw [List.length_append, List.length_cons] at hlt ⊢
                have := ih ht hbehind.symm (by omega)
                omega

end AtomicCss.Source
