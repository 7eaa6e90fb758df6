/-
Candidates have no barrier in them.

A run is made of class characters and of bracket groups, and neither admits white space,
quotes, braces or angle brackets: the first is a short list of ASCII characters, the second
ends at every barrier.  Dropping punctuation at the ends of a run brings nothing in.
-/
import AtomicCss.Proofs.Text.Ascii
import AtomicCss.Source.Candidate

namespace AtomicCss.Source

open Text

theorem not_isBarrier_of_isClassChar {c : Char} (h : isClassChar c = true) :
    isBarrier c = false := by
  have hc : c.toNat < 128 := by
    simp only [isClassChar, Bool.or_eq_true, beq_iff_eq] at h
    rcases h with ((((((h | rfl) | rfl) | rfl) | rfl) | rfl) | rfl)
    · exact toNat_lt_of_isAlphanum h
    all_goals decide
  revert h
  exact forall_ascii (P := fun c => isClassChar c = true → isBarrier c = false)
    (by decide +kernel) hc

/-! ### Groups and runs -/

theorem not_isBarrier_of_mem_closing {inner : Nat} {cs group rest : List Char}
    (h : closing? inner cs = some (group, rest)) : ∀ c ∈ group, isBarrier c = false := by
  induction cs generalizing inner group rest with
  | nil => cases h
  | cons x cs ih =>
      have step : ∀ n, isBarrier x = false →
          (closing? n cs).map (fun p => (x :: p.1, p.2)) = some (group, rest) →
          ∀ c ∈ group, isBarrier c = false := by
        intro n hx hn c hc
        obtain ⟨⟨g, r⟩, hg, heq⟩ := Option.map_eq_some_iff.mp hn
        cases heq
        rcases List.mem_cons.mp hc with rfl | hc
        · exact hx
        · exact ih hg c hc
      rw [closing?] at h
      split at h
      · rename_i heq
        subst heq
        split at h
        · cases h
          intro c hc
          rw [List.mem_singleton.mp hc]
          decide
        · exact step _ (by decide) h
      · split at h
        · rename_i heq
          subst heq
          exact step _ (by decide) h
        · split at h
          · cases h
          · rename_i hbarrier
            exact step _ (Bool.eq_false_iff.mpr hbarrier) h

theorem not_isBarrier_of_mem_group {cs group rest : List Char}
    (h : group? cs = some (group, rest)) : ∀ c ∈ group, isBarrier c = false := by
  unfold group? at h
  split at h
  · obtain ⟨⟨g, r⟩, hg, heq⟩ := Option.map_eq_some_iff.mp h
    cases heq
    intro c hc
    rcases List.mem_cons.mp hc with rfl | hc
    · decide
    · exact not_isBarrier_of_mem_closing hg c hc
  · cases h

theorem not_isBarrier_of_mem_run (cs : List Char) : ∀ c ∈ (run cs).1, isBarrier c = false := by
  fun_induction run cs with
  | case1 cs group rest h _ more rest' hrun ih =>
      rw [hrun] at ih
      intro c hc
      rcases List.mem_append.mp hc with hc | hc
      · exact not_isBarrier_of_mem_group h c hc
      · exact ih c hc
  | case2 => intro c hc; cases hc
  | case3 x cs h hx more rest hrun ih =>
      rw [hrun] at ih
      intro c hc
      rcases List.mem_cons.mp hc with rfl | hc
      · exact not_isBarrier_of_isClassChar hx
      · exact ih c hc
  | case4 => intro c hc; cases hc

theorem not_isBarrier_of_mem_runs (cs : List Char) :
    ∀ r ∈ runs cs, ∀ c ∈ r, isBarrier c = false := by
  fun_induction runs cs with
  | case1 => intro r hr; cases hr
  | case2 x cs rest h ih => exact ih
  | case3 cs x more rest h _ ih =>
      intro r hr
      rcases List.mem_cons.mp hr with rfl | hr
      · have := not_isBarrier_of_mem_run cs
        rwa [h] at this
      · exact ih r hr

/-! ### Candidates -/

theorem trimRun_sublist (cs : List Char) : (trimRun cs).Sublist cs := by
  refine List.Sublist.trans ?_ (List.dropWhile_sublist isEdge)
  have := List.dropWhile_sublist isEdge (l := (cs.dropWhile isEdge).reverse)
  simpa [trimRun, dropEndWhile] using this.reverse

/-- A run contributes parts of itself. -/
theorem sublist_of_mem_candidatesOfRun {cs t : List Char} (h : t ∈ candidatesOfRun cs) :
    t.Sublist cs := by
  unfold candidatesOfRun at h
  split at h
  · rcases List.mem_cons.mp h with rfl | h
    · exact List.Sublist.refl _
    · split at h
      · rw [List.mem_singleton.mp h]
        exact trimRun_sublist cs
      · cases h
  · cases h

/-- **No candidate has a barrier in it.** -/
theorem not_isBarrier_of_mem_candidates {text : List Char} {candidate : Candidate}
    (h : candidate ∈ candidates text) : ∀ c ∈ candidate.text.toList, isBarrier c = false := by
  obtain ⟨⟨line, number⟩, -, h⟩ := List.mem_flatMap.mp h
  obtain ⟨t, ht, rfl⟩ := List.mem_map.mp h
  obtain ⟨r, hr, ht⟩ := List.mem_flatMap.mp ht
  intro c hc
  rw [String.toList_ofList] at hc
  exact not_isBarrier_of_mem_runs line r hr c ((sublist_of_mem_candidatesOfRun ht).subset hc)

end AtomicCss.Source
