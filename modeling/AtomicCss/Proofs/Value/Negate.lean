/-
What negating does to what a value leaves open.

A number stays a number.  Any other value comes to stand inside the parentheses of a
`calc`, so its brackets have to close there, its comments are as open as before, and an
escape at its end is no longer at the end.
-/
import AtomicCss.Proofs.Value.Alphabet
import AtomicCss.Utility.Negate

namespace AtomicCss.Value

open Text

theorem neutral_negateNumber {cs : List Char} (h : Neutral cs) : Neutral (negateNumber cs) := by
  unfold negateNumber
  split
  · exact h
  · split
    · exact fun c hc => h c (by simp [hc])
    · intro c hc
      rcases List.mem_cons.mp hc with rfl | hc
      · decide
      · exact h c ((List.dropWhile_sublist _).subset hc)

/-- The brackets of a `calc` close if they close between parentheses. -/
theorem nests_calc (cs : List Char) :
    nests ("calc(".toList ++ trim cs ++ " * -1)".toList) = nests ('(' :: (cs ++ [')'])) := by
  have hcalc : "calc(".toList = "calc".toList ++ ['('] := rfl
  have htimes : " * -1)".toList = " * -1".toList ++ [')'] := rfl
  have hneutral : Neutral "calc".toList ∧ Neutral " * -1".toList := by decide
  rw [nests, hcalc, List.append_assoc, List.append_assoc, nestsFrom_append_left hneutral.1, htimes]
  show nestsFrom [')'] (trim cs ++ _) = nestsFrom [')'] (cs ++ [')'])
  rw [nestsFrom_trim]
  exact nestsFrom_append_congr fun _ => nestsFrom_append_left hneutral.2

theorem commentsEnd_calc (cs : List Char) :
    commentsEnd ("calc(".toList ++ trim cs ++ " * -1)".toList) = commentsEnd cs := by
  rw [commentsEnd_append_right (by decide) (by decide), commentsEnd_append_left (by decide),
    commentsEnd_trim]

/-- **What of a value is left open in its negative.** -/
theorem negate?_spec {value negated : String} (h : negate? value = some negated) :
    nests negated.toList = nests ('(' :: (value.toList ++ [')'])) ∧
      commentsEnd negated.toList = commentsEnd value.toList ∧
      ¬ endsEscaping negated.toList = true := by
  unfold negate? at h
  simp only at h
  split at h
  · rename_i hnumber
    obtain rfl := Option.some.inj h
    have htrim := (tokenText_of_isNumber hnumber).neutral
    have hvalue := (tokenText_trim (tokenText_of_isNumber hnumber)).neutral
    obtain ⟨hnests, hcomments, hending⟩ := (neutral_negateNumber htrim).selfContained
    rw [String.toList_ofList]
    exact ⟨hnests.trans hvalue.selfContained.nests_parens.symm,
      hcomments.trans hvalue.selfContained.commentsEnd.symm, hending⟩
  · split at h
    · cases h
    · obtain rfl := Option.some.inj h
      have hend : " * -1)".toList = " * -1".toList ++ [')'] := rfl
      rw [String.toList_ofList]
      refine ⟨nests_calc _, commentsEnd_calc _, ?_⟩
      rw [hend, ← List.append_assoc]
      exact not_endsEscaping_append_singleton (by decide)

end AtomicCss.Value
