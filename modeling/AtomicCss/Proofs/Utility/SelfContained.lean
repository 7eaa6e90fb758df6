/-
Which classes leave something open in the stylesheet.

A class takes its value from the theme or carries it in brackets.  A token's value has
passed the check of its category, so it is neutral, and nothing that a class does to it
leaves anything open.  A value in brackets is written as the source has it; only the
characters that end a declaration are refused.  Whether such a class leaves something open
depends on the value and on what the marks of the class put around it, and `KeepsToItself`
says exactly how.
-/
import AtomicCss.Proofs.Engine.Ruleset
import AtomicCss.Proofs.Rule
import AtomicCss.Proofs.Utility.Resolve
import AtomicCss.Proofs.Value.Decode
import AtomicCss.Proofs.Value.Negate
import AtomicCss.Proofs.Variant.Chain
import AtomicCss.Source.Candidate

namespace AtomicCss

open Value

/-! ### What a utility and its marks add -/

/-- What of a value counts where more text may follow it. -/
structure KeepsToItself (negative important : Bool) (value : List Char) : Prop where
  /-- A value that is multiplied stands between parentheses. -/
  nests : nests (if negative then '(' :: (value ++ [')']) else value) = true
  commentsEnd : commentsEnd value = true
  /-- An escape at the end counts only if nothing is put behind it. -/
  ending : endsEscaping value = true → negative = true ∨ important = true

theorem KeepsToItself.of_selfContained {negative important : Bool} {value : List Char}
    (h : SelfContained value) : KeepsToItself negative important value := by
  refine ⟨?_, h.commentsEnd, fun hending => absurd hending h.ending⟩
  cases negative with
  | false => exact h.nests
  | true => exact h.nests_parens

/-- Whether a value keeps to itself can be told before its underscores are decoded. -/
theorem keepsToItself_decode {negative important : Bool} {raw : List Char} :
    KeepsToItself negative important (Arbitrary.decode raw) ↔
      KeepsToItself negative important raw := by
  have hnests : nests (if negative then '(' :: (Arbitrary.decode raw ++ [')'])
      else Arbitrary.decode raw) = nests (if negative then '(' :: (raw ++ [')']) else raw) := by
    cases negative with
    | false => exact nests_decode
    | true => exact nestsFrom_decode_append
  have hending : endsEscaping (Arbitrary.decode raw) = endsEscaping raw := endsEscaping_decode
  constructor
  · rintro ⟨h₁, h₂, h₃⟩
    exact ⟨hnests ▸ h₁, commentsEnd_decode ▸ h₂, fun h => h₃ (hending.trans h)⟩
  · rintro ⟨h₁, h₂, h₃⟩
    exact ⟨hnests.trans h₁, commentsEnd_decode.trans h₂, fun h => h₃ (hending.symm.trans h)⟩

theorem selfContained_append_important {value : String} :
    SelfContained (value ++ " !important").toList ↔
      nests value.toList = true ∧ commentsEnd value.toList = true := by
  have hneutral : Neutral " !important".toList := by decide
  have hlast : " !important".toList = " !importan".toList ++ ['t'] := rfl
  have hnests : nests (value ++ " !important").toList = nests value.toList := by
    rw [String.toList_append]
    exact nestsFrom_append_right hneutral
  have hcomments : commentsEnd (value ++ " !important").toList = commentsEnd value.toList := by
    rw [String.toList_append, commentsEnd_append_right hneutral.slash_notMem (by decide)]
  have hending : ¬ endsEscaping (value ++ " !important").toList = true := by
    rw [String.toList_append, hlast, ← List.append_assoc]
    exact not_endsEscaping_append_singleton (by decide)
  constructor
  · intro h
    exact ⟨hnests ▸ h.nests, hcomments ▸ h.commentsEnd⟩
  · rintro ⟨h₁, h₂⟩
    exact ⟨hnests.trans h₁, hcomments.trans h₂, hending⟩

/-- What counts of a value that may be made important. -/
theorem selfContained_marked_iff {important : Bool} {value : String} :
    SelfContained (if important then value ++ " !important" else value).toList ↔
      nests value.toList = true ∧ commentsEnd value.toList = true ∧
        (endsEscaping value.toList = true → important = true) := by
  cases important with
  | true =>
      rw [if_pos rfl, selfContained_append_important]
      simp
  | false =>
      rw [if_neg (by decide)]
      constructor
      · rintro ⟨h₁, h₂, h₃⟩
        exact ⟨h₁, h₂, fun hending => absurd hending h₃⟩
      · rintro ⟨h₁, h₂, h₃⟩
        exact ⟨h₁, h₂, fun hending => absurd (h₃ hending) (by decide)⟩

/-- What a utility writes besides its value is fixed. -/
theorem Utility.forall_declarations_iff {P : String → Prop} {theme : Theme}
    (hcomposition : P scaleComposition.value) (htiming : P "cubic-bezier(0.4, 0, 0.2, 1)")
    (hduration : P (transitionDuration theme)) (utility : Utility) (value : String) :
    (∀ d ∈ utility.declarations theme value, P d.value) ↔ P value := by
  cases utility with
  | transition =>
      simp only [declarations]
      by_cases hnone : value = "none"
      · rw [if_pos hnone]
        simp
      · rw [if_neg hnone]
        simp [htiming, hduration]
  | scale | scaleX | scaleY => simp [declarations, hcomposition]
  | _ => simp [declarations]

/-- The declarations of a class are self-contained exactly if its value is, as far as it is
not the end of the declaration. -/
theorem Utility.selfContained_declarations_iff {theme : Theme}
    (hduration : SelfContained (transitionDuration theme).toList) (utility : Utility)
    (value : String) (important : Bool) :
    (∀ d ∈ (if important then (utility.declarations theme value).map Declaration.makeImportant
        else utility.declarations theme value), SelfContained d.value.toList) ↔
      nests value.toList = true ∧ commentsEnd value.toList = true ∧
        (endsEscaping value.toList = true → important = true) := by
  have hfixed : ∀ {s : String}, SelfContained s.toList →
      SelfContained (if important then s ++ " !important" else s).toList := fun h =>
    selfContained_marked_iff.mpr
      ⟨h.nests, h.commentsEnd, fun hending => absurd hending h.ending⟩
  rw [← selfContained_marked_iff, ← forall_declarations_iff
    (P := fun s => SelfContained (if important then s ++ " !important" else s).toList)
    (hfixed (by decide)) (hfixed (by decide)) (hfixed hduration) utility value]
  cases important with
  | true => simp [Declaration.makeImportant]
  | false => simp

/-! ### Classes under a valid configuration -/

namespace Ruleset

variable {config : Config} {ruleset : Ruleset}

theorem neutral_of_find? (h : ofConfig config = .ok ruleset) {category : Category}
    {name value : String} (hfind : ruleset.theme.find? category name = some value) :
    Neutral value.toList :=
  (tokenText_of_acceptsTrimmed
    (Theme.fitsCategory_of_resolve (ofConfig_eq_ok.mp h).2.1 hfind)).neutral

theorem selfContained_transitionDuration (h : ofConfig config = .ok ruleset) :
    SelfContained (Utility.transitionDuration ruleset.theme).toList := by
  unfold Utility.transitionDuration
  cases hfind : ruleset.theme.find? .transitionDuration Utility.defaultToken with
  | none => decide
  | some value => exact (neutral_of_find? h hfind).selfContained

/-- A rule is self-contained exactly if the value it is made of keeps to itself. -/
theorem exists_selfContained_iff (h : ofConfig config = .ok ruleset) {literal : String}
    {r : ClassRule} (hr : ruleset.rule? literal = some r) :
    ∃ category value,
      ComesFrom ruleset.theme literal.toList category r.token value ∧
      ((∀ d ∈ r.declarations, SelfContained d.value.toList) ↔
        KeepsToItself r.negative r.important value.toList) := by
  obtain ⟨rule, contributions, hrule, -, rfl⟩ := ClassRule.ofLiteral?_eq_some hr
  obtain ⟨utility, value, written, hfrom, hwritten, hdeclarations⟩ :=
    BaseRule.ofClass?_eq_some hrule
  refine ⟨utility.category, value, hfrom.of_suffix (Chain.split_suffix _), ?_⟩
  show (∀ d ∈ rule.declarations, _) ↔ KeepsToItself rule.negative rule.important _
  rw [hdeclarations,
    Utility.selfContained_declarations_iff (selfContained_transitionDuration h)]
  cases hnegative : rule.negative with
  | false =>
      obtain rfl : value = written := by simpa [hnegative] using hwritten
      exact ⟨fun ⟨h₁, h₂, h₃⟩ => ⟨h₁, h₂, fun hending => .inr (h₃ hending)⟩,
        fun ⟨h₁, h₂, h₃⟩ => ⟨h₁, h₂, fun hending => (h₃ hending).resolve_left (by decide)⟩⟩
  | true =>
      rw [if_pos hnegative] at hwritten
      obtain ⟨hnests, hcomments, hnot⟩ := negate?_spec hwritten
      rw [hnests, hcomments]
      exact ⟨fun ⟨h₁, h₂, _⟩ => ⟨h₁, h₂, fun _ => .inl rfl⟩,
        fun ⟨h₁, h₂, _⟩ => ⟨h₁, h₂, fun hending => absurd hending hnot⟩⟩

/--
**Which values are self-contained.**  Under a valid configuration every value that comes
from the theme is.  A class with another value ends with a text in brackets, and its values
are self-contained exactly if that text keeps to itself under the marks of the class; so
they are in any case if the text is self-contained.
-/
theorem selfContained_declarations (h : ofConfig config = .ok ruleset) {literal : String}
    {r : ClassRule} (hr : ruleset.rule? literal = some r) :
    (∀ name, r.token = .theme name → ∀ d ∈ r.declarations, SelfContained d.value.toList) ∧
      ∀ value, r.token = .arbitrary value →
        ∃ before raw, literal.toList = before ++ '[' :: (raw ++ [']']) ∧
          value.toList = Arbitrary.decode raw ∧
          ((∀ d ∈ r.declarations, SelfContained d.value.toList) ↔
            KeepsToItself r.negative r.important raw) ∧
          (SelfContained raw → ∀ d ∈ r.declarations, SelfContained d.value.toList) := by
  obtain ⟨category, value, hfrom, hiff⟩ := exists_selfContained_iff h hr
  cases htoken : r.token with
  | theme name =>
      rw [htoken] at hfrom
      refine ⟨fun _ _ => ?_, fun _ hvalue => by cases hvalue⟩
      cases hfrom with
      | theme hfind => exact hiff.mpr (.of_selfContained (neutral_of_find? h hfind).selfContained)
  | arbitrary written =>
      rw [htoken] at hfrom
      refine ⟨fun _ hname => (by cases hname), fun value hvalue => ?_⟩
      cases hvalue
      cases hfrom with
      | brackets before raw hliteral =>
          rw [String.toList_ofList, keepsToItself_decode] at hiff
          exact ⟨before, raw, hliteral, String.toList_ofList, hiff,
            fun hraw => hiff.mpr (.of_selfContained hraw)⟩

/-- A function in brackets, negated: nothing is left open. -/
theorem selfContained_declarations_negated :
    ofConfig { content := ["a"] } = .ok (.plain ["a"]) ∧
      ∃ r, (plain ["a"]).rule? "-z-[var(--a)]" = some r ∧
        ∀ d ∈ r.declarations, SelfContained d.value.toList := by
  have h : ofConfig { content := ["a"] } = .ok (.plain ["a"]) := ofConfig_plain (by decide)
  have htoken : ((plain ["a"]).rule? "-z-[var(--a)]").map (·.token) =
      some (.arbitrary "var(--a)") := by
    decide +kernel
  obtain ⟨r, hr, htoken⟩ := Option.map_eq_some_iff.mp htoken
  obtain ⟨before, raw, -, hdecode, hiff, -⟩ := (selfContained_declarations h hr).2 _ htoken
  refine ⟨h, r, hr, hiff.mpr (keepsToItself_decode.mp ?_)⟩
  rw [← hdecode]
  exact .of_selfContained (by decide)

/-- A bracket that a source does not close is not closed in the stylesheet either. -/
theorem not_selfContained_unclosed :
    ofConfig { content := ["a"] } = .ok (.plain ["a"]) ∧
      ∃ candidate r, candidate ∈ Source.candidates "z-[(]".toList ∧
        (plain ["a"]).rule? candidate.text = some r ∧
        r.declarations = [⟨"z-index", "("⟩] ∧ ¬ SelfContained "(".toList := by
  have hdeclarations : ((plain ["a"]).rule? "z-[(]").map (·.declarations) =
      some [⟨"z-index", "("⟩] := by
    decide +kernel
  obtain ⟨r, hr, hdeclarations⟩ := Option.map_eq_some_iff.mp hdeclarations
  exact ⟨ofConfig_plain (by decide), ⟨"z-[(]", 1⟩, r, by decide +kernel, hr, hdeclarations,
    by decide⟩

end Ruleset

end AtomicCss
