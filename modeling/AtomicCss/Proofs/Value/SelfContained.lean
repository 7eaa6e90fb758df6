/-
Values that leave the text behind them alone.

A declaration's value is followed by a semicolon or a brace, and these end the declaration
only if nothing in the value is still open: no bracket, no comment, no escape.  The three
are told from the characters alone, brackets by a stack of the closers still due.

Most text is neutral: it has no bracket, slash or backslash.  Neutral text is
self-contained, and standing beside other text it changes little, so what the modifiers of
a value put around it (`calc(`, ` * -1)`, ` !important`) can be worked out piece by piece.
-/
import AtomicCss.Proofs.Text.Blank

namespace AtomicCss.Value

open Text

/-- Whether brackets close in nested order; `due` are the closers that are still awaited,
the next one first. -/
def nestsFrom (due : List Char) : List Char → Bool
  | [] => due.isEmpty
  | c :: cs =>
    if c = '(' then nestsFrom (')' :: due) cs
    else if c = '[' then nestsFrom (']' :: due) cs
    else if c = ')' || c = ']' then due.head? == some c && nestsFrom due.tail cs
    else nestsFrom due cs

/-- Whether every bracket is closed in nested order, and no other is. -/
def nests (cs : List Char) : Bool :=
  nestsFrom [] cs

/-- Whether the end of a comment stands somewhere in a text. -/
def endsComment : List Char → Bool
  | [] => false
  | c :: cs => (c == '*' && cs.head? == some '/') || endsComment cs

/-- Whether every comment that begins is followed by the end of one. -/
def commentsEnd : List Char → Bool
  | [] => true
  | c :: cs => (!(c == '/' && cs.head? == some '*') || endsComment cs.tail) && commentsEnd cs

/-- Whether the last character is a backslash that no backslash escapes. -/
def endsEscaping (cs : List Char) : Bool :=
  (cs.reverse.takeWhile (· == '\\')).length % 2 == 1

/-- A value with nothing left open. -/
structure SelfContained (cs : List Char) : Prop where
  nests : nests cs = true
  commentsEnd : commentsEnd cs = true
  ending : ¬ endsEscaping cs = true

instance (cs : List Char) : Decidable (SelfContained cs) :=
  decidable_of_iff (nests cs = true ∧ commentsEnd cs = true ∧ ¬ endsEscaping cs = true)
    ⟨fun ⟨h₁, h₂, h₃⟩ => ⟨h₁, h₂, h₃⟩, fun ⟨h₁, h₂, h₃⟩ => ⟨h₁, h₂, h₃⟩⟩

/-! ### Pieces of text -/

/-- What is due before a text decides all that the text before it can do to it. -/
theorem nestsFrom_append_congr {p q : List Char}
    (h : ∀ due, nestsFrom due p = nestsFrom due q) :
    ∀ {cs due : List Char}, nestsFrom due (cs ++ p) = nestsFrom due (cs ++ q) := by
  intro cs
  induction cs with
  | nil => intro due; exact h due
  | cons c cs ih =>
      intro due
      simp only [List.cons_append, nestsFrom, ih]

/-- Once what a text opens is closed, what was due before is due again. -/
theorem nestsFrom_append_of_nests {rest : List Char} :
    ∀ {cs due outer : List Char}, nestsFrom due cs = true →
      nestsFrom (due ++ outer) (cs ++ rest) = nestsFrom outer rest := by
  intro cs
  induction cs with
  | nil =>
      intro due outer h
      obtain rfl : due = [] := List.isEmpty_iff.mp h
      rfl
  | cons c cs ih =>
      intro due outer h
      simp only [List.cons_append, nestsFrom] at h ⊢
      split_ifs at h ⊢
      · exact ih h
      · exact ih h
      · obtain ⟨hhead, htail⟩ := Bool.and_eq_true_iff.mp h
        cases due with
        | nil => cases hhead
        | cons d due =>
            rw [List.head?_cons] at hhead
            rw [List.cons_append, List.head?_cons, hhead, Bool.true_and]
            exact ih htail
      · exact ih h

theorem SelfContained.nests_parens {cs : List Char} (h : SelfContained cs) :
    Value.nests ('(' :: (cs ++ [')'])) = true :=
  (nestsFrom_append_of_nests h.nests : nestsFrom ([] ++ [')']) (cs ++ [')']) = _)

theorem endsComment_eq_false {cs : List Char} (h : '/' ∉ cs) : endsComment cs = false := by
  induction cs with
  | nil => rfl
  | cons c cs ih =>
      rw [List.mem_cons, not_or] at h
      rw [endsComment, ih h.2, Bool.or_false, Bool.and_eq_false_iff]
      right
      cases cs with
      | nil => rfl
      | cons d cs =>
          rw [List.mem_cons, not_or] at h
          simpa using Ne.symm h.2.1

theorem endsComment_append {cs q : List Char} (hq : '/' ∉ q) :
    endsComment (cs ++ q) = endsComment cs := by
  induction cs with
  | nil => exact endsComment_eq_false hq
  | cons c cs ih =>
      rw [List.cons_append, endsComment, endsComment, ih]
      cases cs with
      | cons d cs => rfl
      | nil =>
          have : q.head? ≠ some '/' := fun h => hq (List.mem_of_mem_head? h)
          simp [this]

/-- Text in front opens no comment if it has no slash. -/
theorem commentsEnd_append_left {p cs : List Char} (hp : '/' ∉ p) :
    commentsEnd (p ++ cs) = commentsEnd cs := by
  induction p with
  | nil => rfl
  | cons c p ih =>
      rw [List.mem_cons, not_or] at hp
      rw [List.cons_append, commentsEnd, ih hp.2]
      simp [Ne.symm hp.1]

/-- Text behind neither opens a comment nor ends one, if it has no slash and does not begin
with an asterisk. -/
theorem commentsEnd_append_right {cs q : List Char} (hq : '/' ∉ q) (hhead : q.head? ≠ some '*') :
    commentsEnd (cs ++ q) = commentsEnd cs := by
  induction cs with
  | nil =>
      have : commentsEnd (q ++ []) = commentsEnd [] := commentsEnd_append_left hq
      rwa [List.append_nil] at this
  | cons c cs ih =>
      rw [List.cons_append, commentsEnd, commentsEnd, ih]
      cases cs with
      | nil => simp [hhead]
      | cons d cs =>
          simp only [List.cons_append, List.tail_cons, List.head?_cons, endsComment_append hq]

/-- A backslash counts only at the very end. -/
theorem endsEscaping_append_singleton {cs : List Char} {c : Char} (hc : c ≠ '\\') :
    endsEscaping (cs ++ [c]) = false := by
  simp [endsEscaping, hc]

theorem not_endsEscaping_append_singleton {cs : List Char} {c : Char} (hc : c ≠ '\\') :
    ¬ endsEscaping (cs ++ [c]) = true :=
  Bool.eq_false_iff.mp (endsEscaping_append_singleton hc)

/-! ### Neutral text -/

/-- The characters that open, close or escape something. -/
def structural : List Char :=
  ['(', ')', '[', ']', '/', '\\']

/-- A text that opens, closes and escapes nothing. -/
def Neutral (cs : List Char) : Prop :=
  ∀ c ∈ cs, c ∉ structural

instance (cs : List Char) : Decidable (Neutral cs) :=
  decidable_of_iff (cs.all fun c => !structural.contains c) (by simp [Neutral])

theorem Neutral.slash_notMem {cs : List Char} (h : Neutral cs) : '/' ∉ cs :=
  fun hslash => h '/' hslash (by decide)

theorem notMem_structural_of_isBlank {c : Char} (h : isBlank c = true) : c ∉ structural := by
  have hstructural : structural.any isBlank = false := by decide
  exact fun hmem => List.any_eq_false.mp hstructural c hmem h

theorem neutral_of_isBlank {cs : List Char} (h : ∀ c ∈ cs, isBlank c = true) : Neutral cs :=
  fun c hc => notMem_structural_of_isBlank (h c hc)

theorem nestsFrom_append_left {p cs due : List Char} (h : Neutral p) :
    nestsFrom due (p ++ cs) = nestsFrom due cs := by
  induction p with
  | nil => rfl
  | cons c p ih =>
      have hc := h c (by simp)
      simp only [structural, List.mem_cons, List.not_mem_nil, or_false, not_or] at hc
      obtain ⟨h₁, h₂, h₃, h₄, -, -⟩ := hc
      rw [List.cons_append, nestsFrom, if_neg h₁, if_neg h₃, if_neg (by simp [h₂, h₄])]
      exact ih fun c hc => h c (by simp [hc])

theorem nestsFrom_append_right {cs q due : List Char} (h : Neutral q) :
    nestsFrom due (cs ++ q) = nestsFrom due cs := by
  have hq : ∀ due, nestsFrom due q = nestsFrom due [] := by
    intro due
    rw [← List.append_nil q, nestsFrom_append_left h]
  rw [nestsFrom_append_congr hq, List.append_nil]

/-- **Neutral text is self-contained.** -/
theorem Neutral.selfContained {cs : List Char} (h : Neutral cs) : SelfContained cs := by
  refine ⟨?_, ?_, ?_⟩
  · rw [nests, ← List.nil_append cs, nestsFrom_append_right h]
    rfl
  · rw [← List.append_nil cs, commentsEnd_append_left h.slash_notMem]
    rfl
  · rcases List.eq_nil_or_concat cs with rfl | ⟨init, c, rfl⟩
    · decide
    · rw [List.concat_eq_append] at h ⊢
      refine not_endsEscaping_append_singleton ?_
      rintro rfl
      exact h '\\' (by simp) (by decide)

theorem nestsFrom_trim {cs rest due : List Char} :
    nestsFrom due (trim cs ++ rest) = nestsFrom due (cs ++ rest) := by
  obtain ⟨before, after, hcs, hbefore, hafter⟩ := exists_trim cs
  calc nestsFrom due (trim cs ++ rest)
      = nestsFrom due (trim cs ++ (after ++ rest)) :=
        nestsFrom_append_congr fun _ => (nestsFrom_append_left (neutral_of_isBlank hafter)).symm
    _ = nestsFrom due (before ++ (trim cs ++ (after ++ rest))) :=
        (nestsFrom_append_left (neutral_of_isBlank hbefore)).symm
    _ = nestsFrom due (cs ++ rest) := by
        have : before ++ (trim cs ++ (after ++ rest)) = cs ++ rest := by
          simpa using congrArg (· ++ rest) hcs.symm
        rw [this]

theorem commentsEnd_trim {cs : List Char} : commentsEnd (trim cs) = commentsEnd cs := by
  obtain ⟨before, after, hcs, hbefore, hafter⟩ := exists_trim cs
  have hhead : after.head? ≠ some '*' := by
    intro h
    exact absurd (hafter '*' (List.mem_of_mem_head? h)) (by decide)
  calc commentsEnd (trim cs)
      = commentsEnd (before ++ trim cs) :=
        (commentsEnd_append_left (neutral_of_isBlank hbefore).slash_notMem).symm
    _ = commentsEnd (before ++ trim cs ++ after) :=
        (commentsEnd_append_right (neutral_of_isBlank hafter).slash_notMem hhead).symm
    _ = commentsEnd cs := by rw [← hcs]

end AtomicCss.Value
