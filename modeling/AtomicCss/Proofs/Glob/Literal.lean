/-
Patterns without syntax.

A text in which no character means anything to the reader is a pattern of its own
characters.  It can always be read, is never too deep, is decided by the whole of a path and
leaves out exactly the path that it spells.
-/
import AtomicCss.Proofs.Glob.Reader
import AtomicCss.Proofs.Ignore.Patterns

namespace AtomicCss

namespace Glob

/-- The characters that mean something outside of groups and classes. -/
def isSyntax (c : Char) : Bool :=
  isWildcard c || c == '\x7d' || c == '\\'

/-- Whether a pattern has no syntax. -/
def isLiteral (pattern : List Char) : Bool :=
  pattern.all (!isSyntax ·)

/-- The pattern of some characters that stand for themselves. -/
def ofLiterals (cs : List Char) : Glob :=
  { tokens := cs.map .literal }

/-! ### Reading -/

variable {lenient classes : Bool} {d : Draft} {cs : List Char}

theorem readTokens_cons_of_not_isSyntax {c : Char} (hgroups : d.groups = [])
    (hc : isSyntax c = false) (rest : List Char) :
    readTokens lenient classes d (c :: rest) =
      readTokens lenient classes (d.push c (.literal c)) rest := by
  rw [readTokens.eq_def]
  split <;> rename_i heq <;> cases heq
  case h_7 => simp only [Draft.nextBranch, hgroups]
  case h_11 => rfl
  all_goals simp [isSyntax, isWildcard] at hc

theorem readTokens_of_isLiteral (hgroups : d.groups = []) (hcs : isLiteral cs = true) :
    readTokens lenient classes d cs = .ok (d.pushAll cs) := by
  induction cs generalizing d with
  | nil =>
      rw [readTokens]
      rfl
  | cons c cs ih =>
      obtain ⟨hc, hrest⟩ := Bool.and_eq_true_iff.mp hcs
      rw [readTokens_cons_of_not_isSyntax hgroups (by simpa using hc)]
      exact ih hgroups hrest

theorem parse_of_isLiteral {pattern : String} (h : isLiteral pattern.toList = true) :
    parse pattern = .ok (ofLiterals pattern.toList) := by
  refine parse_eq_ok.mpr ⟨_, readTokens_of_isLiteral rfl h, Draft.groups_pushAll _ _, ?_⟩
  simp [Draft.tokens_pushAll, ofLiterals]

/-! ### Use among other patterns -/

theorem isTooDeep_ofLiterals (cs : List Char) : isTooDeep (ofLiterals cs) = false := by
  have hitems : itemDepth false (cs.map .literal) = 0 := by
    induction cs with
    | nil => rfl
    | cons c cs ih =>
        show max 0 (itemDepth false (cs.map .literal)) = 0
        rw [ih]
        rfl
  have hdepth : (ofLiterals cs).depth = 1 := by
    unfold depth ofLiterals
    split
    · rename_i hleading
      cases cs <;> simp at hleading
    · rw [hitems]
  simp [isTooDeep, hdepth, depthLimit]

theorem needsName_ofLiterals (cs : List Char) : (ofLiterals cs).shape.needsName = false := by
  cases cs with
  | nil => rfl
  | cons c cs =>
      have hname : isNameBelow (ofLiterals (c :: cs)).tokens = false := rfl
      have hextension : isExtension (ofLiterals (c :: cs)).separated
        (ofLiterals (c :: cs)).tokens = false := rfl
      have htail : isTail (ofLiterals (c :: cs)).separated
          (ofLiterals (c :: cs)).tokens = true := by
        simp [isTail, ofLiterals, Token.isAnyLiteral]
      simp [shape, hname, hextension, htail, Shape.needsName]

end Glob

namespace IgnorePatterns

/-- A pattern without syntax leaves out the path that it spells. -/
theorem isMatch_ofLiterals {cs path : List Char} :
    isMatch ⟨[Glob.ofLiterals cs]⟩ path = true ↔ path = cs := by
  have hmatch : (Glob.ofLiterals cs).isMatch path = true ↔ path = cs :=
    Glob.isMatch_literals_iff rfl
  simp [isMatch, hmatch, Glob.needsName_ofLiterals]

end IgnorePatterns

end AtomicCss
