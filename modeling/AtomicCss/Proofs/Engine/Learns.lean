/-
What a use of an engine leaves behind.

Resolving literals changes nothing of an engine but its memory, and the memory only learns.
This holds of every engine, whatever it remembers, and however far a pass got before it was
stopped; a pass that is not stopped answers with what the engine answers for each literal.  How
far it gets depends on nothing but the number of its checks.
-/
import AtomicCss.Engine.Basic
import AtomicCss.Proofs.Fallible
import AtomicCss.Proofs.Memo

namespace AtomicCss

namespace Engine

/-- What an engine answers for a literal: what it remembers, else the rule. -/
def answer (e : Engine) : String → Option ClassRule :=
  answerOf e.ruleset.rule? e.memo.peek?

/-- An engine before and after some look-ups: it has learned, and all else is as it was. -/
structure Learns (before after : Engine) : Prop where
  options_eq : after.options = before.options
  /-- Configuration, theme and context are the same. -/
  ruleset_eq : after.ruleset = before.ruleset
  enabled_eq : after.memo.enabled = before.memo.enabled
  memo : AtomicCss.Learns before.ruleset.rule? before.memo.peek? after.memo.peek?

namespace Learns

variable {e e₁ e₂ e₃ : Engine}

theorem refl : Learns e e :=
  ⟨rfl, rfl, rfl, .refl⟩

theorem trans (h₁ : Learns e₁ e₂) (h₂ : Learns e₂ e₃) : Learns e₁ e₃ :=
  ⟨h₂.options_eq.trans h₁.options_eq, h₂.ruleset_eq.trans h₁.ruleset_eq,
    h₂.enabled_eq.trans h₁.enabled_eq, h₁.memo.trans (h₁.ruleset_eq ▸ h₂.memo)⟩

theorem answer_eq (h : Learns e₁ e₂) : e₂.answer = e₁.answer := by
  unfold answer
  rw [h.ruleset_eq, h.memo.answerOf_eq]

end Learns

/-! ### Look-ups -/

variable (e : Engine)

theorem resolve_fst (literal : String) : (e.resolve literal).1 = e.answer literal :=
  Memo.lookup_fst e.memo e.ruleset.rule? literal

theorem learns_resolve (literal : String) : Learns e (e.resolve literal).2 :=
  ⟨rfl, rfl, Memo.enabled_lookup e.memo e.ruleset.rule? literal,
    Memo.learns_lookup e.memo e.ruleset.rule? literal⟩

/-- The engine after some look-ups. -/
def lookedUp (literals : List String) : Engine :=
  literals.foldl (fun e literal => (e.resolve literal).2) e

theorem learns_lookedUp (literals : List String) : Learns e (e.lookedUp literals) := by
  induction literals generalizing e with
  | nil => exact .refl
  | cons literal literals ih => exact (learns_resolve e literal).trans (ih _)

/-- Resolving many literals answers each, unless there are fewer checks left than literals. -/
theorem resolveAll_fst (c : Cancellation) (literals : List String) :
    (e.resolveAll c literals).1 =
      (c.pass literals.length).map fun c => (literals.filterMap e.answer, c) := by
  induction literals generalizing e c with
  | nil => obtain ⟨_ | left⟩ := c <;> rfl
  | cons literal literals ih =>
      rw [List.length_cons, Nat.add_comm, Cancellation.pass_add, resolveAll]
      split
      · rename_i stop hstop
        rw [hstop]
        rfl
      · rename_i c hpass
        simp only [ih, hpass, Except.bind, resolve_fst, (learns_resolve e literal).answer_eq]
        rw [List.filterMap_cons]
        cases c.pass literals.length <;> cases e.answer literal <;> rfl

/-- However far it gets, resolving has looked up the first of the literals. -/
theorem resolveAll_snd (c : Cancellation) (literals : List String) :
    ∃ n, (e.resolveAll c literals).2 = e.lookedUp (literals.take n) := by
  induction literals generalizing e c with
  | nil => exact ⟨0, rfl⟩
  | cons literal literals ih =>
      rw [resolveAll]
      split
      · exact ⟨0, rfl⟩
      · rename_i c _
        obtain ⟨n, hn⟩ := ih (e.resolve literal).2 c
        exact ⟨n + 1, hn⟩

theorem resolveAll_never_snd (literals : List String) :
    (e.resolveAll .never literals).2 = e.lookedUp literals := by
  induction literals generalizing e with
  | nil => rfl
  | cons literal literals ih => exact ih (e.resolve literal).2

theorem memo_lookedUp (literals : List String) :
    (e.lookedUp literals).memo = e.memo.lookedUp e.ruleset.rule? literals := by
  induction literals generalizing e with
  | nil => rfl
  | cons literal literals ih => exact ih (e.resolve literal).2

theorem learns_resolveAll (c : Cancellation) (literals : List String) :
    Learns e (e.resolveAll c literals).2 := by
  obtain ⟨n, hn⟩ := resolveAll_snd e c literals
  rw [hn]
  exact learns_lookedUp e _

theorem matching_fst (literals : List String) :
    (e.matching literals).1 = literals.filter fun literal => (e.answer literal).isSome := by
  induction literals generalizing e with
  | nil => rfl
  | cons literal literals ih =>
      rw [matching, List.filter_cons]
      simp only [ih, resolve_fst, (learns_resolve e literal).answer_eq]

/-! ### Passes -/

theorem generate_fst (literals : List String) (c : Cancellation) :
    (e.generate literals c).1 =
      (c.pass (literals.length + 1)).map fun _ => e.sheetOf (literals.filterMap e.answer) := by
  have hoptions := (learns_resolveAll e c literals).options_eq
  simp only [generate, resolveAll_fst, sheetOf, hoptions, Cancellation.pass_add]
  cases c.pass literals.length <;> rfl

theorem learns_generate (literals : List String) (c : Cancellation) :
    Learns e (e.generate literals c).2 :=
  learns_resolveAll e c literals

/-- The files that an engine's configuration selects. -/
def selection (project : Project) : Selection :=
  .of project e.options.scan e.ruleset.config.content

theorem scan_eq (project : Project) (c : Cancellation) :
    e.scan project c = (c.pass (Scan.checks (e.selection project))).map fun c =>
      (Scan.of (e.selection project), c) :=
  Scan.run_eq project e.options.scan e.ruleset.config.content c

/-- How often a build looks whether it is cancelled: as often as its scan, before each literal
and before the stylesheet. -/
def buildChecks (project : Project) : Nat :=
  Scan.checks (e.selection project) + ((Scan.of (e.selection project)).candidates.length + 1)

/-- What a build comes to that nobody cancels. -/
def finished (project : Project) : Build :=
  let scan := Scan.of (e.selection project)
  { stylesheet := e.sheetOf ((scan.candidates.map (·.text)).filterMap e.answer)
    warnings := scan.warnings
    filesScanned := scan.filesScanned
    candidateCount := scan.candidates.length }

theorem build_fst (project : Project) (c : Cancellation) :
    (e.build project c).1 = (c.pass (e.buildChecks project)).map fun _ => e.finished project := by
  rw [build, scan_eq, buildChecks, Cancellation.pass_add]
  cases c.pass (Scan.checks (e.selection project)) with
  | error stop => rfl
  | ok c =>
      simp only [Except.bind, Except.map, generate_fst, List.length_map, finished]
      cases c.pass ((Scan.of (e.selection project)).candidates.length + 1) <;> rfl

theorem learns_build (project : Project) (c : Cancellation) :
    Learns e (e.build project c).2 := by
  rw [build, scan_eq]
  cases c.pass _ with
  | error stop => exact .refl
  | ok c =>
      simp only [Except.map]
      exact learns_generate e _ c

theorem Learns.build_fst_eq {e₁ e₂ : Engine} (h : Learns e₁ e₂) (project : Project)
    (c : Cancellation) : (e₂.build project c).1 = (e₁.build project c).1 := by
  simp only [build_fst, buildChecks, finished, selection, sheetOf, h.options_eq, h.ruleset_eq,
    h.answer_eq]

/-- A pass that nobody cancels builds something. -/
theorem exists_build_never (project : Project) :
    ∃ build, (e.build project .never).1 = .ok build :=
  ⟨_, build_fst e project .never⟩

end Engine

end AtomicCss
