/-
A memo is exact, whatever it was asked before.

The calls on a memo are look-ups, each with a computation of its own, glances that compute nothing,
and requests to forget everything.  Of a whole history only the look-ups since the last such request
matter: the first one of a literal has computed what is known of it, and all later ones have got
the same.  `askedSince` lists them, and `Stands` says how a memo stands to that list and to the
history: one call keeps it, and so, by induction on the calls, every history leads to it.

A look-up is a plain function, in which it cannot be seen whether a computation was run.  `lookupM`
is the same look-up for computations with an effect, so that running one can be counted.
-/
import AtomicCss.Proofs.Memo
import Mathlib.Data.List.Induction

namespace AtomicCss

/-- What a look-up would compute. -/
abbrev Computation :=
  Unit → Option ClassRule

/-- One use of a memo. -/
inductive MemoCall
  | lookup (literal : String) (compute : Computation)
  | peek (literal : String)
  | clear

/-- Whether a call is a look-up. -/
def MemoCall.isLookup : MemoCall → Bool
  | .lookup _ _ => true
  | .peek _ | .clear => false

/-- The memo after a call. -/
def MemoCall.make (m : Memo) : MemoCall → Memo
  | .lookup literal compute => (m.lookup literal compute).2
  | .peek _ => m
  | .clear => m.clear

/-- The memo after some calls on a new one. -/
def Memo.after (enabled : Bool) (calls : List MemoCall) : Memo :=
  calls.foldl MemoCall.make { enabled }

/-- The look-ups since everything was forgotten, the first one first. -/
def askedSince (calls : List MemoCall) : List (String × Computation) :=
  calls.foldl (fun asked call =>
    match call with
    | .lookup literal compute => asked ++ [(literal, compute)]
    | .peek _ => asked
    | .clear => []) []

/-! ### Running computations -/

/-- A look-up whose computation may have an effect. -/
def Memo.lookupM {μ : Type → Type} [Monad μ] (m : Memo) (literal : String)
    (compute : Unit → μ (Option ClassRule)) : μ (Option ClassRule × Memo) :=
  match m.peek? literal with
  | some result => pure (result, { m with hits := m.hits + 1 })
  | none => do
    let result ← compute ()
    return (result, m.learn literal result)

/-- Without effects it is a look-up. -/
theorem Memo.lookupM_id (m : Memo) (literal : String) (compute : Computation) :
    (m.lookupM literal compute : Id (Option ClassRule × Memo)).run = m.lookup literal compute := by
  unfold lookupM lookup
  cases m.peek? literal <;> rfl

/-- A computation that counts how often it is run. -/
def Computation.counted (compute : Computation) : Unit → StateM Nat (Option ClassRule) :=
  fun _ => do
    modify (· + 1)
    return compute ()

/-- The memo after a call, with the runs of its computation counted. -/
def MemoCall.makeM (m : Memo) : MemoCall → StateM Nat Memo
  | .lookup literal compute => return (← m.lookupM literal compute.counted).2
  | .peek _ => return m
  | .clear => return m.clear

theorem Memo.lookup_fst_eq (m : Memo) (literal : String) (compute : Computation) :
    (m.lookup literal compute).1 = (m.peek? literal).getD (compute ()) :=
  m.lookup_fst (fun _ => compute ()) literal

/-- What finds something does not ask what it would compute. -/
theorem Memo.lookup_eq_of_known {m : Memo} {literal : String}
    (hknown : (m.peek? literal).isSome = true) (compute other : Computation) :
    m.lookup literal compute = m.lookup literal other := by
  obtain ⟨result, hresult⟩ := Option.isSome_iff_exists.mp hknown
  unfold lookup
  rw [hresult]

/-- A look-up runs its computation if it finds nothing. -/
theorem Memo.run_lookupM_counted (m : Memo) (literal : String) (compute : Computation)
    (runs : Nat) :
    (m.lookupM literal compute.counted).run runs =
      (m.lookup literal compute, if (m.peek? literal).isSome then runs else runs + 1) := by
  unfold lookupM lookup
  cases m.peek? literal <;> rfl

/-- One call makes as many misses as runs. -/
theorem MemoCall.run_makeM (m : Memo) (call : MemoCall) :
    (call.makeM m).run m.stats.misses = (call.make m, (call.make m).stats.misses) := by
  cases call with
  | lookup literal compute =>
      have hmisses : (m.lookup literal compute).2.stats.misses =
          if (m.peek? literal).isSome then m.stats.misses else m.stats.misses + 1 := by
        rw [Memo.stats_lookup]
        split <;> rfl
      rw [makeM, StateT.run_bind, Memo.run_lookupM_counted, make, hmisses]
      rfl
  | peek literal => rfl
  | clear => rfl

/-- **Misses are runs**, in every history from every memo. -/
theorem MemoCall.run_foldlM_makeM (m : Memo) (calls : List MemoCall) :
    (calls.foldlM makeM m).run m.stats.misses =
      (calls.foldl make m, (calls.foldl make m).stats.misses) := by
  induction calls generalizing m with
  | nil => rfl
  | cons call calls ih =>
      rw [List.foldlM_cons, List.foldl_cons, StateT.run_bind, run_makeM]
      exact ih (call.make m)

/-! ### Histories -/

theorem askedSince_append (calls : List MemoCall) (call : MemoCall) :
    askedSince (calls ++ [call]) =
      match call with
      | .lookup literal compute => askedSince calls ++ [(literal, compute)]
      | .peek _ => askedSince calls
      | .clear => [] := by
  unfold askedSince
  rw [List.foldl_append]
  rfl

/-- The look-ups that a memo knows of.  One that is switched off knows of none. -/
def knownOf (enabled : Bool) (calls : List MemoCall) : List (String × Computation) :=
  if enabled then askedSince calls else []

theorem knownOf_append_lookup (enabled : Bool) (calls : List MemoCall) (literal : String)
    (compute : Computation) :
    knownOf enabled (calls ++ [.lookup literal compute]) =
      knownOf enabled calls ++ if enabled then [(literal, compute)] else [] := by
  rw [knownOf, knownOf, askedSince_append]
  cases enabled <;> rfl

/-- There is one more distinct literal if the new one is none of the old ones. -/
theorem length_dedup_append (literals : List String) (literal : String) :
    (literals ++ [literal]).dedup.length =
      if literal ∈ literals then literals.dedup.length else literals.dedup.length + 1 := by
  rw [(List.perm_append_singleton literal literals).dedup.length_eq]
  split
  · rename_i hmem
    rw [List.dedup_cons_of_mem hmem]
  · rename_i hnew
    rw [List.dedup_cons_of_notMem hnew, List.length_cons]

namespace Memo

/-- How a memo stands after some calls. -/
structure Stands (enabled : Bool) (calls : List MemoCall) (m : Memo) : Prop where
  enabled_eq : m.enabled = enabled
  /-- What is known of a literal is what the first of its look-ups has computed. -/
  peek?_eq : ∀ literal, m.peek? literal = ((knownOf enabled calls).lookup literal).map (· ())
  entries_eq : m.stats.entries = ((knownOf enabled calls).map (·.1)).dedup.length
  total_eq : m.stats.hits + m.stats.misses = calls.countP MemoCall.isLookup
  /-- Without a memory nothing is hit. -/
  hits_eq : enabled = false → m.stats.hits = 0

variable {enabled : Bool} {calls : List MemoCall} {m : Memo}

theorem stands_new : Stands enabled [] { enabled } where
  enabled_eq := rfl
  peek?_eq := fun literal => by
    simp [peek?, knownOf, askedSince]
  entries_eq := by
    simp [stats, knownOf, askedSince]
  total_eq := rfl
  hits_eq := fun _ => rfl

theorem Stands.total_append (h : Stands enabled calls m) (call : MemoCall) :
    (calls ++ [call]).countP MemoCall.isLookup =
      m.stats.hits + m.stats.misses + if call.isLookup then 1 else 0 := by
  rw [List.countP_append, ← h.total_eq, List.countP_singleton]

theorem Stands.isSome_peek?_iff (h : Stands enabled calls m) (literal : String) :
    (m.peek? literal).isSome = true ↔ literal ∈ (knownOf enabled calls).map (·.1) := by
  rw [h.peek?_eq, Option.isSome_map, List.lookup_isSome_iff, List.mem_map]
  refine exists_congr fun e => and_congr_right' ?_
  rw [beq_iff_eq, eq_comm]

theorem Stands.lookup (h : Stands enabled calls m) (literal : String) (compute : Computation) :
    Stands enabled (calls ++ [.lookup literal compute]) (m.lookup literal compute).2 := by
  have hstats := m.stats_lookup literal compute
  exact {
    enabled_eq := (m.enabled_lookup (fun _ => compute ()) literal).trans h.enabled_eq
    peek?_eq := fun other => by
      refine (m.peek?_lookup (fun _ => compute ()) literal other).trans ?_
      rw [knownOf_append_lookup, h.enabled_eq, answerOf, h.peek?_eq, h.peek?_eq,
        List.lookup_append]
      cases enabled with
      | false => simp [knownOf]
      | true =>
          by_cases hother : other = literal
          · subst hother
            cases (knownOf true calls).lookup other <;> simp
          · simp [hother, List.lookup_cons, beq_false_of_ne hother]
    entries_eq := by
      rw [knownOf_append_lookup, hstats, h.enabled_eq]
      cases enabled with
      | false =>
          have hunknown : m.peek? literal = none := h.peek?_eq literal
          rw [hunknown]
          exact h.entries_eq
      | true =>
          have hknown := h.isSome_peek?_iff literal
          rw [if_pos rfl, if_pos rfl, List.map_append, List.map_singleton, length_dedup_append,
            ← h.entries_eq]
          by_cases hmem : literal ∈ (knownOf true calls).map (·.1)
          · rw [if_pos (hknown.mpr hmem), if_pos hmem]
          · rw [if_neg (mt hknown.mp hmem), if_neg hmem]
    total_eq := by
      rw [h.total_append, hstats]
      split
      · show m.stats.hits + 1 + m.stats.misses = m.stats.hits + m.stats.misses + 1
        omega
      · rfl
    hits_eq := fun hoff => by
      rw [hstats, if_neg, h.hits_eq hoff]
      rw [h.isSome_peek?_iff, knownOf, hoff]
      exact List.not_mem_nil }

theorem Stands.make (h : Stands enabled calls m) (call : MemoCall) :
    Stands enabled (calls ++ [call]) (call.make m) := by
  cases call with
  | lookup literal compute => exact h.lookup literal compute
  | peek literal =>
      exact {
        enabled_eq := h.enabled_eq
        peek?_eq := by rw [knownOf, askedSince_append]; exact h.peek?_eq
        entries_eq := by rw [knownOf, askedSince_append]; exact h.entries_eq
        total_eq := by rw [h.total_append]; rfl
        hits_eq := h.hits_eq }
  | clear =>
      have hknown : knownOf enabled (calls ++ [.clear]) = [] := by
        rw [knownOf, askedSince_append, ite_self]
      exact {
        enabled_eq := h.enabled_eq
        peek?_eq := fun literal => by rw [hknown]; exact m.peek?_clear literal
        entries_eq := by rw [hknown]; exact congrArg MemoStats.entries m.stats_clear
        total_eq := by rw [h.total_append]; rfl
        hits_eq := h.hits_eq }

/-- **Every history leads to it.** -/
theorem stands_after (enabled : Bool) (calls : List MemoCall) :
    Stands enabled calls (after enabled calls) := by
  induction calls using List.reverseRecOn with
  | nil => exact stands_new
  | append_singleton calls call ih =>
      rw [after, List.foldl_append]
      exact ih.make call

/--
**A memo is exact, and so are its counts.**  Whatever was asked of it before, a look-up gives what
the first look-up of its literal has computed since everything was forgotten, and runs its own
computation only if it is the first; a glance changes nothing, and shows the results of exactly the
literals that were looked up since then.  Misses are runs, hits and misses together look-ups, and
entries the literals, each counted once.  A memo that is switched off runs every computation.
-/
theorem after_exact (calls : List MemoCall) (literal : String) (compute : Computation)
    (runs : Nat) :
    let on := after true calls
    let off := after false calls
    let asked := askedSince calls
    ((on.lookup literal compute).1 = (asked.lookup literal).getD compute () ∧
      (on.lookupM literal compute.counted).run runs =
        (on.lookup literal compute, if literal ∈ asked.map (·.1) then runs else runs + 1) ∧
      (literal ∈ asked.map (·.1) → ∀ other, on.lookup literal compute = on.lookup literal other) ∧
      after true (calls ++ [.peek literal]) = on ∧
      on.peek? literal = (asked.lookup literal).map (· ()) ∧
      ((on.peek? literal).isSome = true ↔ literal ∈ asked.map (·.1)) ∧
      (calls.foldlM MemoCall.makeM ({ enabled := true } : Memo)).run 0 = (on, on.stats.misses) ∧
      on.stats.hits + on.stats.misses = calls.countP MemoCall.isLookup ∧
      on.stats.entries = (asked.map (·.1)).dedup.length) ∧
    ((off.lookup literal compute).1 = compute () ∧
      (off.lookupM literal compute.counted).run runs = (off.lookup literal compute, runs + 1) ∧
      (calls.foldlM MemoCall.makeM ({ enabled := false } : Memo)).run 0 = (off, off.stats.misses) ∧
      off.stats = ⟨0, calls.countP MemoCall.isLookup, 0⟩) := by
  intro on off asked
  have hon : Stands true calls on := stands_after true calls
  have hoff : Stands false calls off := stands_after false calls
  have hpeek : on.peek? literal = (asked.lookup literal).map (· ()) := hon.peek?_eq literal
  have hsome : (on.peek? literal).isSome = true ↔ literal ∈ asked.map (·.1) :=
    hon.isSome_peek?_iff literal
  have hnone : off.peek? literal = none := hoff.peek?_eq literal
  refine ⟨⟨?_, ?_, ?_, ?_, hpeek, hsome, MemoCall.run_foldlM_makeM _ calls, hon.total_eq,
    hon.entries_eq⟩, ?_, ?_, MemoCall.run_foldlM_makeM _ calls, ?_⟩
  · rw [lookup_fst_eq, hpeek]
    cases asked.lookup literal <;> rfl
  · rw [run_lookupM_counted]
    by_cases hasked : literal ∈ asked.map (·.1)
    · rw [if_pos (hsome.mpr hasked), if_pos hasked]
    · rw [if_neg (mt hsome.mp hasked), if_neg hasked]
  · exact fun hasked other => lookup_eq_of_known (hsome.mpr hasked) compute other
  · exact List.foldl_append
  · rw [lookup_fst_eq, hnone]
    rfl
  · rw [run_lookupM_counted, hnone]
    rfl
  · have hhits : off.stats.hits = 0 := hoff.hits_eq rfl
    have hmisses : off.stats.misses = calls.countP MemoCall.isLookup := by
      rw [← hoff.total_eq, hhits, Nat.zero_add]
    have hentries : off.stats.entries = 0 := hoff.entries_eq
    show MemoStats.mk off.stats.hits off.stats.misses off.stats.entries = _
    rw [hhits, hmisses, hentries]

end Memo

end AtomicCss
