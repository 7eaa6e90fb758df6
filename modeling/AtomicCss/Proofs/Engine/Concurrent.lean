/-
Look-ups at once come to the same as one after the other.

An engine resolves many literals by look-ups that share its memo and run at once, so the steps
of one may come between any two of another.  What each look-up gives, and what all of them
leave behind, is settled by what the memo held before and by which literals are asked for; the
order decides only who computes.  Look-ups one after the other come to that, too, so it is what
`Engine.resolveAll` says, and the rules stand in the order of their literals whoever came
first.
-/
import AtomicCss.Proofs.Engine.Sound
import AtomicCss.Proofs.Memo.Crowd

namespace AtomicCss

namespace Engine

variable {e : Engine} {first : SharedMemo} {literals : List String} {c : Crowd}

theorem results_eq_crowd (hview : first.view = e.memo.view)
    (h : c.Steady e.ruleset.rule? first literals) (hfinished : ∀ l ∈ c.lookups, l.turnsLeft = 0) :
    (e.resolveAll .never literals).1 = .ok (c.results, .never) ∧
      (e.generate literals .never).1 = .ok (e.sheetOf c.results) := by
  have hpeek : first.peek? = e.memo.peek? := congrArg MemoView.peek? hview
  have hresults : c.results = literals.filterMap e.answer := by
    rw [h.results_eq hfinished, hpeek]
    rfl
  rw [resolveAll_fst, generate_fst, hresults]
  exact ⟨rfl, rfl⟩

theorem memo_eq_crowd (henabled : e.memo.enabled = true) (hview : first.view = e.memo.view)
    (h : c.Steady e.ruleset.rule? first literals) (hfinished : ∀ l ∈ c.lookups, l.turnsLeft = 0) :
    (e.resolveAll .never literals).2.memo.view = c.memo.view := by
  have hcrowd := h.lookedUp hfinished
  rw [hview] at hcrowd
  rw [resolveAll_never_snd, memo_lookedUp]
  exact (Memo.lookedUp_view henabled literals).unique hcrowd

end Engine

/--
**Look-ups at once.**  Whatever a memo holds, whatever is looked up in it and in whatever order
the steps are made: no literal is computed twice, and none that the memo knows; each look-up
gives what the memo holds of its literal, else what is computed; and the entries are the
literals that the memo knows.  When each look-up has had its three turns, all have given their
results, in the order of the literals; every look-up is counted, and as a miss once for each
literal that was new.  An engine with such a memo resolves the literals one after the other to
the same rules, in the same order, and to the same stylesheet, and leaves the same behind.
-/
theorem Crowd.run_orderFree (compute : String → Option ClassRule) (first : SharedMemo)
    (literals : List String) (schedule : List Nat) :
    let c := (start first literals).run compute schedule
    c.computed.Nodup ∧
    (∀ literal ∈ c.computed, literal ∈ literals ∧ first.peek? literal = none) ∧
    c.lookups.map Lookup.literal = literals ∧
    (∀ l ∈ c.lookups, ∀ result, l.result? = some result →
      result = answerOf compute first.peek? l.literal) ∧
    (∃ committed : List String, committed.Nodup ∧
      (∀ literal, literal ∈ committed ↔ (c.memo.peek? literal).isSome) ∧
      c.memo.stats.entries = committed.length) ∧
    ((∀ i < literals.length, 3 ≤ schedule.count i) →
      c.lookups.map Lookup.result? =
        literals.map (fun literal => some (answerOf compute first.peek? literal)) ∧
      c.memo.stats.hits + c.memo.stats.misses =
        first.stats.hits + first.stats.misses + literals.length ∧
      c.memo.stats.misses = first.stats.misses + (unknown first.peek? literals).length ∧
      ∀ e : Engine, e.memo.enabled = true → e.ruleset.rule? = compute →
        first.view = e.memo.view →
        (e.resolveAll .never literals).1 = .ok (c.results, .never) ∧
        (e.generate literals .never).1 = .ok (e.sheetOf c.results) ∧
        (e.resolveAll .never literals).2.memo.view = c.memo.view ∧
        (e.generate literals .never).2.memo.view = c.memo.view) := by
  intro c
  have hsteady : c.Steady compute first literals :=
    (steady_start compute first literals).run schedule
  refine ⟨hsteady.gains.nodup, fun literal hliteral => ?_, hsteady.literals_eq,
    fun l hl result => hsteady.eq_answerOf hl, c.memo.exists_committed, fun hturns => ?_⟩
  · exact ⟨hsteady.asked literal hliteral, ((hsteady.gains.mem_iff literal).mp hliteral).1⟩
  · have hfinished : ∀ l ∈ c.lookups, l.turnsLeft = 0 := turnsLeft_run_start hturns
    have hlooked := hsteady.lookedUp hfinished
    refine ⟨hsteady.map_result?_eq hfinished, hlooked.total_eq, hlooked.misses_eq, ?_⟩
    rintro e henabled rfl hview
    obtain ⟨hresults, hsheet⟩ := Engine.results_eq_crowd hview hsteady hfinished
    have hmemo := Engine.memo_eq_crowd henabled hview hsteady hfinished
    exact ⟨hresults, hsheet, hmemo, hmemo⟩

/-- Two look-ups of one class race: both find its slot empty, and the second fills it. -/
theorem Crowd.run_orderFree_raced :
    let e := Engine.plain ["a"]
    let literals := ["z-10", "z-10"]
    let c := (start e.memo.shared literals).run e.ruleset.rule? [0, 1, 1, 0, 0, 1]
    c.memo.stats = ⟨1, 1, 1⟩ ∧ c.computed = ["z-10"] ∧
      (e.resolveAll .never literals).1 = .ok (c.results, .never) ∧
      (e.resolveAll .never literals).2.memo.view = c.memo.view := by
  intro e literals c
  have hturns : ∀ i < literals.length, 3 ≤ [0, 1, 1, 0, 0, 1].count i := by decide
  obtain ⟨-, -, -, -, -, hend⟩ :=
    run_orderFree e.ruleset.rule? e.memo.shared literals [0, 1, 1, 0, 0, 1]
  obtain ⟨-, -, -, hengine⟩ := hend hturns
  obtain ⟨hresults, -, hview, -⟩ := hengine e rfl rfl e.memo.view_shared
  exact ⟨by decide +kernel, by decide +kernel, hresults, hview⟩

end AtomicCss
