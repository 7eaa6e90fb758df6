/-
The run against a script is one of the schedules.

`run` goes from attempt to attempt and has no clock, no pass that takes its time and nobody
who interferes.  A schedule has all of that, and one that is calm enough does what `run`
does: the debounce time goes by before an attempt, a pass finishes as soon as the waiting
changes that supersede it are received, and a change is announced with each edit.  What is
known of the loop at the places where such a schedule stops for a moment is written down in
`Stands`; the moves lead from one of them to the next, and the induction is that of `run`.
-/
import AtomicCss.Proofs.Rebuild.FromScratch
import AtomicCss.Rebuild.Schedule

namespace AtomicCss.Rebuild.Loop

/-- A schedule leads from a loop to one with the property `P`. -/
def Reaches (source : Option Source) (debounce : Nat) (P : Loop → Prop) (l : Loop) : Prop :=
  ∃ moves, P (l.after source debounce moves)

/-- Where a loop stands: how far round it is, with which flags and which pass, and the state
that it would be in as a loop against a script. -/
structure Stands (phase : Phase) (pending : Bool) (pass : Option Pass) (s : State)
    (delivered : List Outcome) (l : Loop) : Prop where
  phase_eq : l.phase = phase
  pending_eq : l.pending = pending
  pass_eq : l.pass = pass
  engine_eq : l.engine = s.engine
  project_eq : l.project = s.project
  waiting_eq : l.waiting = s.waiting
  outcomes_eq : l.outcomes = delivered
  connected : l.connected = true
  attached : l.attached = true

variable {source : Option Source} {debounce : Nat} {l : Loop} {P Q : Loop → Prop}
  {phase : Phase} {pending : Bool} {pass : Option Pass} {s : State} {delivered : List Outcome}

/-! ### Schedules -/

theorem reaches_here (h : P l) : Reaches source debounce P l :=
  ⟨[], h⟩

theorem reaches_step (move : Move) (h : Reaches source debounce P (l.step source debounce move)) :
    Reaches source debounce P l := by
  obtain ⟨moves, h⟩ := h
  exact ⟨move :: moves, h⟩

theorem Reaches.trans (h : Reaches source debounce P l)
    (hnext : ∀ l, P l → Reaches source debounce Q l) : Reaches source debounce Q l := by
  obtain ⟨moves, h⟩ := h
  obtain ⟨more, hmore⟩ := hnext _ h
  refine ⟨moves ++ more, ?_⟩
  rw [after, List.foldl_append]
  exact hmore

/-! ### Logs -/

theorem outcomes_write_delivered (attempt : Nat) (outcome : Outcome) :
    (l.write (.delivered attempt outcome)).outcomes = l.outcomes ++ [outcome] := by
  simp [outcomes, write]

theorem outcomes_write {event : Event} (h : ∀ attempt outcome, event ≠ .delivered attempt outcome) :
    (l.write event).outcomes = l.outcomes := by
  cases event with
  | delivered attempt outcome => exact absurd rfl (h attempt outcome)
  | received | reloading | started | joined => simp [outcomes, write]

/-! ### Going round -/

/-- How far round a loop is says nothing about the rest of it. -/
theorem Stands.moved (h : Stands phase pending pass s delivered l) (next : Phase) :
    Stands next pending pass s delivered { l with phase := next } :=
  { h with phase_eq := rfl }

theorem Stands.turn_collecting (h : Stands .collecting pending pass s delivered l)
    (hpass : ∀ p, pass = some p → p.result = none) :
    l.step source debounce .turn = { l with phase := .deciding } := by
  simp only [step, turn, h.phase_eq, collect]
  split
  · rename_i attempt cancelled result hfinished
    cases hpass _ (h.pass_eq.symm.trans hfinished)
  · rfl

theorem Stands.turn_deciding (h : Stands .deciding pending pass s delivered l)
    (hidle : pending = false ∨ l.isSettled debounce = false) :
    l.step source debounce .turn = { l with phase := .listening } := by
  simp only [step, turn, h.phase_eq, consider, h.pending_eq]
  rw [if_neg]
  rcases hidle with hidle | hidle <;> simp [hidle]

theorem Stands.turn_listening (h : Stands .listening pending pass s delivered l)
    (hwaiting : s.waiting = 0) :
    l.step source debounce .turn = { l with phase := .collecting } := by
  have hconnected : l.attached = l.connected := h.attached.trans h.connected.symm
  simp [step, turn, h.phase_eq, listen, h.connected, h.waiting_eq, hwaiting, hconnected]

/-! ### Changes -/

/-- The next edit is made and announced. -/
theorem Stands.reaches_deliver (h : Stands phase pending pass s delivered l) (outcome : Outcome) :
    Reaches source debounce (Stands phase pending pass (s.deliver (some outcome)) delivered) l := by
  cases hscript : s.script with
  | nil =>
    apply reaches_here
    simpa only [State.deliver, hscript] using h
  | cons edit script =>
    apply reaches_step (.change (l.project.edited edit))
    apply reaches_step .announce
    apply reaches_here
    have hannounce :
        step source debounce (l.step source debounce (.change (l.project.edited edit))) .announce =
          { l with project := l.project.edited edit, waiting := l.waiting + 1 } := by
      simp [step, announce, h.attached]
    rw [hannounce]
    simp only [State.deliver, hscript]
    exact { h with
      project_eq := congrArg (Project.edited · edit) h.project_eq
      waiting_eq := congrArg (· + 1) h.waiting_eq }

theorem Stands.reaches_received (h : Stands .listening pending pass s delivered l)
    (hwaiting : s.waiting ≠ 0) :
    Reaches source debounce (fun l => l.lastChange = some l.clock ∧
      Stands .collecting true (pass.map Pass.supersede) { s with waiting := s.waiting - 1 }
        delivered l) l := by
  apply reaches_step .turn
  apply reaches_here
  have hturn : l.step source debounce .turn = l.receive := by
    simp [step, turn, h.phase_eq, listen, h.connected, h.waiting_eq, hwaiting]
  rw [hturn]
  exact ⟨rfl, { h with
    phase_eq := rfl
    pending_eq := rfl
    pass_eq := congrArg (Option.map Pass.supersede) h.pass_eq
    waiting_eq := congrArg (· - 1) h.waiting_eq
    outcomes_eq := (outcomes_write (by simp)).trans h.outcomes_eq }⟩

theorem supersede_result (hpass : ∀ p, pass = some p → p.result = none) :
    ∀ p, pass.map Pass.supersede = some p → p.result = none := by
  intro p hp
  obtain ⟨before, hbefore, rfl⟩ := Option.map_eq_some_iff.mp hp
  exact hpass before hbefore

/-- Without a debounce time one change is noticed, with one all that are waiting. -/
theorem Stands.reaches_noticed (h : Stands .listening pending pass s delivered l)
    (hpass : ∀ p, pass = some p → p.result = none) (hwaiting : s.waiting ≠ 0) :
    Reaches source debounce (Stands .collecting true (pass.map Pass.supersede)
      { s with waiting := unnoticed debounce s.waiting } delivered) l := by
  generalize hn : s.waiting = n at hwaiting
  induction n generalizing pending pass s l with
  | zero => exact absurd rfl hwaiting
  | succ n ih =>
    refine (h.reaches_received (hn ▸ hwaiting)).trans fun l ⟨hlast, h⟩ => ?_
    rw [hn, Nat.add_sub_cancel] at h
    by_cases hdone : debounce = 0 ∨ n = 0
    · have hunnoticed : unnoticed debounce (n + 1) = n := by
        unfold unnoticed
        split <;> omega
      rw [hunnoticed]
      exact reaches_here h
    · have hunsettled : l.isSettled debounce = false := by
        simp only [isSettled, hlast, decide_eq_false_iff_not]
        omega
      have hunfinished := supersede_result hpass
      apply reaches_step .turn
      rw [h.turn_collecting hunfinished]
      apply reaches_step .turn
      rw [(h.moved .deciding).turn_deciding (.inr hunsettled)]
      have hagain := ih (h.moved .listening) hunfinished rfl (by omega)
      have hunnoticed : unnoticed debounce n = unnoticed debounce (n + 1) := by
        unfold unnoticed
        split <;> omega
      rw [Option.map_map, hunnoticed] at hagain
      exact hagain

/-! ### Attempts -/

/-- After long enough a time the loop makes the attempt that is due. -/
theorem Stands.reaches_reloading (h : Stands .deciding true none s delivered l) :
    Reaches source debounce (Stands .reloading false none s delivered) l := by
  apply reaches_step (.elapse (l.lastChange.getD 0 + debounce))
  apply reaches_step .turn
  apply reaches_here
  let later := { l with clock := l.clock + (l.lastChange.getD 0 + debounce) }
  have hsettled : later.isSettled debounce = true := by
    cases hlast : l.lastChange with
    | none => simp only [isSettled, later, hlast]
    | some time =>
      simp only [isSettled, later, hlast, Option.getD_some, decide_eq_true_eq]
      omega
  have hturn : later.step source debounce .turn =
      { later with pending := false, phase := .reloading } := by
    have hphase : later.phase = .deciding := h.phase_eq
    have hpending : later.pending = true := h.pending_eq
    have hpass : later.pass = none := h.pass_eq
    simp [step, turn, consider, hphase, hpending, hpass, hsettled]
  show Stands _ _ _ _ _ (later.step source debounce .turn)
  rw [hturn]
  exact { h with phase_eq := rfl, pending_eq := rfl }

theorem Stands.reaches_failed (h : Stands .reloading false none s delivered l)
    {error : ConfigError} (hreload : reload source s.project s.engine = .error (.refused error)) :
    Reaches source debounce (Stands .listening false none s (delivered ++ [.failed error])) l := by
  apply reaches_step .turn
  apply reaches_here
  have hturn : l.step source debounce .turn =
      ({ l with attempts := l.attempts + 1, phase := .listening }.write
        (.reloading (l.attempts + 1) l.clock)).write
          (.delivered (l.attempts + 1) (.failed error)) := by
    simp only [step, turn, h.phase_eq, loadAnew, h.project_eq, h.engine_eq, hreload]
    rfl
  rw [hturn]
  exact { h with
    phase_eq := rfl
    outcomes_eq := by
      rw [outcomes_write_delivered, outcomes_write (by simp)]
      exact congrArg (· ++ _) h.outcomes_eq }

theorem Stands.reaches_broken (h : Stands .reloading false none s delivered l)
    (hreload : reload source s.project s.engine = .error .unordered) :
    Reaches source debounce (fun l => l.phase = .broken ∧ l.outcomes = delivered) l := by
  apply reaches_step .turn
  apply reaches_here
  have hturn : l.step source debounce .turn =
      { l with attempts := l.attempts + 1, phase := .broken }.write
        (.reloading (l.attempts + 1) l.clock) := by
    simp only [step, turn, h.phase_eq, loadAnew, h.project_eq, h.engine_eq, hreload]
    rfl
  rw [hturn]
  exact ⟨rfl, (outcomes_write (by simp)).trans h.outcomes_eq⟩

/-- A configuration that is loaded leads to a pass, with the engine as it is then. -/
theorem Stands.reaches_started (h : Stands .reloading false none s delivered l) {engine : Engine}
    (hreload : reload source s.project s.engine = .ok engine) :
    Reaches source debounce (fun l => ∃ attempt,
      Stands .listening false (some { attempt }) { s with engine } delivered l) l := by
  apply reaches_step .turn
  apply reaches_step .turn
  apply reaches_here
  have hturn : l.step source debounce .turn =
      { l with attempts := l.attempts + 1, engine, phase := .starting }.write
        (.reloading (l.attempts + 1) l.clock) := by
    simp only [step, turn, h.phase_eq, loadAnew, h.project_eq, h.engine_eq, hreload]
    rfl
  rw [hturn]
  exact ⟨l.attempts + 1, { h with
    phase_eq := rfl
    pass_eq := rfl
    engine_eq := rfl
    outcomes_eq := by
      show (start _).outcomes = delivered
      rw [start, outcomes_write (by simp)]
      exact (outcomes_write (by simp)).trans h.outcomes_eq }⟩

theorem Stands.finished {attempt : Nat} {cancelled : Bool}
    (h : Stands phase pending (some { attempt, cancelled }) s delivered l) :
    Stands phase pending (some ⟨attempt, cancelled, some (s.engine.build s.project .never).1⟩)
      { s with engine := (s.engine.build s.project .never).2 } delivered
      (l.finish s.project .never) := by
  simp only [finish, h.pass_eq, h.engine_eq, ite_self]
  exact { h with
    pass_eq := rfl
    engine_eq := rfl }

/-- A pass that no change supersedes delivers its build. -/
theorem Stands.reaches_built {attempt : Nat} {build : Build}
    (h : Stands .listening false (some { attempt }) s delivered l) (hwaiting : s.waiting = 0)
    (hbuild : (s.engine.build s.project .never).1 = .ok build) :
    Reaches source debounce
      (Stands .listening false none { s with engine := (s.engine.build s.project .never).2 }
        (delivered ++ [.built build])) l := by
  apply reaches_step .turn
  rw [h.turn_listening hwaiting]
  apply reaches_step (.finish s.project .never)
  have hfinished := (h.moved .collecting).finished
  rw [hbuild] at hfinished
  show Reaches source debounce _ (finish s.project .never { l with phase := .collecting })
  generalize finish s.project .never _ = l at hfinished ⊢
  apply reaches_step .turn
  have hcollect : l.step source debounce .turn =
      ({ l with pass := none, phase := .deciding }.write (.joined attempt)).write
        (.delivered attempt (.built build)) := by
    simp only [step, turn, hfinished.phase_eq, collect, hfinished.pass_eq]
  have hdelivered : Stands .deciding false none
      { s with engine := (s.engine.build s.project .never).2 } (delivered ++ [.built build])
      (l.step source debounce .turn) := by
    rw [hcollect]
    exact { hfinished with
      phase_eq := rfl
      pass_eq := rfl
      outcomes_eq := by
        rw [outcomes_write_delivered, outcomes_write (by simp)]
        exact congrArg (· ++ _) hfinished.outcomes_eq }
  apply reaches_step .turn
  rw [hdelivered.turn_deciding (.inl rfl)]
  exact reaches_here (hdelivered.moved .listening)

/-- A pass that was superseded delivers nothing, and the next attempt is due. -/
theorem Stands.reaches_superseded {attempt : Nat}
    (h : Stands .collecting true (some { attempt, cancelled := true }) s delivered l) :
    Reaches source debounce
      (Stands .deciding true none { s with engine := (s.engine.build s.project .never).2 }
        delivered) l := by
  apply reaches_step (.finish s.project .never)
  have hfinished := h.finished
  show Reaches source debounce _ (l.finish s.project .never)
  generalize l.finish s.project .never = l at hfinished ⊢
  apply reaches_step .turn
  apply reaches_here
  have hcollect : l.step source debounce .turn =
      { l with pass := none, phase := .deciding }.write (.joined attempt) := by
    simp only [step, turn, hfinished.phase_eq, collect, hfinished.pass_eq]
  rw [hcollect]
  exact { hfinished with
    phase_eq := rfl
    pass_eq := rfl
    outcomes_eq := (outcomes_write (by simp)).trans hfinished.outcomes_eq }

/-! ### A run -/

/-- A loop that has nothing left to do stops when no more changes can come. -/
theorem Stands.reaches_stopped (h : Stands .listening false none s delivered l)
    (hwaiting : s.waiting = 0) :
    Reaches source debounce (fun l => l.phase = .stopped ∧ l.outcomes = delivered) l := by
  refine ⟨[.detach, .turn, .turn, .turn, .turn], ?_⟩
  have hafter : l.after source debounce [.detach, .turn, .turn, .turn, .turn] =
      { l with attached := false, connected := false, phase := .stopped } := by
    simp [after, step, turn, h.phase_eq, listen, h.connected, h.waiting_eq, hwaiting, collect,
      h.pass_eq, consider, h.pending_eq]
  rw [hafter]
  exact ⟨rfl, h.outcomes_eq⟩

/-- How a loop stands after an attempt: it listens if no change is waiting, and otherwise it
has noticed what it has to and the next attempt is due. -/
def StandsAfter (debounce : Nat) (next : State) (delivered : List Outcome) (l : Loop) : Prop :=
  if next.waiting = 0 then Stands .listening false none next delivered l
  else
    Stands .deciding true none { next with waiting := unnoticed debounce next.waiting } delivered l

/-- An outcome is followed by the next edit, and a change that waits then is noticed. -/
theorem Stands.reaches_after_outcome (h : Stands .listening false none s delivered l)
    (outcome : Outcome) :
    Reaches source debounce (StandsAfter debounce (s.deliver (some outcome)) delivered) l := by
  refine (h.reaches_deliver outcome).trans fun l h => ?_
  generalize s.deliver (some outcome) = next at h
  by_cases hwaiting : next.waiting = 0
  · apply reaches_here
    rw [StandsAfter, if_pos hwaiting]
    exact h
  · refine (h.reaches_noticed (by simp) hwaiting).trans fun l h => ?_
    apply reaches_step .turn
    apply reaches_here
    rw [h.turn_collecting (by simp), StandsAfter, if_neg hwaiting]
    exact h.moved .deciding

/-- An attempt, if it does not break the loop off. -/
theorem Stands.reaches_after (h : Stands .deciding true none s delivered l) {engine : Engine}
    {outcome : Option Outcome} (hattempt : attempt source s = some (engine, outcome)) :
    Reaches source debounce
      (StandsAfter debounce (State.deliver { s with engine } outcome)
        (delivered ++ outcome.toList)) l := by
  refine h.reaches_reloading.trans fun l h => ?_
  rcases attempt_eq_some hattempt with
    ⟨error, hreload, rfl, rfl⟩ | ⟨loaded, build, hreload, hbuild, rfl, rfl⟩
  · refine (h.reaches_failed hreload).trans fun l h => ?_
    exact h.reaches_after_outcome (.failed error)
  · refine (h.reaches_started hreload).trans fun l ⟨number, h⟩ => ?_
    by_cases hwaiting : s.waiting = 0
    · rw [if_pos hwaiting]
      refine (h.reaches_built hwaiting hbuild).trans fun l h => ?_
      exact h.reaches_after_outcome (.built build)
    · -- The changes that wait are received while the pass is under way, and supersede it.
      refine (h.reaches_noticed (by simp) hwaiting).trans fun l h => ?_
      refine h.reaches_superseded.trans fun l h => reaches_here ?_
      simp only [hwaiting, if_false, State.deliver, StandsAfter, Option.toList_none,
        List.append_nil]
      exact h

theorem reaches_run (source : Option Source) (debounce : Nat) (s : State) :
    ∀ (delivered : List Outcome) (l : Loop), Stands .deciding true none s delivered l →
      Reaches source debounce (fun l => (l.phase = .stopped ∨ l.phase = .broken) ∧
        l.outcomes = delivered ++ (run source debounce s).map (·.1)) l := by
  induction s using run.induct source debounce with
  | case1 s hnone =>
    intro delivered l h
    rw [run_broken hnone, List.map_nil, List.append_nil]
    refine h.reaches_reloading.trans fun l h => ?_
    refine (h.reaches_broken (reload_of_attempt_eq_none hnone)).trans fun l h => reaches_here ?_
    exact ⟨.inr h.1, h.2⟩
  | case2 s engine outcome hattempt next hlast =>
    intro delivered l h
    have hrun : (run source debounce s).map (·.1) = outcome.toList := by
      rw [run_last hattempt hlast, List.map_map]
      exact List.map_id _
    refine (h.reaches_after hattempt).trans fun l h => ?_
    rw [StandsAfter, if_pos hlast] at h
    rw [hrun]
    refine (h.reaches_stopped hlast).trans fun l h => reaches_here ?_
    exact ⟨.inl h.1, h.2⟩
  | case3 s engine outcome hattempt next hmore hlt ih =>
    intro delivered l h
    let later : State := { next with waiting := unnoticed debounce next.waiting }
    have hrun : (run source debounce s).map (·.1) =
        outcome.toList ++ (run source debounce later).map (·.1) := by
      rw [run_more hattempt hmore, List.map_append, List.map_map]
      exact congrArg (· ++ _) (List.map_id _)
    refine (h.reaches_after hattempt).trans fun l h => ?_
    rw [StandsAfter, if_neg hmore] at h
    rw [hrun, ← List.append_assoc]
    exact ih _ _ h

/--
**The run against a script is one of the schedules**: some moves take the loop from its
beginning to its end, or to where it breaks off, and it has delivered what the run delivers.
-/
theorem exists_after_eq_run (source : Option Source) (debounce : Nat) (engine : Engine)
    (project : Project) (script : List Edit) (waiting : Nat) :
    ∃ moves,
      let l := after source debounce { engine, project, waiting } moves
      (l.phase = .stopped ∨ l.phase = .broken) ∧
        l.outcomes = (run source debounce ⟨engine, project, script, waiting⟩).map (·.1) := by
  let s : State := ⟨engine, project, script, waiting⟩
  have hbegin : Stands .collecting true none s [] { engine, project, waiting } :=
    ⟨rfl, rfl, rfl, rfl, rfl, rfl, rfl, rfl, rfl⟩
  have hturn : step source debounce { engine, project, waiting } .turn =
      { engine, project, waiting, phase := .deciding } := hbegin.turn_collecting (by simp)
  have hrun := reaches_run source debounce s [] _ (hbegin.moved .deciding)
  exact reaches_step .turn (hturn ▸ hrun)

end AtomicCss.Rebuild.Loop
