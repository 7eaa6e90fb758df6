/-
What a look leaves to do.

Between two looks the loop is at rest: it listens, no pass is under way and no change waits.
Its turns then come one after the other without a choice, so a round can be followed from phase
to phase.  It ends where the loop listens or is broken off, and what is due then is not settled
yet.  So the second round makes no attempt, and the loop is at rest again.

Nothing is due after a look that comes late enough and notices nothing.  Since a loop stays sane
whatever comes, its log is served then: a change that is noticed is not forgotten, it waits for
the first such look.
-/
import AtomicCss.Proofs.Rebuild.Safety
import AtomicCss.Rebuild.Look

namespace AtomicCss.Rebuild

open Loop

namespace Loop

/-- A loop between two looks. -/
structure AtRest (l : Loop) : Prop where
  phase : l.phase = .listening
  pass : l.pass = none
  waiting : l.waiting = 0
  connected : l.connected = true
  attached : l.attached = true

end Loop

namespace Watch

variable {w : Watch} {l : Loop}

/-! ### Turns -/

theorem turns_of_listening (h : (l.turn w.source w.debounce).phase = .listening) (n : Nat) :
    w.turns (n + 1) l = l.turn w.source w.debounce :=
  if_pos h

theorem turns_of_ne (h : (l.turn w.source w.debounce).phase ≠ .listening) (n : Nat) :
    w.turns (n + 1) l = w.turns n (l.turn w.source w.debounce) :=
  if_neg h

theorem turns_broken (h : l.phase = .broken) (n : Nat) : w.turns n l = l := by
  induction n with
  | zero => rfl
  | succ n ih =>
      have hturn : l.turn w.source w.debounce = l := by simp [turn, h]
      rw [turns_of_ne (by simp [hturn, h]), hturn, ih]

theorem turns_of_idle (hphase : l.phase = .deciding)
    (h : (l.pending && l.isSettled w.debounce) = false) (n : Nat) :
    w.turns (n + 1) l = { l with phase := .listening } := by
  have hturn : l.turn w.source w.debounce = { l with phase := .listening } := by
    simp [turn, hphase, consider, h]
  rw [turns_of_listening (by simp [hturn]), hturn]

theorem sane_turns (h : Sane w.debounce l) (n : Nat) : Sane w.debounce (w.turns n l) := by
  induction n generalizing l with
  | zero => exact h
  | succ n ih =>
      rw [turns]
      split
      · exact sane_turn h w.source
      · exact ih (sane_turn h w.source)

/-! ### Rounds -/

/-- A round has ended, and an attempt may be due. -/
structure Ended (w : Watch) (due : Bool) (l : Loop) : Prop where
  phase : l.phase = .listening ∨ l.phase = .broken
  waiting : l.waiting = 0
  connected : l.connected = true
  attached : l.attached = true
  pending : l.pending = due
  unsettled : due = true → l.isSettled w.debounce = false
  /-- A pass that was started is not superseded yet. -/
  pass : l.pass = none ∨ l.phase = .listening ∧ ∃ attempt, l.pass = some { attempt }

section

variable (hpass : l.pass = none) (hwaiting : l.waiting = 0) (hconnected : l.connected = true)
  (hattached : l.attached = true)

include hpass hwaiting hconnected hattached

theorem ended_of_reloading (hphase : l.phase = .reloading) (hpending : l.pending = false)
    (n : Nat) : Ended w false (w.turns (n + 2) l) := by
  have hturn : l.turn w.source w.debounce = l.loadAnew w.source := by simp [turn, hphase]
  cases hreload : reload w.source l.project l.engine with
  | ok engine =>
      have hstarting : (l.loadAnew w.source).phase = .starting := by simp [loadAnew, hreload]
      have hstart : (l.loadAnew w.source).turn w.source w.debounce =
          (l.loadAnew w.source).start := by
        simp [turn, hstarting]
      rw [turns_of_ne (by simp [hturn, hstarting]), hturn,
        turns_of_listening (by simp [hstart, start, write]), hstart]
      simp only [loadAnew, hreload]
      exact ⟨.inl rfl, hwaiting, hconnected, hattached, hpending, by simp, .inr ⟨rfl, _, rfl⟩⟩
  | error error =>
      cases error with
      | unordered =>
          have hbroken : (l.loadAnew w.source).phase = .broken := by simp [loadAnew, hreload]
          rw [turns_of_ne (by simp [hturn, hbroken]), hturn, turns_broken hbroken]
          simp only [loadAnew, hreload]
          exact ⟨.inr rfl, hwaiting, hconnected, hattached, hpending, by simp, .inl hpass⟩
      | refused error =>
          rw [turns_of_listening (by simp [hturn, loadAnew, hreload, write]), hturn]
          simp only [loadAnew, hreload]
          exact ⟨.inl rfl, hwaiting, hconnected, hattached, hpending, by simp, .inl hpass⟩

theorem ended_of_deciding (hphase : l.phase = .deciding) (n : Nat) :
    Ended w (l.pending && !l.isSettled w.debounce) (w.turns (n + 3) l) := by
  by_cases hdue : (l.pending && l.isSettled w.debounce) = true
  · have hnext : l.turn w.source w.debounce = { l with pending := false, phase := .reloading } := by
      simp [turn, hphase, consider, hdue, hpass]
    obtain ⟨-, hsettled⟩ := Bool.and_eq_true_iff.mp hdue
    rw [turns_of_ne (by simp [hnext]), hnext, hsettled, Bool.not_true, Bool.and_false]
    exact ended_of_reloading (l := { l with pending := false, phase := .reloading })
      hpass hwaiting hconnected hattached rfl rfl n
  · rw [turns_of_idle hphase (Bool.eq_false_iff.mpr hdue)]
    refine ⟨.inl rfl, hwaiting, hconnected, hattached, ?_, fun h => ?_, .inl hpass⟩
    · cases hpending : l.pending <;> simp_all
    · simp only [Bool.and_eq_true, Bool.not_eq_true'] at h
      exact h.2

theorem ended_of_collecting (hphase : l.phase = .collecting) (n : Nat) :
    Ended w (l.pending && !l.isSettled w.debounce) (w.turns (n + 4) l) := by
  have hturn : l.turn w.source w.debounce = { l with phase := .deciding } := by
    simp [turn, hphase, collect, hpass]
  rw [turns_of_ne (by simp [hturn]), hturn]
  exact ended_of_deciding (l := { l with phase := .deciding })
    hpass hwaiting hconnected hattached rfl n

end

/-- A round in which no change is received. -/
theorem ended_round (h : AtRest l) :
    Ended w (l.pending && !l.isSettled w.debounce) (w.round l) := by
  have hturn : l.turn w.source w.debounce = { l with phase := .collecting } := by
    simp [turn, Loop.listen, h.phase, h.waiting, h.connected, h.attached]
  rw [round, turns_of_ne (by simp [hturn]), hturn]
  exact ended_of_collecting (l := { l with phase := .collecting })
    h.pass h.waiting h.connected h.attached rfl 0

/-- A round in which a change is received. -/
theorem ended_round_announce (h : AtRest l) : ∃ due, Ended w due (w.round l.announce) := by
  have hannounce : l.announce = { l with waiting := 1 } := by
    simp [announce, h.attached, h.waiting]
  have hturn : l.announce.turn w.source w.debounce = receive { l with waiting := 1 } := by
    simp [hannounce, turn, Loop.listen, h.phase, h.connected]
  have hpass : (receive { l with waiting := 1 }).pass = none := congrArg (Option.map _) h.pass
  rw [round, turns_of_ne (by simp [hturn, receive, write]), hturn]
  exact ⟨_, ended_of_collecting (l := receive { l with waiting := 1 })
    hpass rfl h.connected h.attached rfl 0⟩

/-! ### The second round -/

theorem exists_collect (h : ∀ pass, l.pass = some pass → pass.result.isSome) :
    ∃ log, l.collect = { l with pass := none, phase := .deciding, log } := by
  unfold collect
  split
  · split <;> exact ⟨_, rfl⟩
  · rename_i hnot
    cases hpass : l.pass with
    | none => exact ⟨l.log, by simp [← hpass]⟩
    | some pass =>
        obtain ⟨result, hresult⟩ := Option.isSome_iff_exists.mp (h pass hpass)
        exact absurd (hpass.trans (by rw [← hresult])) (hnot pass.attempt pass.cancelled result)

/-- A round after which nothing is under way, since no attempt is due in it. -/
theorem atRest_round (hphase : l.phase = .listening)
    (hpass : ∀ pass, l.pass = some pass → pass.result.isSome) (hwaiting : l.waiting = 0)
    (hconnected : l.connected = true) (hattached : l.attached = true)
    (hdue : (l.pending && l.isSettled w.debounce) = false) :
    AtRest (w.round l) ∧ (w.round l).pending = l.pending := by
  have hlisten : l.turn w.source w.debounce = { l with phase := .collecting } := by
    simp [turn, Loop.listen, hphase, hwaiting, hconnected, hattached]
  obtain ⟨log, hcollect⟩ := exists_collect (l := { l with phase := .collecting }) hpass
  have hturn : turn w.source w.debounce { l with phase := .collecting } =
      { l with pass := none, phase := .deciding, log } := hcollect
  have hround : w.round l = { l with pass := none, phase := .listening, log } := by
    rw [round, turns_of_ne (by simp [hlisten]), hlisten, turns_of_ne (by simp [hturn]), hturn]
    exact turns_of_idle (l := { l with pass := none, phase := .deciding, log }) rfl hdue 2
  rw [hround]
  exact ⟨⟨rfl, rfl, hwaiting, hconnected, hattached⟩, rfl⟩

/-- A loop is at rest, with an attempt due or not, unless it was broken off. -/
def Rests (due : Bool) (l : Loop) : Prop :=
  l.phase = .broken ∨ AtRest l ∧ l.pending = due

/-- After a round, the pass finishes and another round brings the loop to rest. -/
theorem rests_of_ended {due : Bool} {project : Project} (h : Ended w due l) :
    Rests due (w.round (l.finish project .never)) := by
  have hdue : (l.pending && l.isSettled w.debounce) = false := by
    rw [h.pending]
    cases due with
    | false => rfl
    | true => exact h.unsettled rfl
  rcases h.pass with hpass | ⟨hphase, attempt, hpass⟩
  · have hfinish : l.finish project .never = l := by simp [finish, hpass]
    rw [hfinish]
    rcases h.phase with hphase | hbroken
    · obtain ⟨hrest, hpending⟩ := atRest_round (w := w) hphase (by simp [hpass]) h.waiting
        h.connected h.attached hdue
      exact .inr ⟨hrest, hpending.trans h.pending⟩
    · exact .inl (by rw [round, turns_broken hbroken, hbroken])
  · obtain ⟨engine, result, hfinish⟩ : ∃ engine result, l.finish project .never =
        { l with engine, pass := some ⟨attempt, false, some result⟩ } := by
      simp [finish, hpass]
    rw [hfinish]
    obtain ⟨hrest, hpending⟩ := atRest_round (w := w)
      (l := { l with engine, pass := some ⟨attempt, false, some result⟩ })
      hphase (by rintro pass ⟨⟩; rfl) h.waiting h.connected h.attached hdue
    exact .inr ⟨hrest, hpending.trans h.pending⟩

/-! ### Looks -/

theorem sane_serve (h : Sane w.debounce l) : Sane w.debounce (w.serve l) :=
  sane_turns (sane_finish (sane_turns h 5) _ _) 5

theorem sane_look (h : Sane w.debounce l) (now : Nat) (project : Project) :
    Sane w.debounce (w.look now project l) := by
  have hseen := sane_after h w.source [.elapse (now - l.clock), .change project]
  unfold look
  split
  · exact sane_serve (sane_announce hseen)
  · exact sane_serve hseen

theorem serve_broken (h : l.phase = .broken) : (w.serve l).phase = .broken := by
  have hfinish : (l.finish l.project .never).phase = .broken := by
    unfold finish
    split <;> exact h
  rw [serve, round, round, turns_broken h, turns_broken hfinish, hfinish]

/-- The first attempt is made at once. -/
theorem rests_begin (engine : Engine) (project : Project) :
    Rests false (w.serve { engine, project }) :=
  rests_of_ended (ended_of_collecting (l := { engine, project }) rfl rfl rfl rfl rfl 1)

/-- A look that notices nothing makes the attempt that is due if that is settled. -/
theorem rests_look {due : Bool} (h : Rests due l) (now : Nat) (project : Project) :
    ∃ still, Rests still (w.look now project l) ∧
      (w.notices l.project project = false →
        (∀ time, l.lastChange = some time → w.debounce ≤ now - time) → still = false) := by
  unfold look
  rcases h with hbroken | ⟨hrest, -⟩
  · refine ⟨false, .inl (serve_broken ?_), fun _ _ => rfl⟩
    split
    · rw [announce]
      split <;> exact hbroken
    · exact hbroken
  · have hseen : AtRest (l.after w.source w.debounce [.elapse (now - l.clock), .change project]) :=
      ⟨hrest.phase, hrest.pass, hrest.waiting, hrest.connected, hrest.attached⟩
    split
    · rename_i hnotices
      obtain ⟨still, hended⟩ := ended_round_announce (w := w) hseen
      exact ⟨still, rests_of_ended hended, fun h => by cases hnotices.symm.trans h⟩
    · refine ⟨_, rests_of_ended (ended_round hseen), fun _ hlate => ?_⟩
      have hsettled : isSettled w.debounce
          (l.after w.source w.debounce [.elapse (now - l.clock), .change project]) = true := by
        cases hlast : l.lastChange with
        | none => simp [isSettled, after, step, hlast]
        | some time =>
            have := hlate time hlast
            simp only [isSettled, after, step, List.foldl_cons, List.foldl_nil, hlast,
              decide_eq_true_eq]
            omega
      rw [hsettled, Bool.not_true, Bool.and_false]

/-- The loop after some looks, each at a time and at the files of a project. -/
def looks (w : Watch) (l : Loop) (seen : List (Nat × Project)) : Loop :=
  seen.foldl (fun l (now, project) => w.look now project l) l

theorem rests_looks {due : Bool} (hsane : Sane w.debounce l) (h : Rests due l)
    (seen : List (Nat × Project)) :
    Sane w.debounce (w.looks l seen) ∧ ∃ still, Rests still (w.looks l seen) := by
  induction seen generalizing due l with
  | nil => exact ⟨hsane, due, h⟩
  | cons first seen ih =>
      obtain ⟨still, hstill, -⟩ := rests_look (w := w) h first.1 first.2
      exact ih (sane_look hsane first.1 first.2) hstill

/--
**Looking serves every change that is noticed.**  Whatever the looks saw, everything in the log
was allowed when it happened, and no pass is under way after them.  If one more look notices
nothing and the last change is the debounce time ago, an attempt that began after that change
has delivered its outcome, unless the loop was broken off.
-/
theorem served_look (w : Watch) (engine : Engine) (project : Project)
    (seen : List (Nat × Project)) (now : Nat) (files : Project) :
    let l := w.looks (w.serve { engine, project }) seen
    let last := w.look now files l
    Lawful w.debounce last.log ∧
      (last.phase = .broken ∨ underWay last.log = [] ∧ last.waiting = 0 ∧
        (w.notices l.project files = false → Quiet w.debounce l.log now → Served last.log)) := by
  intro l last
  have hbegin : Sane w.debounce (w.serve { engine, project }) :=
    sane_serve (sane_begin engine project)
  obtain ⟨hsane, due, hrests⟩ := rests_looks hbegin (rests_begin engine project) seen
  obtain ⟨still, hlast, hserves⟩ := rests_look (w := w) hrests now files
  have hsaneLast : Sane w.debounce last := sane_look hsane now files
  refine ⟨hsaneLast.lawful, hlast.imp_right fun ⟨hrest, hpending⟩ => ?_⟩
  refine ⟨by rw [hsaneLast.underWay_eq, hrest.pass]; rfl, hrest.waiting, fun hnotices hquiet => ?_⟩
  have hstill : still = false :=
    hserves hnotices fun time htime => hquiet time (hsane.lastReceived?_eq.trans htime)
  have hphase : last.phase = .listening := hrest.phase
  exact hsaneLast.served (hpending.trans hstill) hrest.pass (by simp [hphase])

end Watch

end AtomicCss.Rebuild
