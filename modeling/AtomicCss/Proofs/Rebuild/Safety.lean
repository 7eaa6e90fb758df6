/-
What a rebuild loop never does.

The log of a loop is judged by itself: every entry has to be allowed by those before it.
An attempt begins only when no pass is under way and the last change is long enough ago,
and a build is delivered only if no change was received since its pass was started.  A log
is served if an attempt that began after the last change has delivered its outcome.

The loop keeps flags where the log has the facts, so the invariant says how the flags and
the log belong together: that the loop's own pass is the only one under way, that it is
cancelled exactly if an attempt is due again, and that nothing is due only once the log is
served or a pass is about to serve it.  Every move keeps the invariant, in whatever order the
moves come, and what it says of a loop that has stopped is that no change was lost.
-/
import AtomicCss.Proofs.Engine.Sound
import AtomicCss.Rebuild.Schedule

namespace AtomicCss

namespace Rebuild

/-! ### Logs -/

/-- When the change came, if the event is the receipt of one. -/
def Event.receivedAt? : Event → Option Nat
  | .received time => some time
  | _ => none

/-- What happened since the last change was received, the last first. -/
def fresh (log : List Event) : List Event :=
  log.takeWhile fun event => event.receivedAt?.isNone

/-- When the last change was received. -/
def lastReceived? (log : List Event) : Option Nat :=
  log.findSome? Event.receivedAt?

/-- The attempts whose passes were started and not taken back. -/
def underWay : List Event → List Nat
  | [] => []
  | .started attempt _ :: log => attempt :: underWay log
  | .joined attempt :: log => (underWay log).erase attempt
  | _ :: log => underWay log

/-- How many attempts began. -/
def attemptCount (log : List Event) : Nat :=
  log.countP fun event =>
    match event with
    | .reloading _ _ => true
    | _ => false

/-- The last change was received at least the debounce time before `now`. -/
def Quiet (debounce : Nat) (log : List Event) (now : Nat) : Prop :=
  ∀ time, lastReceived? log = some time → debounce ≤ now - time

/-- When something may happen, after what has happened so far. -/
def Allowed (debounce : Nat) (log : List Event) : Event → Prop
  | .received _ => True
  | .reloading attempt now =>
    underWay log = [] ∧ Quiet debounce log now ∧ attempt = attemptCount log + 1
  | .started attempt now =>
    underWay log = [] ∧ Quiet debounce log now ∧ ∃ time, log.head? = some (.reloading attempt time)
  | .joined attempt => underWay log = [attempt]
  | .delivered attempt (.built _) =>
    log.head? = some (.joined attempt) ∧ ∃ time, .started attempt time ∈ fresh log
  | .delivered attempt (.failed _) => ∃ time, log.head? = some (.reloading attempt time)

/-- Everything that happened was allowed. -/
def Lawful (debounce : Nat) : List Event → Prop
  | [] => True
  | event :: log => Allowed debounce log event ∧ Lawful debounce log

/-- An attempt began after the last change was received, and its outcome was delivered. -/
def Served (log : List Event) : Prop :=
  ∃ attempt time outcome,
    .reloading attempt time ∈ fresh log ∧ .delivered attempt outcome ∈ fresh log

theorem fresh_cons {event : Event} (h : event.receivedAt? = none) (log : List Event) :
    fresh (event :: log) = event :: fresh log := by
  simp [fresh, h]

/-! ### The invariant -/

namespace Loop

/-- How a loop's flags and its log belong together. -/
structure Sane (debounce : Nat) (l : Loop) : Prop where
  lawful : Lawful debounce l.log
  underWay_eq : underWay l.log = (l.pass.map Pass.attempt).toList
  lastReceived?_eq : lastReceived? l.log = l.lastChange
  attemptCount_eq : attemptCount l.log = l.attempts
  /-- In an attempt no pass is under way, and the last change is long enough ago. -/
  attempting : l.phase = .reloading ∨ l.phase = .starting →
    l.pass = none ∧ l.pending = false ∧ l.isSettled debounce = true
  /-- A pass is started in the attempt that began last. -/
  begun : l.phase = .starting →
    ∃ time, l.log.head? = some (.reloading l.attempts time)
  /-- A pass is superseded exactly if an attempt is due. -/
  superseded : ∀ pass, l.pass = some pass → pass.cancelled = l.pending
  /-- If no attempt is due, the pass under way belongs to one that began after the last
  change, and it does not stop early. -/
  serving : ∀ pass, l.pass = some pass → l.pending = false →
    (∃ time, .reloading pass.attempt time ∈ fresh l.log) ∧
      (∃ time, .started pass.attempt time ∈ fresh l.log) ∧
      ∀ stop, pass.result ≠ some (.error stop)
  /-- If nothing is due or under way, the log is served, unless loading broke the loop off. -/
  served : l.pending = false → l.pass = none →
    l.phase ∉ [.reloading, .starting, .broken] → Served l.log
  disconnected : l.connected = false → l.waiting = 0 ∧ l.attached = false
  stopped : l.phase = .stopped → l.connected = false ∧ l.pass = none ∧ l.pending = false

variable {debounce : Nat} {l : Loop}

theorem Sane.quiet (h : Sane debounce l) (hsettled : l.isSettled debounce = true) :
    Quiet debounce l.log l.clock := by
  intro time htime
  rw [h.lastReceived?_eq] at htime
  simpa [isSettled, htime] using hsettled

theorem sane_begin (engine : Engine) (project : Project) :
    Sane debounce { engine, project } where
  lawful := trivial
  underWay_eq := rfl
  lastReceived?_eq := rfl
  attemptCount_eq := rfl
  attempting := by simp
  begun := by simp
  superseded := by simp
  serving := by simp
  served := by simp
  disconnected := by simp
  stopped := by simp

/-- Outside of attempts it does not matter how far round the loop is. -/
theorem Sane.between (h : Sane debounce l) (hbetween : l.phase ∉ [.reloading, .starting, .broken])
    {phase : Phase} (hphase : phase ∈ [.collecting, .deciding, .listening]) : Sane debounce { l with phase } := by
  have hnot : phase ≠ .reloading ∧ phase ≠ .starting ∧ phase ≠ .stopped := by
    simp only [List.mem_cons, List.not_mem_nil, or_false] at hphase
    rcases hphase with rfl | rfl | rfl <;> simp
  exact { h with
    attempting := fun heq => absurd heq (not_or.mpr ⟨hnot.1, hnot.2.1⟩)
    begun := fun heq => absurd heq hnot.2.1
    served := fun hpending hpass _ => h.served hpending hpass hbetween
    stopped := fun heq => absurd heq hnot.2.2 }

/-! ### What the loop does -/

/-- Taking back a pass that nobody superseded delivers its build. -/
theorem sane_collect (h : Sane debounce l) (hphase : l.phase = .collecting) :
    Sane debounce l.collect := by
  unfold collect
  split
  · rename_i attempt cancelled result hpass
    have hunder : underWay l.log = [attempt] := by
      rw [h.underWay_eq, hpass]
      rfl
    have hjoined : underWay (.joined attempt :: l.log) = [] := by
      rw [underWay, hunder]
      simp
    have hcancelled : cancelled = l.pending := h.superseded _ hpass
    split
    · rename_i build
      obtain ⟨⟨begun, hbegun⟩, ⟨started, hstarted⟩, -⟩ := h.serving _ hpass hcancelled.symm
      exact { h with
        lawful := ⟨⟨rfl, started, List.mem_cons_of_mem _ hstarted⟩, hunder, h.lawful⟩
        underWay_eq := hjoined
        attempting := by rintro (h | h) <;> cases h
        begun := by rintro ⟨⟩
        superseded := by rintro pass ⟨⟩
        serving := by rintro pass ⟨⟩
        served := fun _ _ _ => ⟨attempt, begun, .built build,
          List.mem_cons_of_mem _ (List.mem_cons_of_mem _ hbegun), List.mem_cons_self⟩
        stopped := by rintro ⟨⟩ }
    · rename_i hsuperseded
      exact { h with
        lawful := ⟨hunder, h.lawful⟩
        underWay_eq := hjoined
        attempting := by rintro (h | h) <;> cases h
        begun := by rintro ⟨⟩
        superseded := by rintro pass ⟨⟩
        serving := by rintro pass ⟨⟩
        served := by
          -- A pass that serves the log is not superseded and does not stop early.
          intro hpending _ _
          obtain ⟨-, -, hresult⟩ := h.serving _ hpass hpending
          cases result with
          | error stop => exact absurd rfl (hresult stop)
          | ok build => exact absurd rfl (hsuperseded build (hcancelled.trans hpending))
        stopped := by rintro ⟨⟩ }
  · exact h.between (by simp [hphase]) (by simp)

theorem sane_consider (h : Sane debounce l) (hphase : l.phase = .deciding) :
    Sane debounce (l.consider debounce) := by
  unfold consider
  split
  · rename_i hdue
    simp only [Bool.and_eq_true, Option.isNone_iff_eq_none] at hdue
    obtain ⟨⟨-, hsettled⟩, hnone⟩ := hdue
    exact { h with
      attempting := fun _ => ⟨hnone, rfl, hsettled⟩
      begun := by rintro ⟨⟩
      superseded := fun pass hpass => by cases hnone.symm.trans hpass
      serving := fun pass hpass => by cases hnone.symm.trans hpass
      served := fun _ _ hbetween => absurd List.mem_cons_self hbetween
      stopped := by rintro ⟨⟩ }
  · exact h.between (by simp [hphase]) (by simp)

/-- An attempt begins while no pass is under way; if its configuration cannot be loaded, it
has delivered. -/
theorem sane_loadAnew (h : Sane debounce l) (source : Option Source)
    (hphase : l.phase = .reloading) : Sane debounce (l.loadAnew source) := by
  obtain ⟨hnone, hpending, hsettled⟩ := h.attempting (.inl hphase)
  have hunder : underWay l.log = [] := by
    rw [h.underWay_eq, hnone]
    rfl
  have hcount : attemptCount (.reloading (l.attempts + 1) l.clock :: l.log) = l.attempts + 1 := by
    rw [← h.attemptCount_eq]
    exact List.countP_cons_of_pos rfl
  have hallowed : Allowed debounce l.log (.reloading (l.attempts + 1) l.clock) :=
    ⟨hunder, h.quiet hsettled, by rw [h.attemptCount_eq]⟩
  unfold loadAnew
  split
  · exact { h with
      lawful := ⟨hallowed, h.lawful⟩
      attemptCount_eq := hcount
      attempting := fun _ => ⟨hnone, hpending, hsettled⟩
      begun := fun _ => ⟨_, rfl⟩
      serving := fun pass hpass => by cases hnone.symm.trans hpass
      served := fun _ _ hbetween => absurd (List.mem_cons_of_mem _ List.mem_cons_self) hbetween
      stopped := by rintro ⟨⟩ }
  · exact { h with
      lawful := ⟨hallowed, h.lawful⟩
      attemptCount_eq := hcount
      attempting := by rintro (h | h) <;> cases h
      begun := by rintro ⟨⟩
      serving := fun pass hpass => by cases hnone.symm.trans hpass
      served := fun _ _ hbetween => absurd (by simp) hbetween
      stopped := by rintro ⟨⟩ }
  · exact { h with
      lawful := ⟨⟨_, rfl⟩, hallowed, h.lawful⟩
      attemptCount_eq := hcount
      attempting := by rintro (h | h) <;> cases h
      begun := by rintro ⟨⟩
      serving := fun pass hpass => by cases hnone.symm.trans hpass
      served := fun _ _ _ => ⟨_, _, _, List.mem_cons_of_mem _ List.mem_cons_self,
        List.mem_cons_self⟩
      stopped := by rintro ⟨⟩ }

theorem sane_start (h : Sane debounce l) (hphase : l.phase = .starting) :
    Sane debounce l.start := by
  obtain ⟨hnone, hpending, hsettled⟩ := h.attempting (.inr hphase)
  obtain ⟨time, hhead⟩ := h.begun hphase
  have hunder : underWay l.log = [] := by
    rw [h.underWay_eq, hnone]
    rfl
  have hbegun : .reloading l.attempts time ∈ fresh l.log := by
    obtain ⟨log, hlog⟩ := List.head?_eq_some_iff.mp hhead
    rw [hlog, fresh_cons rfl]
    exact List.mem_cons_self
  exact { h with
    lawful := ⟨⟨hunder, h.quiet hsettled, time, hhead⟩, h.lawful⟩
    underWay_eq := congrArg (l.attempts :: ·) hunder
    attempting := by rintro (h | h) <;> cases h
    begun := by rintro ⟨⟩
    superseded := by
      rintro pass ⟨⟩
      exact hpending.symm
    serving := by
      rintro pass ⟨⟩ -
      exact ⟨⟨time, List.mem_cons_of_mem _ hbegun⟩, ⟨_, List.mem_cons_self⟩, by rintro stop ⟨⟩⟩
    served := by rintro - ⟨⟩
    stopped := by rintro ⟨⟩ }

theorem sane_receive (h : Sane debounce l) (hconnected : l.connected = true) :
    Sane debounce l.receive := by
  have hattempt : (l.pass.map Pass.supersede).map Pass.attempt = l.pass.map Pass.attempt := by
    rw [Option.map_map]
    rfl
  exact { h with
    lawful := ⟨trivial, h.lawful⟩
    underWay_eq := h.underWay_eq.trans (congrArg Option.toList hattempt.symm)
    lastReceived?_eq := rfl
    attempting := by rintro (h | h) <;> cases h
    begun := by rintro ⟨⟩
    superseded := by
      intro pass hpass
      obtain ⟨before, -, rfl⟩ := Option.map_eq_some_iff.mp hpass
      rfl
    serving := by rintro pass - ⟨⟩
    served := by rintro ⟨⟩
    disconnected := fun hfalse => by cases hconnected.symm.trans hfalse
    stopped := by rintro ⟨⟩ }

theorem sane_listen (h : Sane debounce l) (hphase : l.phase = .listening) :
    Sane debounce l.listen := by
  have hround : Sane debounce { l with phase := .collecting } :=
    h.between (by simp [hphase]) (by simp)
  unfold listen
  split
  · rename_i hconnected
    split
    · rename_i hwaiting
      exact { hround with
        disconnected := fun hattached => ⟨hwaiting, hattached⟩
        stopped := by rintro ⟨⟩ }
    · exact sane_receive h hconnected
  · rename_i hdisconnected
    split
    · rename_i hdone
      simp only [Bool.and_eq_true, Option.isNone_iff_eq_none, Bool.not_eq_true'] at hdone
      exact { hround with
        attempting := by rintro (h | h) <;> cases h
        begun := by rintro ⟨⟩
        served := fun hpending hpass _ => hround.served hpending hpass (by simp)
        stopped := fun _ => ⟨Bool.eq_false_iff.mpr hdisconnected, hdone.1, hdone.2⟩ }
    · exact hround

theorem sane_turn (h : Sane debounce l) (source : Option Source) :
    Sane debounce (l.turn source debounce) := by
  unfold turn
  split
  · rename_i hphase
    exact sane_collect h hphase
  · rename_i hphase
    exact sane_consider h hphase
  · rename_i hphase
    exact sane_loadAnew h source hphase
  · rename_i hphase
    exact sane_start h hphase
  · rename_i hphase
    exact sane_listen h hphase
  · exact h
  · exact h

/-! ### What comes between -/

/-- A pass that is not cancelled comes to a build. -/
theorem sane_finish (h : Sane debounce l) (project : Project) (c : Cancellation) :
    Sane debounce (l.finish project c) := by
  unfold finish
  split
  · rename_i attempt cancelled hpass
    exact {
      lawful := h.lawful
      underWay_eq := by rw [h.underWay_eq, hpass]; rfl
      lastReceived?_eq := h.lastReceived?_eq
      attemptCount_eq := h.attemptCount_eq
      attempting := fun hphase => by cases hpass.symm.trans (h.attempting hphase).1
      begun := h.begun
      superseded := by
        rintro pass ⟨⟩
        exact h.superseded ⟨attempt, cancelled, none⟩ hpass
      serving := by
        rintro pass ⟨⟩ hpending
        obtain ⟨hbegun, hstarted, -⟩ := h.serving _ hpass hpending
        refine ⟨hbegun, hstarted, ?_⟩
        obtain rfl : cancelled = false := (h.superseded _ hpass).trans hpending
        obtain ⟨build, hbuild⟩ := l.engine.exists_build_never project
        rintro stop hstop
        cases hbuild.symm.trans (Option.some.inj hstop)
      served := by rintro - ⟨⟩
      disconnected := h.disconnected
      stopped := fun hphase => by cases hpass.symm.trans (h.stopped hphase).2.1 }
  · exact h

theorem isSettled_elapse (h : l.isSettled debounce = true) (time : Nat) :
    isSettled debounce { l with clock := l.clock + time } = true := by
  cases hlast : l.lastChange with
  | none => simp [isSettled]
  | some last =>
      simp only [isSettled, hlast, decide_eq_true_eq] at h ⊢
      omega

theorem sane_announce (h : Sane debounce l) : Sane debounce l.announce := by
  unfold announce
  split
  · rename_i hattached
    exact { h with
      disconnected := fun hconnected => by
        cases hattached.symm.trans (h.disconnected hconnected).2 }
  · exact h

/-- **Every move keeps a loop sane.** -/
theorem sane_step (h : Sane debounce l) (source : Option Source) (move : Move) :
    Sane debounce (l.step source debounce move) := by
  cases move with
  | turn => exact sane_turn h source
  | announce => exact sane_announce h
  | detach =>
      exact { h with disconnected := fun hconnected => ⟨(h.disconnected hconnected).1, rfl⟩ }
  | elapse time =>
      exact { h with
        attempting := fun hphase =>
          (h.attempting hphase).imp_right (And.imp_right fun hsettled =>
            isSettled_elapse hsettled time) }
  | change project => exact { h with }
  | finish project c => exact sane_finish h project c

theorem sane_after (h : Sane debounce l) (source : Option Source) (moves : List Move) :
    Sane debounce (l.after source debounce moves) := by
  induction moves generalizing l with
  | nil => exact h
  | cons move moves ih => exact ih (sane_step h source move)

/--
**A rebuild loop is safe under every schedule.**  Everything in its log was allowed when it
happened; at most one pass is under way; and once the loop has stopped, no change is left
waiting, none can come any more, and an attempt that began after the last one has delivered
its outcome.
-/
theorem safe_after (source : Option Source) (debounce : Nat) (engine : Engine)
    (project : Project) (moves : List Move) :
    let l := after source debounce { engine, project } moves
    Lawful debounce l.log ∧ (underWay l.log).length ≤ 1 ∧
      (l.phase = .stopped → l.waiting = 0 ∧ l.attached = false ∧ Served l.log) := by
  intro l
  have h : Sane debounce l := sane_after (sane_begin engine project) source moves
  refine ⟨h.lawful, ?_, fun hstopped => ?_⟩
  · rw [h.underWay_eq]
    cases l.pass with
    | none => exact Nat.zero_le 1
    | some pass => exact Nat.le_refl 1
  · obtain ⟨hconnected, hpass, hpending⟩ := h.stopped hstopped
    obtain ⟨hwaiting, hattached⟩ := h.disconnected hconnected
    exact ⟨hwaiting, hattached,
      h.served hpending hpass (by rw [hstopped]; simp)⟩

end Loop

end Rebuild

end AtomicCss
