/-
A rebuild is as good as a build from nothing.

One engine lives through a whole loop: configurations come and go, some of them cannot be
loaded, passes are superseded and stop anywhere.  `fromScratch` is what somebody would get
who loads the configuration into a new engine and builds once.  Every outcome that a loop
delivers is that one, for the files as they are when it is delivered.

The argument has nothing to do with loops.  An attempt that fails leaves the engine alone,
and one that does not leaves it sound with the ruleset of what was loaded; a sound engine
builds what a new one with its ruleset builds.  So an attempt keeps soundness and delivers
what it should, and the rest is induction on the attempts.  Where a new engine breaks off, because
the screens cannot be sorted, the loop does too, and nothing is delivered any more.

When changes are noticed depends on timing.  `Runs` leaves that open, and also where a
superseded pass stops: the loop that runs, `run`, is one of the runs it allows.
-/
import AtomicCss.Proofs.Engine.Sound
import AtomicCss.Rebuild.Loop

namespace AtomicCss

/-- The project after some edits. -/
def Project.after (project : Project) (script : List Edit) : Project :=
  script.foldl Project.edited project

namespace Rebuild

/-- What a new engine makes of the files as they are: the error that the configuration
cannot be loaded, or a build; nothing, if the screens of the configuration cannot be sorted. -/
def fromScratch (source : Source) (options : EngineOptions) (project : Project) :
    Option Outcome :=
  match Config.load project source.path source.content with
  | .error error => some (.failed error)
  | .ok config =>
    match Engine.ofConfig options config with
    | .error _ => none
    | .ok engine =>
      match (engine.build project .never).1 with
      | .error _ => none
      | .ok build => some (.built build)

/-- What an attempt may come to: the engine after it, and what it delivers. -/
inductive Attempts (source : Source) (s : State) : Engine → Option Outcome → Prop
  | failed {error : ConfigError}
      (hreload : reload (some source) s.project s.engine = .error (.refused error)) :
      Attempts source s s.engine (some (.failed error))
  | built {engine : Engine} {build : Build}
      (hreload : reload (some source) s.project s.engine = .ok engine)
      (hbuild : (engine.build s.project .never).1 = .ok build) :
      Attempts source s (engine.build s.project .never).2 (some (.built build))
  /-- A waiting change cancels the pass, which then stops somewhere or not at all. -/
  | superseded {engine : Engine} (c : Cancellation)
      (hreload : reload (some source) s.project s.engine = .ok engine)
      (hwaiting : s.waiting ≠ 0) :
      Attempts source s (engine.build s.project c).2 none

/-- The outcomes that a loop may deliver, each with its project.  Before each further
attempt some of the waiting changes, at least one of them, are noticed. -/
inductive Runs (source : Source) : State → List (Outcome × Project) → Prop
  | broken {s : State}
      (hreload : reload (some source) s.project s.engine = .error .unordered) :
      Runs source s []
  | last {s : State} {engine : Engine} {outcome : Option Outcome}
      (hattempt : Attempts source s engine outcome)
      (hwaiting : (State.deliver { s with engine } outcome).waiting = 0) :
      Runs source s (outcome.toList.map (·, s.project))
  | more {s : State} {engine : Engine} {outcome : Option Outcome} {waiting : Nat}
      {rest : List (Outcome × Project)}
      (hattempt : Attempts source s engine outcome)
      (hwaiting : waiting < (State.deliver { s with engine } outcome).waiting)
      (hrest : Runs source { State.deliver { s with engine } outcome with waiting } rest) :
      Runs source s (outcome.toList.map (·, s.project) ++ rest)

variable {options : EngineOptions} {source : Source}

/-! ### One attempt -/

theorem reload_of_load {project : Project} {config : Config} {e : Engine}
    (h : Config.load project source.path source.content = .ok config) :
    reload (some source) project e = (e.reconfigure config).map (·.2) := by
  rw [reload, h]
  show (e.reconfigure config >>= fun result => pure result.2) = _
  cases e.reconfigure config <;> rfl

/-- Reloading fails as loading does, or as working out the ruleset does.  Otherwise it leaves a
sound engine with the ruleset of what was loaded. -/
theorem reload_spec {e : Engine} (h : e.Sound options) (source : Source) (project : Project) :
    (∀ error, Config.load project source.path source.content = .error error →
        reload (some source) project e = .error (.refused error)) ∧
      ∀ config, Config.load project source.path source.content = .ok config →
        (∀ error, Ruleset.ofConfig config = .error error →
          reload (some source) project e = .error error) ∧
        ∀ r, Ruleset.ofConfig config = .ok r →
          ∃ next, reload (some source) project e = .ok next ∧ next.Sound options ∧
            next.ruleset = r := by
  refine ⟨fun error herror => ?_, fun config hconfig => ?_⟩
  · simp only [reload, herror]
    rfl
  obtain ⟨hfails, hchanges⟩ := Engine.reconfigure_spec h config
  rw [reload_of_load hconfig]
  constructor
  · intro error herror
    rw [hfails error herror]
    rfl
  · intro r hr
    obtain ⟨next, hnext, hsound, hruleset⟩ := hchanges r hr
    rw [hnext]
    exact ⟨next, rfl, hsound, hruleset⟩

/-- Where the screens cannot be sorted, a new engine makes nothing of the files. -/
theorem fromScratch_of_unordered {e : Engine} (h : e.Sound options) {project : Project}
    (hreload : reload (some source) project e = .error .unordered) :
    fromScratch source options project = none := by
  obtain ⟨hrefuses, hloads⟩ := reload_spec h source project
  cases hload : Config.load project source.path source.content with
  | error error => cases (hrefuses error hload).symm.trans hreload
  | ok config =>
      obtain ⟨hfails, hchanges⟩ := hloads config hload
      cases hr : Ruleset.ofConfig config with
      | error error =>
          have hnew : Engine.ofConfig options config = .error error := bind_pure_eq_error.mpr hr
          simp only [fromScratch, hload, hnew]
      | ok r =>
          obtain ⟨next, hnext, -⟩ := hchanges r hr
          cases hnext.symm.trans hreload

theorem fromScratch_eq_built {project : Project} {config : Config} {e : Engine} {build : Build}
    (hload : Config.load project source.path source.content = .ok config)
    (hsound : e.Sound options) (hruleset : Ruleset.ofConfig config = .ok e.ruleset)
    (hbuild : (e.build project .never).1 = .ok build) :
    fromScratch source options project = some (.built build) := by
  have hnew : Engine.ofConfig options config =
      .ok { options, ruleset := e.ruleset, memo := { enabled := options.cache } } :=
    bind_eq_ok.mpr ⟨e.ruleset, hruleset, rfl⟩
  have hsame := Engine.build_congr (Engine.sound_ofConfig hnew).1 hsound rfl project .never
  simp only [fromScratch, hload, hnew, hsame, hbuild]

/-- **An attempt keeps the engine sound and delivers what a new engine gives.** -/
theorem Attempts.spec {s : State} {engine : Engine} {outcome : Option Outcome}
    (h : Attempts source s engine outcome) (hsound : s.engine.Sound options) :
    engine.Sound options ∧
      ∀ o, outcome = some o → fromScratch source options s.project = some o := by
  obtain ⟨hrefuses, hloads⟩ := reload_spec hsound source s.project
  cases hload : Config.load s.project source.path source.content with
  | error error =>
      cases h with
      | failed hreload =>
          refine ⟨hsound, fun o ho => ?_⟩
          obtain rfl := SetupError.refused.inj
            (Except.error.inj ((hrefuses error hload).symm.trans hreload))
          rw [← Option.some.inj ho]
          simp only [fromScratch, hload]
      | built hreload | superseded _ hreload => cases (hrefuses error hload).symm.trans hreload
  | ok config =>
      obtain ⟨hfails, hchanges⟩ := hloads config hload
      cases hr : Ruleset.ofConfig config with
      | error error =>
          have hreload := hfails error hr
          cases h with
          | failed hfailed =>
              -- What is loaded has passed its checks.
              obtain rfl := Except.error.inj (hreload.symm.trans hfailed)
              cases (Config.validate_of_load hload).symm.trans (Ruleset.ofConfig_eq_refused.mp hr)
          | built hnext | superseded _ hnext => cases hreload.symm.trans hnext
      | ok r =>
          obtain ⟨next, hnext, hnextSound, rfl⟩ := hchanges r hr
          have hruleset : Ruleset.ofConfig config = .ok next.ruleset := hr
          cases h with
          | failed hreload => cases hnext.symm.trans hreload
          | built hreload hbuild =>
              obtain rfl := Except.ok.inj (hnext.symm.trans hreload)
              refine ⟨(Engine.build_spec hnextSound s.project .never).2.sound, fun o ho => ?_⟩
              rw [← Option.some.inj ho]
              exact fromScratch_eq_built hload hnextSound hruleset hbuild
          | superseded c hreload =>
              obtain rfl := Except.ok.inj (hnext.symm.trans hreload)
              exact ⟨(Engine.build_spec hnextSound s.project c).2.sound, fun o ho => by cases ho⟩

/-! ### A whole run -/

/-- What is to be shown of a list of outcomes: none of the edits is left out, unless a new engine
breaks off on the way, and each outcome is the one of a new engine for the files after the edits
so far. -/
def Faithful (source : Source) (options : EngineOptions) (project : Project)
    (script : List Edit) (outcomes : List (Outcome × Project)) : Prop :=
  (script.length < outcomes.length ∨
      fromScratch source options (project.after (script.take outcomes.length)) = none) ∧
    ∀ i o p, outcomes[i]? = some (o, p) →
      p = project.after (script.take i) ∧ fromScratch source options p = some o

/-- Outcomes that follow another one, which came before the first edit. -/
theorem Faithful.cons {project : Project} {script : List Edit} {o : Outcome}
    {rest : List (Outcome × Project)} (hfirst : fromScratch source options project = some o)
    (hrest : Faithful source options (project.after (script.take 1)) script.tail rest) :
    Faithful source options project script ((o, project) :: rest) := by
  have hafter : ∀ n, (project.after (script.take 1)).after (script.tail.take n) =
      project.after (script.take (n + 1)) := by
    intro n
    cases script with
    | nil => rw [List.tail_nil, List.take_nil, List.take_nil, List.take_nil]; rfl
    | cons edit script => rfl
  obtain ⟨hlength, hrest⟩ := hrest
  constructor
  · rw [List.length_cons]
    rcases hlength with hlength | hbroken
    · rw [List.length_tail] at hlength
      exact .inl (by omega)
    · rw [hafter] at hbroken
      exact .inr hbroken
  · intro i o' p hi
    cases i with
    | zero =>
        obtain ⟨rfl, rfl⟩ := Prod.mk.inj (Option.some.inj hi)
        exact ⟨rfl, hfirst⟩
    | succ i =>
        obtain ⟨hp, ho⟩ := hrest i o' p hi
        exact ⟨hp.trans (hafter i), ho⟩

@[simp] theorem deliver_engine (s : State) (outcome : Option Outcome) :
    (s.deliver outcome).engine = s.engine := by
  unfold State.deliver
  split <;> rfl

theorem deliver_some (s : State) (o : Outcome) :
    (s.deliver (some o)).project = s.project.after (s.script.take 1) ∧
      (s.deliver (some o)).script = s.script.tail ∧
      (s.script ≠ [] → (s.deliver (some o)).waiting ≠ 0) := by
  obtain ⟨engine, project, _ | ⟨edit, script⟩, waiting⟩ := s
  · exact ⟨rfl, rfl, fun h => absurd rfl h⟩
  · exact ⟨rfl, rfl, fun _ => Nat.succ_ne_zero _⟩

theorem Runs.faithful {s : State} {outcomes : List (Outcome × Project)}
    (h : Runs source s outcomes) (hsound : s.engine.Sound options) :
    Faithful source options s.project s.script outcomes := by
  induction h with
  | broken hreload =>
      exact ⟨.inr (fromScratch_of_unordered hsound hreload), fun i o p hi => nomatch hi⟩
  | @last s engine outcome hattempt hwaiting =>
      obtain ⟨hengine, hdelivered⟩ := hattempt.spec hsound
      cases outcome with
      | none =>
          -- Only a waiting change supersedes a pass, and then the loop goes on.
          cases hattempt with
          | superseded _ _ hne => exact absurd hwaiting hne
      | some o =>
          obtain ⟨-, -, hmore⟩ := deliver_some { s with engine } o
          have hscript : s.script = [] := by
            by_contra hne
            exact hmore hne hwaiting
          rw [hscript]
          refine ⟨.inl Nat.zero_lt_one, ?_⟩
          rintro (_ | i) o' p hi
          · obtain ⟨rfl, rfl⟩ := Prod.mk.inj (Option.some.inj hi)
            exact ⟨rfl, hdelivered o rfl⟩
          · cases hi
  | @more s engine outcome waiting rest hattempt hwaiting hrest ih =>
      obtain ⟨hengine, hdelivered⟩ := hattempt.spec hsound
      cases outcome with
      | none => exact ih hengine
      | some o =>
          obtain ⟨hproject, hscript, -⟩ := deliver_some { s with engine } o
          have hrest := ih (by rw [deliver_engine]; exact hengine)
          rw [hproject, hscript] at hrest
          exact hrest.cons (hdelivered o rfl)

/-! ### The loop that runs -/

/-- The attempt that is made, according to how the configuration is loaded. -/
theorem attempt_eq (source : Option Source) (s : State) :
    attempt source s =
      match reload source s.project s.engine with
      | .error .unordered => none
      | .error (.refused e) => some (s.engine, some (.failed e))
      | .ok engine =>
        some ((engine.build s.project .never).2,
          if s.waiting = 0 then (engine.build s.project .never).1.toOption.map .built
          else none) := by
  rw [attempt]
  cases reload source s.project s.engine with
  | error error => cases error <;> rfl
  | ok engine =>
      obtain ⟨build, hbuild⟩ := engine.exists_build_never s.project
      dsimp only
      generalize engine.build s.project .never = result at hbuild ⊢
      obtain ⟨result, next⟩ := result
      obtain rfl : result = .ok build := hbuild
      rfl

/-- An attempt that does not break the loop off fails or builds; what it builds is delivered if no
change waits. -/
theorem attempt_eq_some {source : Option Source} {s : State} {engine : Engine}
    {outcome : Option Outcome} (h : attempt source s = some (engine, outcome)) :
    (∃ error, reload source s.project s.engine = .error (.refused error) ∧
        engine = s.engine ∧ outcome = some (.failed error)) ∨
      ∃ loaded build, reload source s.project s.engine = .ok loaded ∧
        (loaded.build s.project .never).1 = .ok build ∧
        engine = (loaded.build s.project .never).2 ∧
        outcome = if s.waiting = 0 then some (.built build) else none := by
  rw [attempt_eq] at h
  split at h
  · cases h
  · rename_i error hreload
    obtain ⟨rfl, rfl⟩ := Prod.mk.inj (Option.some.inj h)
    exact .inl ⟨error, hreload, rfl, rfl⟩
  · rename_i loaded hreload
    obtain ⟨rfl, rfl⟩ := Prod.mk.inj (Option.some.inj h)
    obtain ⟨build, hbuild⟩ := loaded.exists_build_never s.project
    exact .inr ⟨loaded, build, hreload, hbuild, rfl, by rw [hbuild]; rfl⟩

theorem reload_of_attempt_eq_none {source : Option Source} {s : State}
    (h : attempt source s = none) : reload source s.project s.engine = .error .unordered := by
  rw [attempt_eq] at h
  split at h
  · assumption
  · cases h
  · cases h

theorem attempts_attempt {s : State} {engine : Engine} {outcome : Option Outcome}
    (h : attempt (some source) s = some (engine, outcome)) : Attempts source s engine outcome := by
  rcases attempt_eq_some h with
    ⟨error, hreload, rfl, rfl⟩ | ⟨loaded, build, hreload, hbuild, rfl, rfl⟩
  · exact .failed hreload
  · by_cases hwaiting : s.waiting = 0
    · rw [if_pos hwaiting]
      exact .built hreload hbuild
    · rw [if_neg hwaiting]
      exact .superseded .never hreload hwaiting

section

variable {source : Option Source} {debounce : Nat} {s : State} {engine : Engine}
  {outcome : Option Outcome}

theorem run_broken (h : attempt source s = none) : run source debounce s = [] := by
  rw [run, h]

theorem run_last (h : attempt source s = some (engine, outcome))
    (hlast : (State.deliver { s with engine } outcome).waiting = 0) :
    run source debounce s = outcome.toList.map (·, s.project) := by
  rw [run, h]
  exact dif_pos hlast

theorem run_more (h : attempt source s = some (engine, outcome))
    (hmore : (State.deliver { s with engine } outcome).waiting ≠ 0) :
    run source debounce s = outcome.toList.map (·, s.project) ++
      run source debounce { State.deliver { s with engine } outcome with
        waiting := unnoticed debounce (State.deliver { s with engine } outcome).waiting } := by
  rw [run, h]
  exact dif_neg hmore

end

theorem runs_run (source : Source) (debounce : Nat) (s : State)
    (hsound : s.engine.Sound options) : Runs source s (run (some source) debounce s) := by
  induction s using run.induct (some source) debounce with
  | case1 s hnone =>
      rw [run_broken hnone]
      exact .broken (reload_of_attempt_eq_none hnone)
  | case2 s engine outcome hattempt next hlast =>
      rw [run_last hattempt hlast]
      exact .last (attempts_attempt hattempt) hlast
  | case3 s engine outcome hattempt next hmore hlt ih =>
      rw [run_more hattempt hmore]
      have hspec := attempts_attempt hattempt
      have hnext : next.engine.Sound options := by
        rw [deliver_engine]
        exact (hspec.spec hsound).1
      exact .more hspec hlt (ih hnext)

/--
**Every outcome is the one of a new engine.**  This holds of every run that a loop may
take, of the loop that runs among them, whatever its engine was used for before; and a run ends
before its time only where a new engine breaks off.
-/
theorem outcomes_fromScratch {engine : Engine} (h : engine.Reached options) (source : Source)
    (debounce : Nat) (project : Project) (script : List Edit) (waiting : Nat) :
    let s : State := ⟨engine, project, script, waiting⟩
    Runs source s (run (some source) debounce s) ∧
      ∀ outcomes, Runs source s outcomes → Faithful source options project script outcomes :=
  ⟨runs_run source debounce _ h.sound, fun _ hruns => hruns.faithful h.sound⟩

/-- A configuration file comes late, becomes unreadable and is removed, while two changes
wait from the start. -/
theorem outcomes_fromScratch_edited :
    let source : Source := ⟨"c", ["a"]⟩
    let script : List Edit :=
      [{ put := [("c", .file "darkMode = false".toUTF8), ("a", .file "z-10".toUTF8)] },
        { put := [("c", .file "content = ".toUTF8)] }, { remove := ["c"] }]
    Engine.Reached {} (.plain ["b"]) ∧
      Faithful source {} .empty script
        (run (some source) 0 ⟨.plain ["b"], .empty, script, 2⟩) := by
  intro source script
  have h : Engine.Reached {} (.plain ["b"]) := .start (Engine.ofConfig_plain (by decide))
  obtain ⟨hrun, hall⟩ := outcomes_fromScratch h source 0 .empty script 2
  exact ⟨h, hall _ hrun⟩

end Rebuild

end AtomicCss
