/-
A rebuild loop among its surroundings.

A loop goes round: it takes back its pass when that has finished, decides whether to make an
attempt, makes it, and listens for a change.  While it does, files change and changes are
announced, time goes by and the pass works on its own; all of that comes between any two things
the loop does, in any order.  A `Move` is one such step, of the loop or of its surroundings,
and a list of moves is one schedule of a whole run.

The loop keeps a log of what it does that others can notice.
-/
import AtomicCss.Rebuild.Loop

namespace AtomicCss.Rebuild

/-- What a loop does next. -/
inductive Phase
  | collecting
  | deciding
  | reloading
  | starting
  | listening
  | stopped
  /-- Loading the configuration broke the loop off. -/
  | broken
  deriving DecidableEq

/-- A pass that was started and has not been taken back. -/
structure Pass where
  /-- The attempt that the pass belongs to. -/
  attempt : Nat
  /-- Whether a change has superseded it. -/
  cancelled : Bool := false
  /-- What it came to, if it has finished. -/
  result : Option (Except Cancelled Build) := none

/-- The pass once a change has come. -/
def Pass.supersede (pass : Pass) : Pass :=
  { pass with cancelled := true }

/-- What a loop does that can be noticed.  Attempts are numbered from one. -/
inductive Event
  /-- A change was received. -/
  | received (time : Nat)
  /-- An attempt began: the configuration is loaded anew. -/
  | reloading (attempt time : Nat)
  | started (attempt time : Nat)
  /-- A finished pass was taken back. -/
  | joined (attempt : Nat)
  | delivered (attempt : Nat) (outcome : Outcome)

/-- A loop and its surroundings. -/
structure Loop where
  engine : Engine
  project : Project
  phase : Phase := .collecting
  /-- Whether an attempt is due. -/
  pending : Bool := true
  pass : Option Pass := none
  /-- When the last change was received. -/
  lastChange : Option Nat := none
  /-- Whether the loop still expects changes. -/
  connected : Bool := true
  /-- How many changes were announced and not received yet. -/
  waiting : Nat := 0
  /-- Whether changes can still be announced. -/
  attached : Bool := true
  clock : Nat := 0
  /-- How many attempts were made. -/
  attempts : Nat := 0
  /-- What the loop did, the last first. -/
  log : List Event := []

namespace Loop

def write (l : Loop) (event : Event) : Loop :=
  { l with log := event :: l.log }

/-! ### The loop -/

/-- Takes back the pass if it has finished, and delivers its build unless a change has
superseded it. -/
def collect (l : Loop) : Loop :=
  match l.pass with
  | some ⟨attempt, cancelled, some result⟩ =>
    let joined := { l with pass := none, phase := .deciding }.write (.joined attempt)
    match cancelled, result with
    | false, .ok build => joined.write (.delivered attempt (.built build))
    | _, _ => joined
  | _ => { l with phase := .deciding }

/-- Whether the last change is long enough ago. -/
def isSettled (debounce : Nat) (l : Loop) : Bool :=
  match l.lastChange with
  | none => true
  | some time => debounce ≤ l.clock - time

/-- Decides whether to make an attempt. -/
def consider (debounce : Nat) (l : Loop) : Loop :=
  if l.pending && l.isSettled debounce && l.pass.isNone then
    { l with pending := false, phase := .reloading }
  else { l with phase := .listening }

/-- Loads the configuration anew; a refusal is an outcome. -/
def loadAnew (source : Option Source) (l : Loop) : Loop :=
  let attempt := l.attempts + 1
  let begun := { l with attempts := attempt }.write (.reloading attempt l.clock)
  match reload source l.project l.engine with
  | .ok engine => { begun with engine, phase := .starting }
  | .error .unordered => { begun with phase := .broken }
  | .error (.refused error) =>
    { begun with phase := .listening }.write (.delivered attempt (.failed error))

/-- Starts a pass. -/
def start (l : Loop) : Loop :=
  { l with pass := some { attempt := l.attempts }, phase := .listening }.write
    (.started l.attempts l.clock)

/-- Receives a change.  It supersedes the pass under way. -/
def receive (l : Loop) : Loop :=
  { l with
    waiting := l.waiting - 1
    pending := true
    lastChange := some l.clock
    pass := l.pass.map Pass.supersede
    phase := .collecting }.write (.received l.clock)

/-- Receives a change if one is waiting.  Once no more can come, the loop stops as soon as
nothing is left to do. -/
def listen (l : Loop) : Loop :=
  if l.connected then
    if l.waiting = 0 then { l with connected := l.attached, phase := .collecting }
    else l.receive
  else if l.pass.isNone && !l.pending then { l with phase := .stopped }
  else { l with phase := .collecting }

/-- What the loop does next. -/
def turn (source : Option Source) (debounce : Nat) (l : Loop) : Loop :=
  match l.phase with
  | .collecting => l.collect
  | .deciding => l.consider debounce
  | .reloading => l.loadAnew source
  | .starting => l.start
  | .listening => l.listen
  | .stopped | .broken => l

/-! ### The surroundings -/

/-- A change is announced, as long as that is possible. -/
def announce (l : Loop) : Loop :=
  if l.attached then { l with waiting := l.waiting + 1 } else l

/-- The pass finishes, having seen the files as they are in `project`.  Where it stops if it
was cancelled is open. -/
def finish (project : Project) (c : Cancellation) (l : Loop) : Loop :=
  match l.pass with
  | some ⟨attempt, cancelled, none⟩ =>
    let (result, engine) := l.engine.build project (if cancelled then c else .never)
    { l with engine, pass := some ⟨attempt, cancelled, some result⟩ }
  | _ => l

/-- One step of the loop or of its surroundings. -/
inductive Move
  | turn
  | announce
  /-- No more changes can be announced. -/
  | detach
  | elapse (time : Nat)
  /-- The files have changed to those of `project`. -/
  | change (project : Project)
  | finish (project : Project) (c : Cancellation)

/-- The loop after a step. -/
def step (source : Option Source) (debounce : Nat) (l : Loop) : Move → Loop
  | .turn => l.turn source debounce
  | .announce => l.announce
  | .detach => { l with attached := false }
  | .elapse time => { l with clock := l.clock + time }
  | .change project => { l with project }
  | .finish project c => l.finish project c

/-- The loop after a schedule. -/
def after (source : Option Source) (debounce : Nat) (l : Loop) (moves : List Move) : Loop :=
  moves.foldl (step source debounce) l

/-- The outcomes that were delivered, in order. -/
def outcomes (l : Loop) : List Outcome :=
  l.log.reverse.filterMap fun event =>
    match event with
    | .delivered _ outcome => some outcome
    | _ => none

end Loop

end AtomicCss.Rebuild
