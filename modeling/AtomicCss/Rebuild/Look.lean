/-
Watching by looking.

A loop that nobody tells of changes can look for them itself.  It makes its first attempt at
once.  Then each look takes the files as they are, announces a change if one lies in a watched
directory and is not left out, and lets the loop do what is due.  All of that is one schedule of
the loop, in which every pass finishes before the next look.
-/
import AtomicCss.Project.Edit
import AtomicCss.Rebuild.Schedule
import AtomicCss.Source.Selection

namespace AtomicCss.Rebuild

/-- How a project is watched.  Times are in milliseconds. -/
structure Watch where
  source : Option Source
  /-- The directories in which changes matter. -/
  roots : List Location
  /-- The patterns of files whose changes do not matter. -/
  ignored : List String
  debounce : Nat := 200
  /-- How long to wait for a change. -/
  interval : Nat

namespace Watch

/-- Whether something matters among what has changed in a project. -/
def notices (w : Watch) (before after : Project) : Bool :=
  let seen := (Project.changed before after).filter fun loc => w.roots.any (·.isPrefixOf loc)
  !seen.isEmpty && !Source.ignoresEvent w.ignored "" (seen.map fun loc => "/".intercalate loc)

/-- The loop after its next turns: as many as given, or fewer if it listens before. -/
def turns (w : Watch) : Nat → Loop → Loop
  | 0, l => l
  | n + 1, l =>
    let next := l.turn w.source w.debounce
    if next.phase = .listening then next else w.turns n next

/-- The loop when it has gone round.  One attempt is made at most, so five turns are enough. -/
def round (w : Watch) (l : Loop) : Loop :=
  w.turns 5 l

/-- The loop when it has done what is due: it goes round, its pass finishes, and it goes round
once more to take it back. -/
def serve (w : Watch) (l : Loop) : Loop :=
  w.round ((w.round l).finish l.project .never)

/-- The loop after a look at the files, which are those of `project` now. -/
def look (w : Watch) (now : Nat) (project : Project) (l : Loop) : Loop :=
  let seen := l.after w.source w.debounce [.elapse (now - l.clock), .change project]
  w.serve (if w.notices l.project project then seen.announce else seen)

/-- How long to wait before the next look. -/
def pause (w : Watch) (l : Loop) : Nat :=
  if l.pending then w.debounce else w.interval

end Watch

end AtomicCss.Rebuild
