/-
A cancelled pass comes to all or to nothing.

A pass has a fixed number of checks, whatever the engine remembers.  If its cancellation lasts
for all of them, the pass comes to what it comes to when nobody cancels it; if not, to nothing.
Which checks it got past shows only in the look-ups it has made by then.  These are harmless one
by one: each leaves the configuration and its meaning alone, forgets nothing, and remembers what
the ruleset gives, so that every later pass comes to the same as without them.  The last holds of
any look-ups in any order, and so of passes whose literals are looked up out of order, too.
-/
import AtomicCss.Proofs.Engine.Learns

namespace AtomicCss

namespace Cancellation

theorem already_pass_succ (n : Nat) : already.pass (n + 1) = .error .cancelled := by
  simp [already, pass]

end Cancellation

namespace Engine

variable (e : Engine)

theorem scan_already (project : Project) : e.scan project .already = .error .cancelled := by
  rw [scan_eq, Scan.checks, Cancellation.already_pass_succ]
  rfl

theorem build_already (project : Project) :
    e.build project .already = (.error .cancelled, e) := by
  rw [build, scan_already]

theorem generate_already (literals : List String) :
    e.generate literals .already = (.error .cancelled, e) := by
  cases literals with
  | nil => rfl
  | cons literal literals =>
      rw [generate, resolveAll, Cancellation.already_pass_succ 0]
      rfl

/--
**A pass is all or nothing, and one that is stopped changes no other.**  Scanning, resolving and
building come to what they come to uncancelled if the cancellation lasts for all of their checks,
and to nothing else.  However far they got, the engine has only learned what its ruleset gives,
as from any look-ups, and every later build is the same as without them.  One that is cancelled
beforehand leaves the engine exactly as it was.
-/
theorem pass_allOrNothing (e : Engine) (project : Project) (literals : List String) :
    (∃ scan sheet build,
      (e.scan project .never).map (·.1) = .ok scan ∧
      (e.generate literals .never).1 = .ok sheet ∧
      (e.build project .never).1 = .ok build ∧
      ∀ c : Cancellation,
        (e.scan project c).map (·.1) =
          (c.pass (Scan.checks (e.selection project))).map (fun _ => scan) ∧
        (e.generate literals c).1 = (c.pass (literals.length + 1)).map (fun _ => sheet) ∧
        (e.build project c).1 = (c.pass (e.buildChecks project)).map (fun _ => build)) ∧
    (∀ c, Learns e (e.generate literals c).2 ∧ Learns e (e.build project c).2) ∧
    (∀ c later c',
      ((e.generate literals c).2.build later c').1 = (e.build later c').1 ∧
      ((e.build project c).2.build later c').1 = (e.build later c').1) ∧
    (∀ looked, Learns e (e.lookedUp looked) ∧
      ∀ later c, ((e.lookedUp looked).build later c).1 = (e.build later c).1) ∧
    e.scan project .already = .error .cancelled ∧
    e.generate literals .already = (.error .cancelled, e) ∧
    e.build project .already = (.error .cancelled, e) := by
  refine ⟨?_, fun c => ⟨learns_generate e literals c, learns_build e project c⟩,
    fun c later c' => ⟨(learns_generate e literals c).build_fst_eq later c',
      (learns_build e project c).build_fst_eq later c'⟩,
    fun looked => ⟨learns_lookedUp e looked, (learns_lookedUp e looked).build_fst_eq⟩,
    scan_already e project, generate_already e literals, build_already e project⟩
  refine ⟨Scan.of (e.selection project), e.sheetOf (literals.filterMap e.answer),
    e.finished project, ?_, generate_fst e literals .never, build_fst e project .never,
    fun c => ⟨?_, generate_fst e literals c, build_fst e project c⟩⟩
  · rw [scan_eq]
    rfl
  · rw [scan_eq]
    cases c.pass (Scan.checks (e.selection project)) <;> rfl

end Engine

end AtomicCss
