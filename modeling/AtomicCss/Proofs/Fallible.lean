/-
Loops that may fail.

Checks and layers are loops in `Except`, stopped by the first error.  Two questions come
up about them: what holds of the result, which is what every step that succeeds preserves, and
which error stops a loop of checks.  A check that reports the first of its faults can be put in
front of another one, and the two report the first of all faults together; so what nested loops of
checks report is the first fault of one list, in the order of the loops.
-/
import Mathlib.Data.List.Basic

namespace AtomicCss

variable {ε α β : Type}

theorem bind_eq_ok {x : Except ε α} {f : α → Except ε β} {b : β} :
    (x >>= f) = .ok b ↔ ∃ a, x = .ok a ∧ f a = .ok b := by
  cases x <;> simp [bind, Except.bind]

theorem bind_eq_error {x : Except ε α} {f : α → Except ε β} {e : ε} :
    (x >>= f) = .error e ↔ x = .error e ∨ ∃ a, x = .ok a ∧ f a = .error e := by
  cases x <;> simp [bind, Except.bind]

/-- A chain whose last step always succeeds has the errors of what comes before. -/
theorem bind_pure_eq_error {x : Except ε α} {f : α → β} {e : ε} :
    (x >>= fun a => pure (f a)) = .error e ↔ x = .error e := by
  cases x <;> simp [bind, Except.bind, pure, Except.pure]

theorem pure_eq_ok {a b : α} : (pure a : Except ε α) = .ok b ↔ a = b := by
  simp [pure, Except.pure]

theorem map_eq_ok {x : Except ε α} {f : α → β} {b : β} :
    x.map f = .ok b ↔ ∃ a, x = .ok a ∧ f a = b := by
  cases x <;> simp [Except.map]

theorem toOption_eq_some_iff {x : Except ε α} {a : α} : x.toOption = some a ↔ x = .ok a := by
  cases x <;> simp [Except.toOption]

theorem foldlM_keeps {P : β → Prop} {f : β → α → Except ε β} :
    ∀ {xs : List α} {b last : β}, xs.foldlM f b = .ok last → P b →
      (∀ b x b', x ∈ xs → P b → f b x = .ok b' → P b') → P last := by
  intro xs
  induction xs with
  | nil => intro b last h hb _; exact pure_eq_ok.mp h ▸ hb
  | cons x xs ih =>
      intro b last h hb hstep
      rw [List.foldlM_cons, bind_eq_ok] at h
      obtain ⟨next, hnext, hlast⟩ := h
      refine ih hlast (hstep b x next (by simp) hb hnext) ?_
      exact fun b y b' hy => hstep b y b' (by simp [hy])

theorem exists_of_mapM_eq_error {f : α → Except ε β} {e : ε} :
    ∀ {xs : List α}, xs.mapM f = .error e → ∃ x ∈ xs, f x = .error e := by
  intro xs
  induction xs with
  | nil => nofun
  | cons x xs ih =>
      intro h
      rw [List.mapM_cons] at h
      rcases bind_eq_error.mp h with hx | ⟨y, -, hxs⟩
      · exact ⟨x, by simp, hx⟩
      · obtain ⟨z, hz, hfz⟩ := ih (bind_pure_eq_error.mp hxs)
        exact ⟨z, by simp [hz], hfz⟩

/-! ### The first fault -/

/-- Refuses with the first of some faults, and passes if there are none. -/
def firstFault : List ε → Except ε Unit
  | [] => .ok ()
  | fault :: _ => .error fault

theorem firstFault_eq_ok {faults : List ε} : firstFault faults = .ok () ↔ faults = [] := by
  cases faults <;> simp [firstFault]

theorem firstFault_eq_error {faults : List ε} {e : ε} :
    firstFault faults = .error e ↔ faults.head? = some e := by
  cases faults <;> simp [firstFault]

theorem firstFault_append (faults more : List ε) :
    firstFault (faults ++ more) = firstFault faults >>= fun _ => firstFault more := by
  cases faults <;> rfl

/-- Checks one after the other stop at the first of all their faults. -/
theorem forM_firstFault (faultsOf : α → List ε) (xs : List α) :
    (xs.forM fun x => firstFault (faultsOf x)) = firstFault (xs.flatMap faultsOf) := by
  induction xs with
  | nil => rfl
  | cons x xs ih =>
      rw [List.flatMap_cons, firstFault_append, ← ih]
      rfl

/-- A loop that checks each element before it takes it in might check all of them first. -/
theorem foldlM_check (check : α → Except ε Unit) (update : β → α → β) (xs : List α) (b : β) :
    (xs.foldlM (fun b x => check x >>= fun _ => pure (update b x)) b) =
      (xs.forM check >>= fun _ => pure (xs.foldl update b)) := by
  induction xs generalizing b with
  | nil => rfl
  | cons x xs ih =>
      have hforM : (x :: xs).forM check = check x >>= fun _ => xs.forM check := rfl
      rw [List.foldlM_cons, hforM, List.foldl_cons]
      cases check x with
      | error e => rfl
      | ok _ => exact ih (update b x)

end AtomicCss
