/-
The class within a selector.

A rule's selector is made of three parts: ancestors, each closed by a space, the class behind a
dot, and pseudo-classes, each opened by a colon.  No length says where a part ends; what tells
them apart are the dots and colons that no backslash escapes.  In an escaped class there are none,
in pseudo-classes there is no dot at all, and ancestors have no backslash.  So the last bare dot is
the one that stands before the class, and the first bare colon behind it is where the class ends.

Whether a backslash escapes what follows depends on whether it is itself escaped, so a text is
marked from its left end, with a flag that says whether a backslash is waiting for its character.
An escaped text leaves none waiting, and can be marked apart from what surrounds it.
-/
import AtomicCss.Proofs.Selector.Identifier

namespace AtomicCss

namespace Selector

/-! ### Marking what is escaped -/

/-- The characters of a text, each with whether a backslash escapes it.  `escaped` says whether one
waits for the first character. -/
def marked (escaped : Bool) : List Char → List (Char × Bool)
  | [] => []
  | c :: cs => (c, escaped) :: marked (!escaped && c == '\\') cs

/-- Whether a backslash still waits at the end of a text. -/
def leavesWaiting (escaped : Bool) : List Char → Bool
  | [] => escaped
  | c :: cs => leavesWaiting (!escaped && c == '\\') cs

/-- The part of a selector behind the last dot that is not escaped, up to the first colon behind
that dot that is not escaped. -/
def className (cs : List Char) : List Char :=
  let behind := ((marked false cs).reverse.takeWhile (· != ('.', false))).reverse
  (behind.takeWhile (· != (':', false))).map (·.1)

theorem map_fst_marked (escaped : Bool) (cs : List Char) : (marked escaped cs).map (·.1) = cs := by
  induction cs generalizing escaped with
  | nil => rfl
  | cons c cs ih => rw [marked, List.map_cons, ih]

theorem mem_of_mem_marked {escaped b : Bool} {c : Char} {cs : List Char}
    (h : (c, b) ∈ marked escaped cs) : c ∈ cs := by
  have hmem := List.mem_map_of_mem (f := (·.1)) h
  rwa [map_fst_marked] at hmem

theorem marked_append (escaped : Bool) (cs ds : List Char) :
    marked escaped (cs ++ ds) = marked escaped cs ++ marked (leavesWaiting escaped cs) ds := by
  induction cs generalizing escaped with
  | nil => rfl
  | cons c cs ih => rw [List.cons_append, marked, marked, leavesWaiting, ih, List.cons_append]

theorem leavesWaiting_append (escaped : Bool) (cs ds : List Char) :
    leavesWaiting escaped (cs ++ ds) = leavesWaiting (leavesWaiting escaped cs) ds := by
  induction cs generalizing escaped with
  | nil => rfl
  | cons c cs ih => rw [List.cons_append, leavesWaiting, leavesWaiting, ih]

theorem leavesWaiting_of_notMem {cs : List Char} (h : '\\' ∉ cs) :
    leavesWaiting false cs = false := by
  induction cs with
  | nil => rfl
  | cons c cs ih =>
      rw [List.mem_cons, not_or] at h
      have hc : (!false && c == '\\') = false := by simpa using Ne.symm h.1
      rw [leavesWaiting, hc]
      exact ih h.2

/-! ### Escaped texts -/

/-- A text all of whose dots and colons are escaped, and none of whose backslashes waits at the
end. -/
structure Quoted (cs : List Char) : Prop where
  closed : leavesWaiting false cs = false
  no_dot : ('.', false) ∉ marked false cs
  no_colon : (':', false) ∉ marked false cs

theorem Quoted.append {cs ds : List Char} (hcs : Quoted cs) (hds : Quoted ds) :
    Quoted (cs ++ ds) := by
  have hmarked : marked false (cs ++ ds) = marked false cs ++ marked false ds := by
    rw [marked_append, hcs.closed]
  refine ⟨?_, ?_, ?_⟩
  · rw [leavesWaiting_append, hcs.closed, hds.closed]
  · rw [hmarked, List.mem_append, not_or]
    exact ⟨hcs.no_dot, hds.no_dot⟩
  · rw [hmarked, List.mem_append, not_or]
    exact ⟨hcs.no_colon, hds.no_colon⟩

theorem quoted_nil : Quoted [] :=
  ⟨rfl, List.not_mem_nil, List.not_mem_nil⟩

theorem quoted_escapeChar (c : Char) : Quoted (escapeChar c) := by
  unfold escapeChar
  by_cases h : isSpecial c = true
  · rw [if_pos h]
    exact ⟨rfl, by simp [marked], by simp [marked]⟩
  · rw [if_neg h]
    have hne : ∀ d, isSpecial d = true → d ≠ c := by
      rintro d hd rfl
      exact h hd
    refine ⟨?_, ?_, ?_⟩
    · simpa [leavesWaiting] using (hne '\\' rfl).symm
    · simpa [marked] using hne '.' rfl
    · simpa [marked] using hne ':' rfl

theorem quoted_flatMap_escapeChar (cs : List Char) : Quoted (cs.flatMap escapeChar) := by
  induction cs with
  | nil => exact quoted_nil
  | cons c cs ih =>
      rw [List.flatMap_cons]
      exact (quoted_escapeChar c).append ih

/-- A digit that is written by its code point has no dot or colon about it. -/
theorem quoted_escapeDigit {c : Char} (h : c.isDigit = true) : Quoted (escapeDigit c) := by
  have hne : ∀ d, d.isDigit = false → d ≠ c := by
    rintro d hd rfl
    rw [h] at hd
    cases hd
  rw [escapeDigit_eq h]
  refine ⟨?_, ?_, ?_⟩
  · simp [leavesWaiting]
  · simpa [marked] using hne '.' rfl
  · simpa [marked] using hne ':' rfl

/-- **Every dot and colon of an escaped text is escaped.** -/
theorem quoted_escape (cs : List Char) : Quoted (escape cs) := by
  cases cs with
  | nil => exact quoted_nil
  | cons c cs =>
      rw [escape]
      by_cases h : c.isDigit = true
      · rw [if_pos h]
        exact (quoted_escapeDigit h).append (quoted_flatMap_escapeChar cs)
      · rw [if_neg h]
        exact (quoted_escapeChar c).append (quoted_flatMap_escapeChar cs)

/-! ### Finding the class -/

theorem takeWhile_bne_append {α : Type} [BEq α] [LawfulBEq α] {x : α} {cs : List α} (h : x ∉ cs)
    (ds : List α) : (cs ++ ds).takeWhile (· != x) = cs ++ ds.takeWhile (· != x) := by
  apply List.takeWhile_append_of_pos
  intro c hc
  rw [bne_iff_ne]
  rintro rfl
  exact h hc

/-- **The class of a selector is found** behind ancestors without backslashes and before
pseudo-classes, which open with a colon and have no dot. -/
theorem className_append {ancestors cs pseudoClasses : List Char} (hancestors : '\\' ∉ ancestors)
    (hcs : Quoted cs) (hopens : ∀ c ∈ pseudoClasses.head?, c = ':')
    (hdot : '.' ∉ pseudoClasses) :
    className (ancestors ++ '.' :: (cs ++ pseudoClasses)) = cs := by
  have hmarked : marked false (ancestors ++ '.' :: (cs ++ pseudoClasses)) =
      marked false ancestors ++ ('.', false) :: (marked false cs ++ marked false pseudoClasses) := by
    rw [marked_append, leavesWaiting_of_notMem hancestors, marked]
    show _ ++ _ :: marked false (cs ++ pseudoClasses) = _
    rw [marked_append, hcs.closed]
  have hno_dot : ('.', false) ∉ (marked false cs ++ marked false pseudoClasses).reverse := by
    rw [List.mem_reverse, List.mem_append, not_or]
    exact ⟨hcs.no_dot, fun hmem => hdot (mem_of_mem_marked hmem)⟩
  have hbehind : ((marked false (ancestors ++ '.' :: (cs ++ pseudoClasses))).reverse.takeWhile
      (· != ('.', false))).reverse = marked false cs ++ marked false pseudoClasses := by
    rw [hmarked, List.reverse_append, List.reverse_cons, List.append_assoc,
      takeWhile_bne_append hno_dot]
    simp
  have hend : (marked false pseudoClasses).takeWhile (· != (':', false)) = [] := by
    cases pseudoClasses with
    | nil => rfl
    | cons c rest =>
        obtain rfl : c = ':' := hopens c rfl
        rfl
  simp only [className]
  rw [hbehind, takeWhile_bne_append hcs.no_colon, hend, List.append_nil, map_fst_marked]

end Selector

end AtomicCss
