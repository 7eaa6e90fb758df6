/-
Splitting and joining classes.

Modifiers and utility are cut out of a class as they stand there, so joining them again gives the
class back, and the utility is the end of the class.

The other way round the pieces have to be such that no colon but those between them is a cut.  A
colon is a cut exactly where nothing is open.  So a piece must have none of its own colons there,
and a modifier must close what it opens, for otherwise the colon behind it is none.  Under these
two conditions joining is undone by splitting, and the pieces of every class meet them.
-/
import AtomicCss.Variant.Chain
import Mathlib.Data.List.Basic

namespace AtomicCss.Chain

theorem join_consFirst (c : Char) (pieces : List (List Char) × List Char) :
    join (consFirst c pieces).1 (consFirst c pieces).2 = c :: join pieces.1 pieces.2 := by
  obtain ⟨_ | ⟨m, ms⟩, base⟩ := pieces <;> rfl

theorem join_splitFrom (d : Depth) (cs : List Char) :
    join (splitFrom d cs).1 (splitFrom d cs).2 = cs := by
  induction cs generalizing d with
  | nil => rfl
  | cons c cs ih =>
      rw [splitFrom]
      by_cases hc : (c = ':' && d.isTop) = true
      · rw [if_pos hc]
        obtain ⟨heq, -⟩ := Bool.and_eq_true_iff.mp hc
        obtain rfl := of_decide_eq_true heq
        show ':' :: join (splitFrom d cs).1 (splitFrom d cs).2 = ':' :: cs
        rw [ih]
      · rw [if_neg hc, join_consFirst, ih]

/-- **A class is its modifiers and its utility.** -/
theorem join_split (cs : List Char) : join (split cs).1 (split cs).2 = cs :=
  join_splitFrom {} cs

theorem suffix_join (modifiers : List (List Char)) (base : List Char) :
    base <:+ join modifiers base := by
  induction modifiers with
  | nil => exact List.suffix_refl _
  | cons m ms ih =>
      show base <:+ m ++ ':' :: join ms base
      exact (ih.trans (List.suffix_cons _ _)).trans (List.suffix_append _ _)

theorem split_suffix (cs : List Char) : (split cs).2 <:+ cs := by
  have := suffix_join (split cs).1 (split cs).2
  rwa [join_split] at this

/-! ### What a piece may hold -/

/-- What is open after a text that begins with `d` open. -/
def Depth.through (d : Depth) (cs : List Char) : Depth :=
  cs.foldl Depth.after d

/-- Every colon of a text that begins with `d` open has something open before it. -/
def Depth.Guards (d : Depth) (cs : List Char) : Prop :=
  ∀ before after, cs = before ++ ':' :: after → d.through before ≠ {}

/-- A text at whose end nothing is open if nothing was at its beginning. -/
def IsClosed (cs : List Char) : Prop :=
  Depth.through {} cs = {}

theorem Depth.isTop_iff {d : Depth} : d.isTop = true ↔ d = {} := by
  obtain ⟨parens, brackets⟩ := d
  simp [Depth.isTop]

theorem Depth.guards_nil (d : Depth) : d.Guards [] := by
  intro before after h
  cases before <;> cases h

theorem Depth.guards_cons {d : Depth} {c : Char} {cs : List Char} :
    d.Guards (c :: cs) ↔ (c = ':' → d ≠ {}) ∧ (d.after c).Guards cs := by
  constructor
  · intro h
    refine ⟨?_, fun before after hcs => ?_⟩
    · rintro rfl
      exact h [] cs rfl
    · exact h (c :: before) after (by rw [hcs, List.cons_append])
  · rintro ⟨hc, hcs⟩ before after h
    cases before with
    | nil =>
        obtain ⟨rfl, -⟩ := List.cons.inj h
        exact hc rfl
    | cons b before =>
        obtain ⟨rfl, htail⟩ := List.cons.inj h
        exact hcs before after htail

theorem Depth.guards_singleton {d : Depth} {c : Char} : d.Guards [c] ↔ (c = ':' → d ≠ {}) :=
  guards_cons.trans (and_iff_left (guards_nil _))

theorem Depth.guards_append {d : Depth} {p q : List Char} :
    d.Guards (p ++ q) ↔ d.Guards p ∧ (d.through p).Guards q := by
  induction p generalizing d with
  | nil => exact ⟨fun h => ⟨d.guards_nil, h⟩, And.right⟩
  | cons c p ih =>
      rw [List.cons_append, guards_cons, guards_cons, ih, and_assoc]
      rfl

/-- A text is guarded, or begins with a guarded piece at whose end a colon is a cut. -/
theorem Depth.guards_or_exists_cut (d : Depth) (cs : List Char) :
    d.Guards cs ∨ ∃ piece rest, cs = piece ++ ':' :: rest ∧ d.Guards piece ∧
      d.through piece = {} := by
  induction cs generalizing d with
  | nil => exact .inl d.guards_nil
  | cons c cs ih =>
      by_cases hcut : c = ':' ∧ d = {}
      · obtain ⟨rfl, rfl⟩ := hcut
        exact .inr ⟨[], cs, rfl, guards_nil _, rfl⟩
      · have hc : c = ':' → d ≠ {} := fun hcolon htop => hcut ⟨hcolon, htop⟩
        rcases ih (d.after c) with hguards | ⟨piece, rest, rfl, hguards, hclosed⟩
        · exact .inl (guards_cons.mpr ⟨hc, hguards⟩)
        · exact .inr ⟨c :: piece, rest, rfl, guards_cons.mpr ⟨hc, hguards⟩, hclosed⟩

/-- Closing brackets close no more than one each. -/
theorem Depth.le_brackets_through (d : Depth) (cs : List Char) :
    d.brackets + cs.count '[' ≤ (d.through cs).brackets + cs.count ']' := by
  induction cs generalizing d with
  | nil => exact Nat.le_refl _
  | cons c cs ih =>
      have hstep : d.brackets + [c].count '[' ≤ (d.after c).brackets + [c].count ']' := by
        unfold Depth.after
        split
        · exact Nat.le_refl _
        · exact Nat.le_refl _
        · exact Nat.le_refl _
        · show d.brackets + 0 ≤ d.brackets - 1 + 1
          omega
        · rename_i hopen _
          have : [c].count '[' = 0 := List.count_eq_zero.mpr (by simpa using Ne.symm hopen)
          omega
      have hrest := ih (d.after c)
      rw [← List.singleton_append, List.count_append, List.count_append]
      show _ ≤ ((d.after c).through cs).brackets + _
      omega

/-- A text is guarded if none of its beginnings closes all the brackets that are open. -/
theorem Depth.guards_of_count {d : Depth} {cs : List Char}
    (h : ∀ front, front <+: cs → front.count ']' < d.brackets + front.count '[') :
    d.Guards cs := by
  rintro before after rfl htop
  have hbefore := h before (List.prefix_append _ _)
  have hbrackets := d.le_brackets_through before
  have hnone : (d.through before).brackets = 0 := by rw [htop]
  omega

/-! ### Where a class is cut -/

theorem foldr_consFirst_nil (piece base : List Char) :
    piece.foldr consFirst ([], base) = ([], piece ++ base) := by
  induction piece with
  | nil => rfl
  | cons c piece ih => rw [List.foldr_cons, ih, consFirst, List.cons_append]

theorem foldr_consFirst_cons (piece m base : List Char) (ms : List (List Char)) :
    piece.foldr consFirst (m :: ms, base) = ((piece ++ m) :: ms, base) := by
  induction piece with
  | nil => rfl
  | cons c piece ih => rw [List.foldr_cons, ih, consFirst, List.cons_append]

/-- A guarded text goes to the first piece as a whole. -/
theorem splitFrom_append {d : Depth} {piece : List Char} (h : d.Guards piece) (rest : List Char) :
    splitFrom d (piece ++ rest) = piece.foldr consFirst (splitFrom (d.through piece) rest) := by
  induction piece generalizing d with
  | nil => rfl
  | cons c piece ih =>
      obtain ⟨hc, hpiece⟩ := Depth.guards_cons.mp h
      have hcut : ¬ (c = ':' && d.isTop) = true := by
        rw [Bool.and_eq_true, decide_eq_true_eq, Depth.isTop_iff]
        exact fun hcut => hc hcut.1 hcut.2
      rw [List.cons_append, splitFrom, if_neg hcut, ih hpiece]
      rfl

theorem split_of_guards {cs : List Char} (h : Depth.Guards {} cs) : split cs = ([], cs) := by
  have hsplit := splitFrom_append h []
  rwa [List.append_nil, splitFrom, foldr_consFirst_nil, List.append_nil] at hsplit

/-- A guarded piece that is closed is the first modifier of what it stands in front of. -/
theorem split_cons_colon {piece : List Char} (hclosed : IsClosed piece)
    (hguards : Depth.Guards {} piece) (cs : List Char) :
    split (piece ++ ':' :: cs) = (piece :: (split cs).1, (split cs).2) := by
  have hcut : splitFrom {} (':' :: cs) = ([] :: (split cs).1, (split cs).2) := rfl
  rw [split, splitFrom_append hguards, hclosed, hcut, foldr_consFirst_cons, List.append_nil]

/--
**Splitting and joining are inverse.**  The pieces of a class give it back when they are joined; no
colon inside them is a cut, and the modifiers are closed.  Pieces like that, joined by colons, are
what splitting gives again.
-/
theorem split_eq_iff {cs : List Char} {modifiers : List (List Char)} {base : List Char} :
    split cs = (modifiers, base) ↔
      cs = join modifiers base ∧
        (∀ m ∈ modifiers, IsClosed m ∧ Depth.Guards {} m) ∧ Depth.Guards {} base := by
  induction modifiers generalizing cs with
  | nil =>
      constructor
      · intro h
        rcases Depth.guards_or_exists_cut {} cs with hguards | ⟨piece, rest, rfl, hguards, hclosed⟩
        · rw [split_of_guards hguards] at h
          obtain ⟨-, rfl⟩ := Prod.mk.inj h
          exact ⟨rfl, by simp, hguards⟩
        · rw [split_cons_colon hclosed hguards] at h
          cases (Prod.mk.inj h).1
      · rintro ⟨rfl, -, hbase⟩
        exact split_of_guards hbase
  | cons m ms ih =>
      constructor
      · intro h
        rcases Depth.guards_or_exists_cut {} cs with hguards | ⟨piece, rest, rfl, hguards, hclosed⟩
        · rw [split_of_guards hguards] at h
          cases (Prod.mk.inj h).1
        · rw [split_cons_colon hclosed hguards] at h
          obtain ⟨hpieces, hbase⟩ := Prod.mk.inj h
          obtain ⟨rfl, hms⟩ := List.cons.inj hpieces
          obtain ⟨rfl, hrest, hbase⟩ := ih.mp (Prod.ext hms hbase)
          exact ⟨rfl, List.forall_mem_cons.mpr ⟨⟨hclosed, hguards⟩, hrest⟩, hbase⟩
      · rintro ⟨rfl, hmodifiers, hbase⟩
        obtain ⟨⟨hclosed, hguards⟩, hrest⟩ := List.forall_mem_cons.mp hmodifiers
        show split (m ++ ':' :: join ms base) = (m :: ms, base)
        rw [split_cons_colon hclosed hguards, ih.mpr ⟨rfl, hrest, hbase⟩]

/-- Brackets and parentheses need not nest, a closer too many opens nothing, and a piece may be
empty. -/
example : split "([)]::é)a(:[:".toList = (["([)]".toList, []], "é)a(:[:".toList) := by decide

/-! ### Plain names -/

/-- The characters that decide where a class is cut. -/
def isCut (c : Char) : Bool :=
  [':', '(', ')', '[', ']'].contains c

theorem Depth.after_of_not_isCut (d : Depth) {c : Char} (h : isCut c = false) : d.after c = d := by
  unfold Depth.after
  split
  · cases h
  · cases h
  · cases h
  · cases h
  · rfl

theorem Depth.through_of_not_isCut (d : Depth) {name : List Char}
    (h : ∀ c ∈ name, isCut c = false) : d.through name = d := by
  induction name with
  | nil => rfl
  | cons c name ih =>
      obtain ⟨hc, hname⟩ := List.forall_mem_cons.mp h
      show (d.after c).through name = d
      rw [d.after_of_not_isCut hc, ih hname]

theorem Depth.guards_of_not_isCut (d : Depth) {name : List Char}
    (h : ∀ c ∈ name, isCut c = false) : d.Guards name := by
  rintro before after rfl
  cases h ':' (by simp)

/-- **A plain name in front of a class is its first modifier.** -/
theorem split_append {name : List Char} (h : ∀ c ∈ name, isCut c = false) (cs : List Char) :
    split (name ++ ':' :: cs) = (name :: (split cs).1, (split cs).2) :=
  split_cons_colon (Depth.through_of_not_isCut {} h) (Depth.guards_of_not_isCut {} h) cs

end AtomicCss.Chain
