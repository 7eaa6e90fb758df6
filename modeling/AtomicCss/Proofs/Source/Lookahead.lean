/-
Looking ahead for the end of a group.

The search for the bracket that closes a group counts the brackets that are open, and gives up
where something ends every class.  It is exact: a group is the shortest piece of the text in which
as many brackets are closed as opened and in which nothing ends a class, and where no group is
found there is no such piece.  Until then more brackets have been opened than closed, so the count
of open brackets is never taken below zero.

Nor does reading stand still.  A run ends behind the place where it begins, or there; where it
ends at once, one character is left out.  So every turn of the search for runs takes something off
the text, and as many turns as the text has characters are enough.
-/
import AtomicCss.Proofs.Source.Stretch

namespace AtomicCss.Source

open Text

/-- A piece of a text that begins and ends so, in which as many brackets are closed as opened and
in which nothing ends a class. -/
structure IsPiece (text : List Char) (start stop : Nat) : Prop where
  lt : start < stop
  le : stop ≤ text.length
  count_eq : (text.extract start stop).count '[' = (text.extract start stop).count ']'
  free : ∀ c ∈ text.extract start stop,
    isBlank c = false ∧ c ∉ ['\x22', '\x27', '\x60', '\x7b', '\x7d', '<', '>']

/-- Where the group ends that begins at a place of a text. -/
def groupEnd? (text : List Char) (start : Nat) : Option Nat :=
  (group? (text.drop start)).map fun (_, rest) => text.length - rest.length

/-- Where the run ends that begins at a place of a text. -/
def runEnd (text : List Char) (start : Nat) : Nat :=
  text.length - (run (text.drop start)).2.length

/-- What counting brackets comes to. -/
inductive Count
  /-- All brackets are closed at this place. -/
  | closed (stop : Nat)
  | unclosed
  /-- A bracket is closed and none is open. -/
  | underflow
  deriving DecidableEq

/-- What counting comes to where a group ends, or none does. -/
def Count.ofEnd : Option Nat → Count
  | some stop => .closed stop
  | none => .unclosed

/-- Counts the brackets that are open, from a place on, until all are closed again. -/
def countFrom (depth place : Nat) : List Char → Count
  | [] => .unclosed
  | c :: cs =>
    if c = '[' then countFrom (depth + 1) (place + 1) cs
    else if c = ']' then
      if depth = 0 then .underflow
      else if depth - 1 = 0 then .closed (place + 1)
      else countFrom (depth - 1) (place + 1) cs
    else if isBarrier c then .unclosed
    else countFrom depth (place + 1) cs

/-- The candidates of a text whose first line has this number, if so many turns are enough.  A turn
takes a run, or leaves out a character where no run begins. -/
def candidatesWithin : (turns line : Nat) → List Char → Option (List Candidate)
  | _, _, [] => some []
  | 0, _, _ :: _ => none
  | turns + 1, line, c :: cs =>
    match run (c :: cs) with
    | ([], _) => candidatesWithin turns (line + [c].count '\n') cs
    | (run, rest) =>
      (candidatesWithin turns line rest).map
        (((candidatesOfRun run).map fun text => ⟨String.ofList text, line⟩) ++ ·)

/-! ### No group -/

/-- Where a group is not closed, nothing closes it: no more brackets are closed than are opened
and were open before. -/
theorem count_le_of_closing?_eq_none {n : Nat} {cs : List Char} (h : closing? n cs = none) :
    ∀ {piece : List Char}, piece <+: cs → (∀ c ∈ piece, isBarrier c = false) →
      piece.count ']' ≤ piece.count '[' + n := by
  induction cs generalizing n with
  | nil =>
      intro piece hpiece _
      rw [List.prefix_nil.mp hpiece]
      exact Nat.zero_le _
  | cons c cs ih =>
      intro piece hpiece hfree
      rcases List.prefix_cons_iff.mp hpiece with rfl | ⟨more, rfl, hmore⟩
      · exact Nat.zero_le _
      · obtain ⟨hbarrier, htail⟩ := List.forall_mem_cons.mp hfree
        rw [closing?] at h
        split at h
        · rename_i hclose
          subst hclose
          split at h
          · cases h
          · have := ih (Option.map_eq_none_iff.mp h) hmore htail
            rw [List.count_cons_self, List.count_cons_of_ne (by decide)]
            omega
        · rename_i hclose
          split at h
          · rename_i hopen
            subst hopen
            have := ih (Option.map_eq_none_iff.mp h) hmore htail
            rw [List.count_cons_self, List.count_cons_of_ne (by decide)]
            omega
          · rename_i hopen
            rw [hbarrier, if_neg Bool.false_ne_true] at h
            have := ih (Option.map_eq_none_iff.mp h) hmore htail
            rwa [List.count_cons_of_ne hopen, List.count_cons_of_ne hclose]

/-- Where no group begins, no piece closes as many brackets as it opens. -/
theorem count_ne_of_group?_eq_none {cs piece : List Char} (h : group? ('[' :: cs) = none)
    (hpiece : piece <+: '[' :: cs) (hne : piece ≠ []) (hfree : ∀ c ∈ piece, isBarrier c = false) :
    piece.count '[' ≠ piece.count ']' := by
  rcases List.prefix_cons_iff.mp hpiece with rfl | ⟨more, rfl, hmore⟩
  · exact absurd rfl hne
  · have := count_le_of_closing?_eq_none (Option.map_eq_none_iff.mp h) hmore
      (List.forall_mem_cons.mp hfree).2
    rw [List.count_cons_self, List.count_cons_of_ne (by decide)]
    omega

/-! ### The shortest group -/

/-- No shorter piece than a group closes as many brackets as it opens. -/
theorem length_le_of_count_eq {cs group rest piece : List Char}
    (h : group? cs = some (group, rest)) (hpiece : piece <+: cs) (hne : piece ≠ [])
    (hcount : piece.count '[' = piece.count ']') : group.length ≤ piece.length := by
  by_contra hlt
  obtain ⟨inner, hinner, rfl⟩ := exists_balanced_of_group? h
  have hgroup : '[' :: (inner ++ [']']) <+: cs := ⟨rest, (group?_append h).1⟩
  have hwithin := List.prefix_of_prefix_length_le hpiece hgroup (by omega)
  cases piece with
  | nil => exact hne rfl
  | cons c piece =>
      -- All of the piece but its bracket is the beginning of balanced text.
      obtain ⟨rfl, htail⟩ := List.cons_prefix_cons.mp hwithin
      simp only [List.length_cons, List.length_append, List.length_nil] at hlt
      obtain ⟨more, hmore⟩ := List.prefix_of_prefix_length_le htail
        (List.prefix_append inner [']']) (by omega)
      have := hinner.count_le hmore.symm
      rw [List.count_cons_self, List.count_cons_of_ne (by decide)] at hcount
      omega

/-! ### Places in a text -/

section

variable {text : List Char} {start stop : Nat}

theorem extract_isPrefix (text : List Char) (start stop : Nat) :
    text.extract start stop <+: text.drop start := by
  rw [List.extract_eq_take_drop]
  exact List.take_prefix _ _

theorem IsPiece.length_eq (h : IsPiece text start stop) :
    (text.extract start stop).length = stop - start := by
  have := h.le
  rw [List.extract_eq_take_drop, List.length_take, List.length_drop]
  omega

theorem IsPiece.ne_nil (h : IsPiece text start stop) : text.extract start stop ≠ [] := by
  have := h.lt
  exact List.ne_nil_of_length_pos (by rw [h.length_eq]; omega)

theorem length_sub_eq {left rest : List Char} (h : left ++ rest = text.drop start)
    (hstart : start ≤ text.length) : text.length - rest.length = start + left.length := by
  have := congrArg List.length h
  rw [List.length_append, List.length_drop] at this
  omega

theorem groupEnd?_eq (hstart : start ≤ text.length) :
    groupEnd? text start =
      (group? (text.drop start)).map fun (group, _) => start + group.length := by
  refine Option.map_congr fun found hfound => ?_
  exact length_sub_eq (group?_append hfound).1 hstart

theorem extract_of_group? {group rest : List Char}
    (h : group? (text.drop start) = some (group, rest)) :
    text.extract start (start + group.length) = group := by
  rw [List.extract_eq_take_drop, ← (group?_append h).1, Nat.add_sub_cancel_left, List.take_left]

/-- A group is a piece, and no shorter piece begins there. -/
theorem isPiece_of_group? {group rest : List Char}
    (h : group? (text.drop start) = some (group, rest)) (hstart : start ≤ text.length) :
    IsPiece text start (start + group.length) ∧
      ∀ stop, IsPiece text start stop → start + group.length ≤ stop := by
  obtain ⟨happend, hne⟩ := group?_append h
  have hextract := extract_of_group? h
  have hlength := length_sub_eq happend hstart
  have hpos := List.length_pos_iff.mpr hne
  constructor
  · constructor
    case lt => omega
    case le => omega
    case count_eq =>
      obtain ⟨inner, hinner, hgroup⟩ := exists_balanced_of_group? h
      have := hinner.count_eq
      rw [hextract, hgroup]
      simp [List.count_append, this]
    case free =>
      rw [hextract]
      exact fun c hc => isBarrier_eq_false_iff.mp (not_isBarrier_of_mem_group h c hc)
  · intro stop hpiece
    have hlt := hpiece.lt
    have hle := length_le_of_count_eq h (extract_isPrefix text start stop) hpiece.ne_nil
      hpiece.count_eq
    rw [hpiece.length_eq] at hle
    omega

theorem drop_eq_cons (hopen : text[start]? = some '[') :
    text.drop start = '[' :: text.drop (start + 1) := by
  obtain ⟨hstart, hget⟩ := List.getElem?_eq_some_iff.mp hopen
  rw [List.drop_eq_getElem_cons hstart, hget]

theorem not_isPiece_of_group?_eq_none (h : group? (text.drop start) = none)
    (hopen : text[start]? = some '[') (stop : Nat) : ¬ IsPiece text start stop := by
  intro hpiece
  have hprefix := extract_isPrefix text start stop
  rw [drop_eq_cons hopen] at h hprefix
  exact count_ne_of_group?_eq_none h hprefix hpiece.ne_nil
    (fun c hc => isBarrier_eq_false_iff.mpr (hpiece.free c hc)) hpiece.count_eq

theorem groupEnd?_eq_some_iff (hopen : text[start]? = some '[') :
    groupEnd? text start = some stop ↔
      IsPiece text start stop ∧ ∀ other, IsPiece text start other → stop ≤ other := by
  have hstart : start ≤ text.length := Nat.le_of_lt (List.getElem?_eq_some_iff.mp hopen).1
  cases h : group? (text.drop start) with
  | none =>
      simp [groupEnd?, h, not_isPiece_of_group?_eq_none h hopen]
  | some found =>
      obtain ⟨group, rest⟩ := found
      obtain ⟨hpiece, hshortest⟩ := isPiece_of_group? h hstart
      have hend : groupEnd? text start = some (start + group.length) := by
        rw [groupEnd?_eq hstart, h]
        rfl
      rw [hend, Option.some.injEq]
      constructor
      · rintro rfl
        exact ⟨hpiece, hshortest⟩
      · rintro ⟨hother, hleast⟩
        exact Nat.le_antisymm (hshortest stop hother) (hleast _ hpiece)

theorem groupEnd?_eq_none_iff (hopen : text[start]? = some '[') :
    groupEnd? text start = none ↔ ∀ stop, ¬ IsPiece text start stop := by
  constructor
  · exact fun h => not_isPiece_of_group?_eq_none (Option.map_eq_none_iff.mp h) hopen
  · intro h
    refine Option.eq_none_iff_forall_ne_some.mpr fun stop hend => h stop ?_
    exact ((groupEnd?_eq_some_iff hopen).mp hend).1

/-- The brackets of a group nest. -/
theorem exists_balanced_of_groupEnd? (h : groupEnd? text start = some stop)
    (hstart : start ≤ text.length) :
    ∃ inner, Balanced inner ∧ text.extract start stop = '[' :: (inner ++ [']']) := by
  rw [groupEnd?_eq hstart] at h
  obtain ⟨⟨group, rest⟩, hgroup, rfl⟩ := Option.map_eq_some_iff.mp h
  obtain ⟨inner, hinner, heq⟩ := exists_balanced_of_group? hgroup
  exact ⟨inner, hinner, (extract_of_group? hgroup).trans heq⟩

/-! ### Counting -/

/-- With a bracket open, counting closes the group that the search closes. -/
theorem countFrom_succ (inner place : Nat) (cs : List Char) :
    countFrom (inner + 1) place cs =
      .ofEnd ((closing? inner cs).map fun (group, _) => place + group.length) := by
  induction cs generalizing inner place with
  | nil => rfl
  | cons c cs ih =>
      have step : ∀ n, countFrom (n + 1) (place + 1) cs =
          .ofEnd (((closing? n cs).map fun p => (c :: p.1, p.2)).map fun p =>
            place + p.1.length) := by
        intro n
        rw [ih, Option.map_map]
        congr 2
        funext p
        exact Nat.add_right_comm place 1 p.1.length
      rw [countFrom, closing?]
      by_cases hopen : c = '['
      · subst hopen
        exact step (inner + 1)
      · rw [if_neg hopen]
        by_cases hclose : c = ']'
        · subst hclose
          cases inner with
          | zero => rfl
          | succ n => exact step n
        · rw [if_neg hclose, if_neg hclose, if_neg hopen]
          by_cases hbarrier : isBarrier c = true
          · rw [if_pos hbarrier, if_pos hbarrier]
            rfl
          · rw [if_neg hbarrier, if_neg hbarrier]
            exact step inner

/-- Counting from a bracket on finds the end of the group, and never closes a bracket while none
is open. -/
theorem countFrom_zero (hopen : text[start]? = some '[') :
    countFrom 0 start (text.drop start) = .ofEnd (groupEnd? text start) := by
  have hstart : start ≤ text.length := Nat.le_of_lt (List.getElem?_eq_some_iff.mp hopen).1
  have hcount : countFrom 0 start (text.drop start) =
      .ofEnd ((closing? 0 (text.drop (start + 1))).map fun p => start + 1 + p.1.length) := by
    rw [drop_eq_cons hopen]
    exact countFrom_succ 0 (start + 1) _
  rw [hcount, groupEnd?_eq hstart, drop_eq_cons hopen, group?, Option.map_map]
  congr 2
  funext found
  exact Nat.add_right_comm start 1 found.1.length

end

/-! ### Runs -/

theorem runEnd_le {text : List Char} {start : Nat} (hstart : start ≤ text.length) :
    start ≤ runEnd text start ∧ runEnd text start ≤ text.length := by
  rw [runEnd, length_sub_eq (run_append _) hstart]
  have := congrArg List.length (run_append (text.drop start))
  rw [List.length_append, List.length_drop] at this
  omega

/-- As many turns as a text has characters are enough. -/
theorem candidatesWithin_of_le (before cs : List Char) :
    ∀ {turns : Nat}, cs.length ≤ turns →
      candidatesWithin turns (1 + before.count '\n') cs =
        some ((stretchesFrom before cs).flatMap Stretch.candidates) := by
  fun_induction stretchesFrom before cs with
  | case1 before =>
      intro turns _
      cases turns <;> rfl
  | case2 before c cs rest hrun ih =>
      intro turns hle
      cases turns with
      | zero => cases hle
      | succ turns =>
          have hnext := ih (Nat.le_of_succ_le_succ hle)
          rw [List.count_append, ← Nat.add_assoc] at hnext
          rw [candidatesWithin, hrun]
          exact hnext
  | case3 before cs c more rest hrun _ ih =>
      intro turns hle
      have hlength := congrArg List.length (run_append cs)
      simp only [hrun, List.length_append, List.length_cons] at hlength
      cases cs with
      | nil =>
          rw [List.length_nil] at hlength
          omega
      | cons d cs =>
          rw [List.length_cons] at hlength hle
          cases turns with
          | zero => cases hle
          | succ turns =>
              have hnext : candidatesWithin turns _ rest = _ := ih (by omega)
              rw [count_append_run before hrun] at hnext
              rw [candidatesWithin, hrun]
              simp only [hnext]
              rfl

/-! ### The statement -/

theorem candidatesWithin_length {text : List Char} {turns : Nat} (h : text.length ≤ turns) :
    candidatesWithin turns 1 text = some (candidates text) := by
  have hfirst := candidatesWithin_of_le [] text h
  rw [← candidatesFrom_eq] at hfirst
  exact hfirst

/--
**The look-ahead for the end of a group is exact, and reading goes on.**  Where a bracket is
opened, a group ends at the end of the shortest piece in which as many brackets are closed as
opened and in which nothing ends a class, and none ends if there is no such piece; its brackets
nest.  The count of open brackets is never zero where it is decremented.  A run ends not before
the place where it begins, nor behind the text, and the search for runs ends within as many turns
as the text has characters, with the candidates.
-/
theorem groupEnd?_exact (text : List Char) :
    (∀ start, text[start]? = some '[' →
      (∀ stop, groupEnd? text start = some stop ↔
        IsPiece text start stop ∧ ∀ other, IsPiece text start other → stop ≤ other) ∧
      (groupEnd? text start = none ↔ ∀ stop, ¬ IsPiece text start stop) ∧
      (∀ stop, groupEnd? text start = some stop →
        ∃ inner, Balanced inner ∧ text.extract start stop = '[' :: (inner ++ [']'])) ∧
      countFrom 0 start (text.drop start) = .ofEnd (groupEnd? text start)) ∧
    (∀ start, start ≤ text.length →
      start ≤ runEnd text start ∧ runEnd text start ≤ text.length) ∧
    ∀ turns, text.length ≤ turns → candidatesWithin turns 1 text = some (candidates text) := by
  refine ⟨fun start hopen => ⟨fun _ => groupEnd?_eq_some_iff hopen, groupEnd?_eq_none_iff hopen,
    fun stop hend => ?_, countFrom_zero hopen⟩, fun _ => runEnd_le,
    fun _ => candidatesWithin_length⟩
  exact exists_balanced_of_groupEnd? hend (Nat.le_of_lt (List.getElem?_eq_some_iff.mp hopen).1)

/-- A group within a group, and one within a bracket that is not closed; at a bracket that closes
nothing, counting would go below zero. -/
theorem groupEnd?_exact_unclosed :
    let text := "z-[a[b]] [c[d] ]".toList
    text[2]? = some '[' ∧ IsPiece text 2 8 ∧ groupEnd? text 2 = some 8 ∧
      text[9]? = some '[' ∧ groupEnd? text 9 = none ∧ (∀ stop, ¬ IsPiece text 9 stop) ∧
      countFrom 0 9 (text.drop 9) = .unclosed ∧ countFrom 0 15 (text.drop 15) = .underflow ∧
      runEnd text 9 = 9 ∧ candidatesWithin 16 1 text =
        some [⟨"z-[a[b]]", 1⟩, ⟨"c[d]", 1⟩] := by
  intro text
  obtain ⟨hends, -, hturns⟩ := groupEnd?_exact text
  have hfound : groupEnd? text 2 = some 8 := by decide +kernel
  have hnone : groupEnd? text 9 = none := by decide +kernel
  obtain ⟨hsome, -, -, -⟩ := hends 2 (by decide)
  obtain ⟨-, hnothing, -, hcount⟩ := hends 9 (by decide)
  refine ⟨by decide, ((hsome 8).mp hfound).1, hfound, by decide, hnone, hnothing.mp hnone, ?_,
    by decide +kernel, by decide +kernel, (hturns 16 (by decide)).trans (by decide +kernel)⟩
  rw [hcount, hnone]
  rfl

end AtomicCss.Source
