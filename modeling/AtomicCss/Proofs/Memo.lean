/-
What look-ups do to a memo.

A look-up answers with what is remembered of its literal, else with what it computes, and
remembers the answer if the memo is switched on.  So a memo only learns: what it has stays, and
what comes in is what the computation gives.  `Learns` says this of two states of a memory,
however many look-ups lie between them; by it an answer is the same before and after.

What many look-ups come to together can be said without an order: `LookedUp` names what is
remembered and counted afterwards by which literals were asked for, and nothing else fits it.
-/
import AtomicCss.Memo
import Mathlib.Data.List.Dedup

namespace AtomicCss

/-- What a memory that holds `peek?` answers for a literal. -/
def answerOf (compute : String → Option ClassRule) (peek? : String → Option (Option ClassRule))
    (literal : String) : Option ClassRule :=
  (peek? literal).getD (compute literal)

/-- A memory before and after look-ups. -/
structure Learns (compute : String → Option ClassRule)
    (before after : String → Option (Option ClassRule)) : Prop where
  /-- Nothing is forgotten or changed. -/
  kept : ∀ literal result, before literal = some result → after literal = some result
  /-- What is new is what the computation gives. -/
  learned : ∀ literal result, before literal = none → after literal = some result →
    result = compute literal

namespace Learns

variable {compute : String → Option ClassRule}
  {first second third : String → Option (Option ClassRule)}

theorem refl : Learns compute first first :=
  ⟨fun _ _ h => h, fun _ _ hnone hsome => by cases hnone.symm.trans hsome⟩

theorem trans (h : Learns compute first second) (h' : Learns compute second third) :
    Learns compute first third := by
  refine ⟨fun literal result hfirst => h'.kept _ _ (h.kept _ _ hfirst), ?_⟩
  intro literal result hfirst hthird
  cases hsecond : second literal with
  | none => exact h'.learned _ _ hsecond hthird
  | some found =>
      obtain rfl := Option.some.inj ((h'.kept _ _ hsecond).symm.trans hthird)
      exact h.learned _ _ hfirst hsecond

theorem fresh (h : Learns compute first second) {literal : String} (hnone : second literal = none) :
    first literal = none := by
  cases hfirst : first literal with
  | none => rfl
  | some result => cases (h.kept literal result hfirst).symm.trans hnone

theorem answerOf_eq (h : Learns compute first second) :
    answerOf compute second = answerOf compute first := by
  funext literal
  unfold answerOf
  cases hfirst : first literal with
  | some result => rw [h.kept _ _ hfirst]
  | none =>
      cases hsecond : second literal with
      | none => rfl
      | some result => exact h.learned _ _ hfirst hsecond

theorem of_insert (literal : String)
    (h : ∀ other, second other = first other ∨
      other = literal ∧ second other = some (answerOf compute first literal)) :
    Learns compute first second := by
  refine ⟨fun other result hfirst => ?_, fun other result hnone hsome => ?_⟩
  · rcases h other with heq | ⟨rfl, heq⟩
    · rw [heq, hfirst]
    · rw [heq, answerOf, hfirst]
      rfl
  · rcases h other with heq | ⟨rfl, heq⟩
    · cases hnone.symm.trans (heq.symm.trans hsome)
    · rw [answerOf, hnone] at heq
      exact Option.some.inj (hsome.symm.trans heq)

end Learns

/-- The literals that a memory has come to know, each once. -/
structure Gains (before after : String → Option (Option ClassRule)) (new : List String) :
    Prop where
  nodup : new.Nodup
  mem_iff : ∀ literal, literal ∈ new ↔ before literal = none ∧ (after literal).isSome

namespace Gains

variable {compute : String → Option ClassRule}
  {first second third : String → Option (Option ClassRule)} {new more : List String}

theorem refl : Gains first first [] := by
  refine ⟨.nil, fun literal => ?_⟩
  cases first literal <;> simp

theorem trans (h : Gains first second new) (h' : Gains second third more)
    (hfirst : Learns compute first second) (hsecond : Learns compute second third) :
    Gains first third (more ++ new) := by
  refine ⟨List.nodup_append.mpr ⟨h'.nodup, h.nodup, fun t ht u hu heq => ?_⟩, fun t => ?_⟩
  · -- What was gained first is known, and what is gained then was not.
    have hknown := ((h.mem_iff u).mp hu).2
    rw [← heq, ((h'.mem_iff t).mp ht).1] at hknown
    cases hknown
  · rw [List.mem_append, h'.mem_iff, h.mem_iff]
    constructor
    · rintro (⟨hnone, hsome⟩ | ⟨hnone, hsome⟩)
      · exact ⟨hfirst.fresh hnone, hsome⟩
      · obtain ⟨result, hresult⟩ := Option.isSome_iff_exists.mp hsome
        exact ⟨hnone, Option.isSome_iff_exists.mpr ⟨result, hsecond.kept t result hresult⟩⟩
    · rintro ⟨hnone, hsome⟩
      cases hpeek : second t with
      | none => exact .inl ⟨rfl, hsome⟩
      | some result => exact .inr ⟨hnone, rfl⟩

end Gains

namespace Memo

variable (m : Memo) (compute : String → Option ClassRule) (literal : String)

theorem lookup_fst :
    (m.lookup literal fun _ => compute literal).1 = answerOf compute m.peek? literal := by
  unfold lookup answerOf
  cases m.peek? literal <;> rfl

theorem enabled_lookup :
    (m.lookup literal fun _ => compute literal).2.enabled = m.enabled := by
  unfold lookup
  split <;> rfl

theorem peek?_lookup (other : String) :
    (m.lookup literal fun _ => compute literal).2.peek? other =
      if m.enabled ∧ other = literal then some (answerOf compute m.peek? literal)
      else m.peek? other := by
  unfold lookup answerOf
  cases hpeek : m.peek? literal with
  | some result =>
      show m.peek? other = _
      split
      · rename_i h
        rw [h.2, hpeek]
        rfl
      · rfl
  | none =>
      show (m.learn literal (compute literal)).peek? other = _
      simp only [peek?, learn]
      by_cases henabled : m.enabled = true
      · by_cases hother : other = literal
        · subst hother
          simp [henabled]
        · simp [henabled, hother, Std.HashMap.getElem?_insert, Ne.symm hother]
      · simp [henabled]

/-- What a look-up is counted as: a hit, or a miss that may leave an entry. -/
theorem stats_lookup (compute : Unit → Option ClassRule) :
    (m.lookup literal compute).2.stats =
      if (m.peek? literal).isSome then { m.stats with hits := m.stats.hits + 1 }
      else ⟨m.stats.hits, m.stats.misses + 1, m.stats.entries + if m.enabled then 1 else 0⟩ := by
  unfold lookup
  cases hpeek : m.peek? literal with
  | some result => rfl
  | none =>
      have hnew : literal ∉ m.results := by
        rw [Std.HashMap.mem_iff_isSome_getElem?, show m.results[literal]? = none from hpeek]
        exact Bool.false_ne_true
      by_cases henabled : m.enabled = true <;>
        simp [stats, learn, henabled, Std.HashMap.size_insert, hnew]

theorem peek?_clear : m.clear.peek? literal = none := by
  simp [peek?, clear]

theorem stats_clear : m.clear.stats = { m.stats with entries := 0 } := by
  simp [stats, clear]

theorem learns_lookup :
    Learns compute m.peek? (m.lookup literal fun _ => compute literal).2.peek? := by
  refine .of_insert literal fun other => ?_
  rw [peek?_lookup]
  split
  · rename_i h
    exact .inr ⟨h.2, rfl⟩
  · exact .inl rfl

end Memo

/-! ### Many look-ups -/

/-- The literals of a list that a memory knows nothing of, each once. -/
def unknown (peek? : String → Option (Option ClassRule)) (literals : List String) : List String :=
  literals.dedup.filter fun literal => (peek? literal).isNone

theorem mem_unknown {peek? : String → Option (Option ClassRule)} {literals : List String}
    {literal : String} :
    literal ∈ unknown peek? literals ↔ literal ∈ literals ∧ peek? literal = none := by
  rw [unknown, List.mem_filter, List.mem_dedup, Option.isNone_iff_eq_none]

theorem nodup_unknown (peek? : String → Option (Option ClassRule)) (literals : List String) :
    (unknown peek? literals).Nodup :=
  (List.nodup_dedup literals).filter _

theorem length_eq_unknown {peek? : String → Option (Option ClassRule)} {literals new : List String}
    (hnodup : new.Nodup)
    (hmem : ∀ literal, literal ∈ new ↔ literal ∈ literals ∧ peek? literal = none) :
    new.length = (unknown peek? literals).length := by
  refine ((List.perm_ext_iff_of_nodup hnodup (nodup_unknown peek? literals)).mpr ?_).length_eq
  exact fun literal => (hmem literal).trans mem_unknown.symm

/-- What a memory shows of itself. -/
structure MemoView where
  peek? : String → Option (Option ClassRule)
  stats : MemoStats

/-- What look-ups of some literals come to, in whatever order they are made. -/
structure LookedUp (compute : String → Option ClassRule) (literals : List String)
    (before after : MemoView) : Prop where
  peek?_eq : ∀ literal, after.peek? literal =
    if literal ∈ literals then some (answerOf compute before.peek? literal)
    else before.peek? literal
  total_eq : after.stats.hits + after.stats.misses =
    before.stats.hits + before.stats.misses + literals.length
  misses_eq : after.stats.misses =
    before.stats.misses + (unknown before.peek? literals).length
  entries_eq : after.stats.entries =
    before.stats.entries + (unknown before.peek? literals).length

theorem LookedUp.unique {compute : String → Option ClassRule} {literals : List String}
    {before after after' : MemoView} (h : LookedUp compute literals before after)
    (h' : LookedUp compute literals before after') : after = after' := by
  have hpeek : after.peek? = after'.peek? :=
    funext fun literal => (h.peek?_eq literal).trans (h'.peek?_eq literal).symm
  have hmisses := h.misses_eq.trans h'.misses_eq.symm
  have hentries := h.entries_eq.trans h'.entries_eq.symm
  have htotal := h.total_eq.trans h'.total_eq.symm
  obtain ⟨_, hits, misses, entries⟩ := after
  obtain ⟨_, hits', misses', entries'⟩ := after'
  dsimp only at hpeek hmisses hentries htotal
  obtain rfl : hits = hits' := by omega
  rw [hpeek, hmisses, hentries]

namespace LookedUp

variable {compute : String → Option ClassRule} {literals more : List String}
  {first second third : MemoView}

theorem answerOf_eq (h : LookedUp compute literals first second) :
    answerOf compute second.peek? = answerOf compute first.peek? := by
  funext literal
  rw [answerOf, h.peek?_eq]
  split <;> rfl

theorem append (h : LookedUp compute literals first second)
    (h' : LookedUp compute more second third) :
    LookedUp compute (literals ++ more) first third := by
  have hnew : (unknown first.peek? literals ++ unknown second.peek? more).length =
      (unknown first.peek? (literals ++ more)).length := by
    have hsecond : ∀ t, second.peek? t = none ↔ t ∉ literals ∧ first.peek? t = none := by
      intro t
      rw [h.peek?_eq]
      by_cases ht : t ∈ literals
      · simp [ht]
      · simp [ht]
    refine length_eq_unknown (List.nodup_append.mpr ⟨nodup_unknown _ _, nodup_unknown _ _, ?_⟩) ?_
    · intro t ht u hu heq
      have hnone := (hsecond u).mp (mem_unknown.mp hu).2
      exact hnone.1 (heq ▸ (mem_unknown.mp ht).1)
    · intro t
      rw [List.mem_append, List.mem_append, mem_unknown, mem_unknown, hsecond]
      by_cases ht : t ∈ literals
      · simp [ht]
      · simp [ht]
  rw [List.length_append] at hnew
  refine ⟨fun t => ?_, ?_, ?_, ?_⟩
  · rw [h'.peek?_eq, h.answerOf_eq, h.peek?_eq]
    by_cases ht : t ∈ literals
    · simp [ht]
    · simp [ht]
  · rw [h'.total_eq, h.total_eq, List.length_append, Nat.add_assoc]
  · rw [h'.misses_eq, h.misses_eq, Nat.add_assoc, hnew]
  · rw [h'.entries_eq, h.entries_eq, Nat.add_assoc, hnew]

end LookedUp

namespace Memo

def view (m : Memo) : MemoView :=
  ⟨m.peek?, m.stats⟩

/-- The memo after some look-ups, one after the other. -/
def lookedUp (m : Memo) (compute : String → Option ClassRule) (literals : List String) : Memo :=
  literals.foldl (fun m literal => (m.lookup literal fun _ => compute literal).2) m

variable {compute : String → Option ClassRule}

theorem lookup_view {m : Memo} (h : m.enabled = true) (literal : String) :
    LookedUp compute [literal] m.view (m.lookup literal fun _ => compute literal).2.view := by
  have hpeek : ∀ t, (m.lookup literal fun _ => compute literal).2.peek? t =
      if t ∈ [literal] then some (answerOf compute m.peek? t) else m.peek? t := by
    intro t
    rw [peek?_lookup]
    by_cases ht : t = literal
    · simp [h, ht]
    · simp [ht]
  have hstats : (m.lookup literal fun _ => compute literal).2.stats = _ :=
    m.stats_lookup literal fun _ => compute literal
  cases hknown : m.peek? literal with
  | some result =>
      have hunknown : unknown m.peek? [literal] = [] := by simp [unknown, hknown]
      rw [hknown, Option.isSome_some, if_pos rfl] at hstats
      refine ⟨hpeek, ?_, ?_, ?_⟩
      all_goals
        simp only [view, hstats, hunknown, List.length_cons, List.length_nil]
        omega
  | none =>
      have hunknown : unknown m.peek? [literal] = [literal] := by simp [unknown, hknown]
      rw [hknown, Option.isSome_none, if_neg Bool.false_ne_true, if_pos h] at hstats
      refine ⟨hpeek, ?_, ?_, ?_⟩
      all_goals simp only [view, hstats, hunknown, List.length_cons, List.length_nil]
      omega

/-- **Look-ups one after the other.** -/
theorem lookedUp_view {m : Memo} (h : m.enabled = true) (literals : List String) :
    LookedUp compute literals m.view (m.lookedUp compute literals).view := by
  induction literals generalizing m with
  | nil => exact ⟨fun _ => rfl, rfl, rfl, rfl⟩
  | cons literal literals ih =>
      have hrest := ih ((enabled_lookup m compute literal).trans h)
      exact (lookup_view h literal).append hrest

end Memo

end AtomicCss
