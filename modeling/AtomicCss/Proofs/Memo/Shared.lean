/-
The slots of a shared memo.

Every literal has one slot, because a slot is put in only where there is none, and it keeps its
number.  So whoever holds a slot of a literal holds the slot that everybody else finds for it,
and putting in an empty slot changes nothing of what is remembered.
-/
import AtomicCss.Memo.Shared
import AtomicCss.Proofs.Memo
import Mathlib.Data.List.Nodup

namespace AtomicCss

/-! ### Slots -/

namespace SharedMemo

variable (m : SharedMemo) {literal other : String} {slot : Nat}

theorem peek?_of_notMem (h : literal ∉ m.literals) : m.peek? literal = none := by
  have hlength : m.slots.length = m.slotOf literal := by
    rw [slotOf, List.idxOf_eq_length h, m.paired]
  rw [peek?, resultAt?, List.getElem?_eq_none (Nat.le_of_eq hlength)]
  rfl

theorem slotOf_eq (h : m.literals[slot]? = some literal) : m.slotOf literal = slot := by
  obtain ⟨hslot, rfl⟩ := List.getElem?_eq_some_iff.mp h
  exact m.distinct.idxOf_getElem slot hslot

theorem getElem?_slotOf (h : literal ∈ m.literals) :
    m.literals[m.slotOf literal]? = some literal := by
  have hslot : m.slotOf literal < m.literals.length := List.idxOf_lt_length_iff.mpr h
  rw [List.getElem?_eq_getElem hslot]
  exact congrArg some (List.getElem_idxOf hslot)

theorem slotOf_eq_iff (h : m.literals[slot]? = some literal) :
    m.slotOf other = slot ↔ other = literal := by
  constructor
  · intro heq
    obtain ⟨hslot, -⟩ := List.getElem?_eq_some_iff.mp h
    have hother := m.getElem?_slotOf (List.idxOf_lt_length_iff.mp (heq ▸ hslot))
    rw [heq, h] at hother
    exact (Option.some.inj hother).symm
  · rintro rfl
    exact m.slotOf_eq h

theorem slots_eq : m.slots = m.literals.map m.peek? := by
  refine List.ext_getElem (by rw [List.length_map, m.paired]) fun i hi hi' => ?_
  rw [List.length_map] at hi'
  have hslot : m.slotOf m.literals[i] = i := m.slotOf_eq (List.getElem?_eq_getElem hi')
  rw [List.getElem_map, peek?, hslot, resultAt?, List.getElem?_eq_getElem hi]
  rfl

/-- There are as many entries as literals that something is remembered of. -/
theorem exists_committed : ∃ committed : List String, committed.Nodup ∧
    (∀ literal, literal ∈ committed ↔ (m.peek? literal).isSome) ∧
    m.stats.entries = committed.length := by
  refine ⟨m.literals.filter fun literal => (m.peek? literal).isSome, m.distinct.filter _,
    fun literal => ?_, ?_⟩
  · rw [List.mem_filter]
    refine and_iff_right_of_imp fun hsome => ?_
    by_contra hnew
    rw [m.peek?_of_notMem hnew] at hsome
    cases hsome
  · show m.slots.countP Option.isSome = _
    rw [slots_eq, List.countP_map, List.countP_eq_length_filter]
    rfl

/-! ### Finding a slot -/

theorem getElem?_reserve (h : m.literals[slot]? = some other) :
    (m.reserve literal).2.literals[slot]? = some other := by
  unfold reserve
  split
  · exact h
  · obtain ⟨hslot, -⟩ := List.getElem?_eq_some_iff.mp h
    show (m.literals ++ [literal])[slot]? = some other
    rw [List.getElem?_append_left hslot, h]

theorem getElem?_reserve_fst (literal : String) :
    (m.reserve literal).2.literals[(m.reserve literal).1]? = some literal := by
  unfold reserve
  split
  · rename_i hmem
    exact m.getElem?_slotOf hmem
  · show (m.literals ++ [literal])[m.slots.length]? = some literal
    rw [m.paired, List.getElem?_concat_length]

theorem peek?_reserve (literal : String) : (m.reserve literal).2.peek? = m.peek? := by
  funext other
  unfold reserve
  split
  · rfl
  · rename_i hnew
    show (m.slots ++ [none])[(m.literals ++ [literal]).idxOf other]?.join = m.peek? other
    by_cases hother : other ∈ m.literals
    · have hslot : m.literals.idxOf other < m.slots.length := by
        rw [m.paired]
        exact List.idxOf_lt_length_iff.mpr hother
      rw [List.idxOf_append_of_mem hother, List.getElem?_append_left hslot]
      rfl
    · -- Nobody has filled the slot: it is the new one, or there is none.
      rw [m.peek?_of_notMem hother, List.idxOf_append_of_notMem hother,
        ← m.paired, List.getElem?_append_right (Nat.le_add_right _ _), Nat.add_sub_cancel_left]
      cases List.idxOf other [literal] <;> rfl

theorem stats_reserve (literal : String) : (m.reserve literal).2.stats = m.stats := by
  unfold reserve
  split
  · rfl
  · simp [stats]

/-! ### Filling a slot -/

variable {m}

theorem peek?_fill (h : m.literals[slot]? = some literal) (result : Option ClassRule)
    (other : String) :
    (m.fill slot result).peek? other = if other = literal then some result else m.peek? other := by
  obtain ⟨hslot, -⟩ := List.getElem?_eq_some_iff.mp h
  show (m.slots.set slot (some result))[m.slotOf other]?.join = _
  rw [List.getElem?_set]
  by_cases hother : other = literal
  · rw [if_pos ((m.slotOf_eq_iff h).mpr hother).symm, if_pos hother, if_pos (m.paired ▸ hslot)]
    rfl
  · rw [if_neg fun heq => hother ((m.slotOf_eq_iff h).mp heq.symm), if_neg hother]
    rfl

theorem stats_fill (h : m.literals[slot]? = some literal) (hempty : m.peek? literal = none)
    (result : Option ClassRule) :
    (m.fill slot result).stats = { m.stats with entries := m.stats.entries + 1 } := by
  obtain ⟨hslot, -⟩ := List.getElem?_eq_some_iff.mp h
  rw [← m.paired] at hslot
  have hnone : m.slots[slot] = none := by
    rw [peek?, m.slotOf_eq h, resultAt?, List.getElem?_eq_getElem hslot] at hempty
    exact hempty
  show MemoStats.mk _ _ ((m.slots.set slot (some result)).countP Option.isSome) = _
  rw [List.countP_set hslot, hnone]
  rfl

theorem settle_eq (h : m.literals[slot]? = some literal) (compute : Unit → Option ClassRule) :
    m.settle slot compute =
      match m.peek? literal with
      | some result => (result, false, m)
      | none => (compute (), true, m.fill slot (compute ())) := by
  have hread : m.resultAt? slot = m.peek? literal := by rw [peek?, m.slotOf_eq h]
  cases hpeek : m.peek? literal <;> simp only [settle, hread, hpeek]

/-- A memo before and after some steps: slots stay where they are, and it has learned. -/
structure Grows (compute : String → Option ClassRule) (before after : SharedMemo) : Prop where
  slot : ∀ (slot : Nat) (literal : String), before.literals[slot]? = some literal →
    after.literals[slot]? = some literal
  learns : Learns compute before.peek? after.peek?

theorem Grows.refl {compute : String → Option ClassRule} : Grows compute m m :=
  ⟨fun _ _ h => h, .refl⟩

theorem Grows.trans {compute : String → Option ClassRule} {m₁ m₂ m₃ : SharedMemo}
    (h : Grows compute m₁ m₂) (h' : Grows compute m₂ m₃) : Grows compute m₁ m₃ :=
  ⟨fun slot literal hslot => h'.slot slot literal (h.slot slot literal hslot),
    h.learns.trans h'.learns⟩

def view (m : SharedMemo) : MemoView :=
  ⟨m.peek?, m.stats⟩

end SharedMemo

/-! ### Sharing a memo -/

namespace Memo

/-- A memo with its results in slots. -/
def shared (m : Memo) : SharedMemo where
  literals := m.results.toList.map Prod.fst
  slots := m.results.toList.map fun entry => some entry.2
  distinct := by
    refine List.pairwise_map.mpr (m.results.distinct_keys_toList.imp fun {a b} hne heq => ?_)
    simp [heq] at hne
  paired := by rw [List.length_map, List.length_map]
  hits := m.hits
  misses := m.misses

/-- **Every memo can be shared as it is.** -/
theorem view_shared (m : Memo) : m.shared.view = m.view := by
  have hpeek : m.shared.peek? = m.peek? := by
    funext literal
    cases hresult : m.peek? literal with
    | none =>
        refine m.shared.peek?_of_notMem fun hmem => ?_
        obtain ⟨entry, hentry, rfl⟩ := List.mem_map.mp hmem
        have hsome := Std.HashMap.mem_toList_iff_getElem?_eq_some.mp hentry
        cases (show m.results[entry.1]? = none from hresult).symm.trans hsome
    | some result =>
        have hentry := Std.HashMap.mem_toList_iff_getElem?_eq_some.mpr hresult
        obtain ⟨i, hi, hget⟩ := List.getElem_of_mem hentry
        have hslot : m.shared.slotOf literal = i := by
          refine m.shared.slotOf_eq ?_
          show (m.results.toList.map Prod.fst)[i]? = some literal
          rw [List.getElem?_map, List.getElem?_eq_getElem hi, hget]
          rfl
        rw [SharedMemo.peek?, hslot, SharedMemo.resultAt?]
        show (m.results.toList.map fun entry => some entry.2)[i]?.join = some result
        rw [List.getElem?_map, List.getElem?_eq_getElem hi, hget]
        rfl
  have hentries : m.shared.slots.countP Option.isSome = m.results.size := by
    show (m.results.toList.map fun entry => some entry.2).countP Option.isSome = _
    rw [List.countP_map, ← Std.HashMap.length_toList, List.countP_eq_length]
    exact fun _ _ => rfl
  show MemoView.mk _ (MemoStats.mk _ _ _) = _
  rw [hpeek, hentries]
  rfl

end Memo

end AtomicCss
