/-
What is left of a list when each key counts once.

`distinctOn` runs over the list with a hash set of the keys it has met and an array of
what it keeps.  `Kept` says what these two know after some elements, and each step keeps
it: the set holds exactly the keys met so far, and what is kept is a sublist in which
every key met stands once, in the order of its first occurrence.

The order is stated by `List.idxOf`, the place of a key's first occurrence among all
keys.  From it follows that no key is kept twice.  `firstOccurrences` says by the same places
which elements are kept, without running over the list.
-/
import AtomicCss.Distinct
import Mathlib.Data.List.Basic
import Mathlib.Data.List.Induction
import Mathlib.Data.List.Nodup

namespace AtomicCss

variable {α κ : Type} [BEq κ] [LawfulBEq κ] [Hashable κ] [LawfulHashable κ] {key : α → κ}

/-- What the fold knows after the elements `met`. -/
structure Kept (key : α → κ) (met : List α) (state : Std.HashSet κ × Array α) : Prop where
  /-- The set holds the keys met so far. -/
  known : ∀ k, state.1.contains k = true ↔ k ∈ met.map key
  sublist : state.2.toList.Sublist met
  /-- No key met is missing. -/
  covers : ∀ k ∈ met.map key, k ∈ state.2.toList.map key
  /-- Keys stand in the order of their first occurrences. -/
  ordered : (state.2.toList.map key).Pairwise fun a b =>
    (met.map key).idxOf a < (met.map key).idxOf b

namespace Kept

omit [LawfulBEq κ] [LawfulHashable κ] in
theorem nil : Kept key [] (∅, #[]) :=
  ⟨by simp, by simp, by simp, by simp⟩

omit [LawfulHashable κ] in
theorem skip {met : List α} {state : Std.HashSet κ × Array α} (h : Kept key met state)
    {x : α} (hx : state.1.contains (key x) = true) : Kept key (met ++ [x]) state := by
  have hmem : key x ∈ met.map key := (h.known _).mp hx
  have hsame : ∀ k, k ∈ (met ++ [x]).map key ↔ k ∈ met.map key := by
    intro k
    simp only [List.map_append, List.map_cons, List.map_nil, List.mem_append,
      List.mem_singleton]
    exact ⟨fun hk => hk.elim id fun hk => hk ▸ hmem, Or.inl⟩
  refine ⟨fun k => (h.known k).trans (hsame k).symm,
    h.sublist.trans (List.sublist_append_left _ _), fun k hk => h.covers k ((hsame k).mp hk), ?_⟩
  refine h.ordered.imp_of_mem fun {a b} ha hb hab => ?_
  have hsub : ∀ {k}, k ∈ state.2.toList.map key → k ∈ met.map key := fun hk =>
    (h.sublist.map key).subset hk
  rw [List.map_append, List.idxOf_append_of_mem (hsub ha), List.idxOf_append_of_mem (hsub hb)]
  exact hab

theorem push {met : List α} {state : Std.HashSet κ × Array α} (h : Kept key met state)
    {x : α} (hx : ¬ state.1.contains (key x) = true) :
    Kept key (met ++ [x]) (state.1.insert (key x), state.2.push x) := by
  have hnew : key x ∉ met.map key := fun hc => hx ((h.known _).mpr hc)
  have hsub : ∀ {k}, k ∈ state.2.toList.map key → k ∈ met.map key := fun hk =>
    (h.sublist.map key).subset hk
  refine ⟨?_, ?_, ?_, ?_⟩
  · intro k
    rw [Std.HashSet.contains_insert, Bool.or_eq_true, h.known k, List.map_append,
      List.mem_append, beq_iff_eq]
    simp [or_comm, eq_comm]
  · simpa using h.sublist.append (List.Sublist.refl [x])
  · intro k hk
    rw [List.map_append, List.mem_append] at hk
    rw [Array.toList_push, List.map_append, List.mem_append]
    exact hk.imp (h.covers k) id
  · rw [Array.toList_push, List.map_append, List.map_append, List.pairwise_append]
    refine ⟨?_, by simp, ?_⟩
    · refine h.ordered.imp_of_mem fun {a b} ha hb hab => ?_
      rwa [List.idxOf_append_of_mem (hsub ha), List.idxOf_append_of_mem (hsub hb)]
    · -- A key met before stands before the end, and the new key stands there.
      intro a ha b hb
      obtain rfl : b = key x := by simpa using hb
      rw [List.idxOf_append_of_mem (hsub ha), List.idxOf_append_of_notMem hnew]
      exact Nat.lt_of_lt_of_le (List.idxOf_lt_length_of_mem (hsub ha)) (Nat.le_add_right _ _)

theorem step {met : List α} {state : Std.HashSet κ × Array α} (h : Kept key met state)
    (x : α) : Kept key (met ++ [x]) (keepFirst key state x) := by
  unfold keepFirst
  by_cases hx : state.1.contains (key x) = true
  · rw [if_pos hx]
    exact h.skip hx
  · rw [if_neg hx]
    exact h.push hx

theorem fold : ∀ (xs : List α) {met : List α} {state : Std.HashSet κ × Array α},
    Kept key met state → Kept key (met ++ xs) (xs.foldl (keepFirst key) state) := by
  intro xs
  induction xs with
  | nil => intro met state h; simpa using h
  | cons x xs ih =>
      intro met state h
      have := ih (h.step x)
      rwa [List.append_assoc] at this

end Kept

/-! ### What the callers need to know -/

theorem kept_distinctOn (key : α → κ) (xs : List α) :
    ∃ seen, Kept key xs (seen, (distinctOn key xs).toArray) := by
  refine ⟨(xs.foldl (keepFirst key) (∅, #[])).1, ?_⟩
  have hnil : Kept key [] (∅, #[]) := Kept.nil
  simpa [distinctOn] using hnil.fold xs

theorem distinctOn_sublist (key : α → κ) (xs : List α) : (distinctOn key xs).Sublist xs := by
  obtain ⟨seen, h⟩ := kept_distinctOn key xs
  simpa using h.sublist

/-- Keys stand in the order of their first occurrences. -/
theorem distinctOn_ordered (key : α → κ) (xs : List α) :
    ((distinctOn key xs).map key).Pairwise fun a b =>
      (xs.map key).idxOf a < (xs.map key).idxOf b := by
  obtain ⟨seen, h⟩ := kept_distinctOn key xs
  simpa using h.ordered

theorem nodup_distinctOn (key : α → κ) (xs : List α) : ((distinctOn key xs).map key).Nodup :=
  (distinctOn_ordered key xs).imp fun {_ _} hlt heq => absurd (heq ▸ hlt) (Nat.lt_irrefl _)

theorem mem_keys_distinctOn {key : α → κ} {xs : List α} {k : κ} :
    k ∈ (distinctOn key xs).map key ↔ k ∈ xs.map key := by
  refine ⟨fun hk => ((distinctOn_sublist key xs).map key).subset hk, fun hk => ?_⟩
  obtain ⟨seen, h⟩ := kept_distinctOn key xs
  simpa using h.covers k hk

theorem distinctOn_eq_self {key : α → κ} {xs : List α} (h : (xs.map key).Nodup) :
    distinctOn key xs = xs := by
  refine (distinctOn_sublist key xs).eq_of_length ?_
  have hperm : ((distinctOn key xs).map key).Perm (xs.map key) :=
    (List.perm_ext_iff_of_nodup (nodup_distinctOn key xs) h).mpr fun _ => mem_keys_distinctOn
  simpa using hperm.length_eq

omit [Hashable κ] [LawfulHashable κ] in
theorem find?_eq_some_iff_of_nodup {xs : List α} (h : (xs.map key).Nodup) {k : κ} {x : α} :
    xs.find? (key · == k) = some x ↔ x ∈ xs ∧ key x = k := by
  constructor
  · intro hfind
    exact ⟨List.mem_of_find?_eq_some hfind, by simpa using List.find?_some hfind⟩
  · rintro ⟨hx, rfl⟩
    obtain ⟨y, hy⟩ : ∃ y, xs.find? (key · == key x) = some y := by
      rw [← Option.isSome_iff_exists, List.find?_isSome]
      exact ⟨x, hx, by simp⟩
    have hkey : key y = key x := by simpa using List.find?_some hy
    rw [hy, List.inj_on_of_nodup_map h (List.mem_of_find?_eq_some hy) hx hkey]

/-- A list in a strict order is told by what is in it. -/
theorem eq_of_mem_iff {r : α → α → Prop} (hasymm : ∀ a b, r a b → ¬ r b a) {xs ys : List α}
    (hxs : xs.Pairwise r) (hys : ys.Pairwise r) (h : ∀ x, x ∈ xs ↔ x ∈ ys) : xs = ys := by
  have hnodup : ∀ {l : List α}, l.Pairwise r → l.Nodup := by
    intro l hl
    refine hl.imp ?_
    rintro a b hab rfl
    exact hasymm a a hab hab
  have hperm : xs.Perm ys := (List.perm_ext_iff_of_nodup (hnodup hxs) (hnodup hys)).mpr h
  exact hperm.eq_of_pairwise (fun a b _ _ hab hba => absurd hba (hasymm a b hab)) hxs hys

/-! ### First occurrences -/

theorem distinctOn_concat (key : α → κ) (xs : List α) (x : α) :
    distinctOn key (xs ++ [x]) =
      distinctOn key xs ++ if key x ∈ xs.map key then [] else [x] := by
  have hnil : Kept key [] (∅, #[]) := Kept.nil
  have hkept := hnil.fold xs
  rw [List.nil_append] at hkept
  simp only [distinctOn, List.foldl_append, List.foldl_cons, List.foldl_nil, keepFirst]
  by_cases hx : key x ∈ xs.map key
  · rw [if_pos ((hkept.known _).mpr hx), if_pos hx, List.append_nil]
  · rw [if_neg fun hc => hx ((hkept.known _).mp hc), if_neg hx, Array.toList_push]

theorem distinctOn_append (key : α → κ) (xs ys : List α) :
    distinctOn key (xs ++ ys) =
      distinctOn key xs ++ (distinctOn key ys).filter fun y => key y ∉ xs.map key := by
  induction ys using List.reverseRecOn with
  | nil => simp [distinctOn]
  | append_singleton ys y ih =>
      rw [← List.append_assoc, distinctOn_concat, ih, distinctOn_concat, List.filter_append,
        List.append_assoc, List.map_append, List.append_cancel_left_eq, List.append_cancel_left_eq]
      by_cases hys : key y ∈ ys.map key
      · rw [if_pos (List.mem_append_right _ hys), if_pos hys, List.filter_nil]
      · by_cases hxs : key y ∈ xs.map key
        · rw [if_pos (List.mem_append_left _ hxs), if_neg hys,
            List.filter_cons_of_neg (by simpa using hxs), List.filter_nil]
        · have hnew : key y ∉ xs.map key ++ ys.map key := by simp [hxs, hys]
          rw [if_neg hnew, if_neg hys, List.filter_cons_of_pos (by simpa using hxs), List.filter_nil]

/-- The elements of a list that stand where their key stands first. -/
def firstOccurrences (key : α → κ) (xs : List α) : List α :=
  (xs.zipIdx.filter fun e => (xs.map key).idxOf (key e.1) = e.2).map (·.1)

omit [Hashable κ] [LawfulHashable κ] in
theorem firstOccurrences_concat (key : α → κ) (xs : List α) (x : α) :
    firstOccurrences key (xs ++ [x]) =
      firstOccurrences key xs ++ if key x ∈ xs.map key then [] else [x] := by
  have hfront : (xs.zipIdx.filter fun e => ((xs ++ [x]).map key).idxOf (key e.1) = e.2) =
      xs.zipIdx.filter fun e => (xs.map key).idxOf (key e.1) = e.2 := by
    refine List.filter_congr fun e he => ?_
    have hmem : key e.1 ∈ xs.map key := List.mem_map_of_mem (List.fst_mem_of_mem_zipIdx he)
    rw [List.map_append, List.idxOf_append_of_mem hmem]
  have hlast : ((xs ++ [x]).map key).idxOf (key x) = xs.length ↔ key x ∉ xs.map key := by
    rw [List.map_append]
    by_cases hx : key x ∈ xs.map key
    · have hlt := List.idxOf_lt_length_of_mem hx
      rw [List.length_map] at hlt
      rw [List.idxOf_append_of_mem hx]
      exact ⟨fun heq => absurd heq (Nat.ne_of_lt hlt), fun hnew => absurd hx hnew⟩
    · rw [List.idxOf_append_of_notMem hx]
      simp [hx]
  rw [firstOccurrences, List.zipIdx_append, List.filter_append, List.map_append, hfront,
    firstOccurrences, List.append_cancel_left_eq]
  by_cases hx : key x ∈ xs.map key
  · rw [if_pos hx, List.filter_eq_nil_iff.mpr, List.map_nil]
    simpa [hx] using hlast
  · rw [if_neg hx, List.filter_eq_self.mpr]
    · simp
    · simpa [hx] using hlast

/-- **What is kept are the first occurrences.** -/
theorem distinctOn_eq_firstOccurrences (key : α → κ) (xs : List α) :
    distinctOn key xs = firstOccurrences key xs := by
  induction xs using List.reverseRecOn with
  | nil => rfl
  | append_singleton xs x ih => rw [distinctOn_concat, firstOccurrences_concat, ih]

theorem mem_distinctOn_iff {xs : List α} {x : α} :
    x ∈ distinctOn key xs ↔ xs.find? (key · == key x) = some x := by
  induction xs using List.reverseRecOn with
  | nil => simp [distinctOn]
  | append_singleton xs y ih =>
      rw [distinctOn_concat, List.mem_append, ih, List.find?_append, Option.or_eq_some_iff]
      refine or_congr Iff.rfl ?_
      have hnew : xs.find? (key · == key x) = none ↔ key x ∉ xs.map key := by
        simp [List.find?_eq_none, List.mem_map]
      rw [hnew]
      constructor
      · intro hx
        split at hx
        · cases hx
        · rename_i hy
          obtain rfl := List.mem_singleton.mp hx
          exact ⟨hy, by simp⟩
      · rintro ⟨hx, hfound⟩
        obtain rfl : y = x := List.mem_singleton.mp (List.mem_of_find?_eq_some hfound) |>.symm
        rw [if_neg hx]
        exact List.mem_singleton_self y

/-! ### Lists picked from one list -/

section Pick

variable {xs : List α} {tests : List (α → Bool)} {test : α → Bool} {x : α}

/-- A further test is not the first to pick what another one picks. -/
theorem findIdx?_concat_of_lt {n : Nat} (hn : n < tests.length) :
    (tests ++ [test]).findIdx? (fun test => test x) = some n ↔
      tests.findIdx? (fun test => test x) = some n := by
  rw [List.findIdx?_append]
  cases tests.findIdx? (fun test => test x) with
  | some m => rfl
  | none => cases hx : test x <;> simp [hx, Nat.ne_of_gt hn]

/-- It is the first to pick what it picks and no other test does. -/
theorem findIdx?_concat_length :
    (tests ++ [test]).findIdx? (fun test => test x) = some tests.length ↔
      test x = true ∧ ¬ ∃ earlier ∈ tests, earlier x = true := by
  rw [List.findIdx?_append]
  cases hfound : tests.findIdx? (fun test => test x) with
  | some m =>
      obtain ⟨hlt, hpick, -⟩ := List.findIdx?_eq_some_iff_getElem.mp hfound
      have hmet : ∃ earlier ∈ tests, earlier x = true := ⟨tests[m], List.getElem_mem hlt, hpick⟩
      simp [hmet, Nat.ne_of_lt hlt]
  | none =>
      have hmet : ¬ ∃ earlier ∈ tests, earlier x = true := by
        simpa using List.findIdx?_eq_none_iff.mp hfound
      cases hx : test x <;> simp [hx, hmet]

/-- Of what tests pick from a list one after the other, an element is kept where the first test
picks it. -/
theorem distinctOn_flatMap_filter (h : (xs.map key).Nodup) (tests : List (α → Bool)) :
    distinctOn key (tests.flatMap fun test => xs.filter test) =
      (List.range tests.length).flatMap fun n =>
        xs.filter fun x => tests.findIdx? (fun test => test x) = some n := by
  induction tests using List.reverseRecOn with
  | nil => rfl
  | append_singleton tests test ih =>
      have hpicked : distinctOn key (xs.filter test) = xs.filter test :=
        distinctOn_eq_self (h.sublist (List.filter_sublist.map key))
      have hnew : ∀ x ∈ xs, key x ∈ (tests.flatMap fun test => xs.filter test).map key ↔
          ∃ earlier ∈ tests, earlier x = true := by
        intro x hx
        simp only [List.mem_map, List.mem_flatMap, List.mem_filter]
        constructor
        · rintro ⟨y, ⟨earlier, hearlier, hy, hpick⟩, hkey⟩
          -- No two elements of the list have one key.
          obtain rfl := List.inj_on_of_nodup_map h hy hx hkey
          exact ⟨earlier, hearlier, hpick⟩
        · rintro ⟨earlier, hearlier, hpick⟩
          exact ⟨x, ⟨earlier, hearlier, hx, hpick⟩, rfl⟩
      have hlast : (xs.filter fun x =>
          (tests ++ [test]).findIdx? (fun test => test x) = some tests.length) =
          (xs.filter test).filter fun x =>
            key x ∉ (tests.flatMap fun test => xs.filter test).map key := by
        rw [List.filter_filter]
        refine List.filter_congr fun x hx => ?_
        rw [Bool.eq_iff_iff, decide_eq_true_iff, findIdx?_concat_length, ← hnew x hx,
          Bool.and_eq_true, decide_eq_true_iff, and_comm]
      rw [List.flatMap_append, distinctOn_append, ih, List.length_append, List.length_singleton,
        List.range_succ, List.flatMap_append, List.flatMap_singleton, List.flatMap_singleton,
        hpicked, hlast, List.append_cancel_right_eq]
      refine List.flatMap_congr fun n hn => List.filter_congr fun x _ => ?_
      simp only [findIdx?_concat_of_lt (List.mem_range.mp hn)]

end Pick

/-! ### Leaving out some keys

What is kept of a list does not change for the other keys when some keys are left out of it
beforehand: a key is either left out with all its elements or with none. -/

section Filter

variable {keep : κ → Bool}

/-- The set that the shorter list leaves behind: that of the longer one, less the keys that
are left out. -/
def Known (keep : κ → Bool) (whole part : Std.HashSet κ) : Prop :=
  ∀ k, part.contains k = (whole.contains k && keep k)

theorem Known.insert {whole part : Std.HashSet κ} (h : Known keep whole part) {k : κ}
    (hk : keep k = true) : Known keep (whole.insert k) (part.insert k) := by
  intro l
  rw [Std.HashSet.contains_insert, Std.HashSet.contains_insert, h l]
  by_cases hkl : k = l
  · subst hkl
    simp [hk]
  · rw [beq_false_of_ne hkl, Bool.false_or, Bool.false_or]

theorem Known.insert_left {whole part : Std.HashSet κ} (h : Known keep whole part) {k : κ}
    (hk : keep k = false) : Known keep (whole.insert k) part := by
  intro l
  rw [Std.HashSet.contains_insert, h l]
  by_cases hkl : k = l
  · subst hkl
    simp [hk]
  · rw [beq_false_of_ne hkl, Bool.false_or]

/-- Both lists are walked at once; an element that is left out moves only the longer one. -/
theorem foldl_keepFirst_filter (xs : List α) :
    ∀ {whole part : Std.HashSet κ × Array α}, Known keep whole.1 part.1 →
      part.2.toList = whole.2.toList.filter (fun x => keep (key x)) →
      ((xs.filter fun x => keep (key x)).foldl (keepFirst key) part).2.toList =
        (xs.foldl (keepFirst key) whole).2.toList.filter fun x => keep (key x) := by
  induction xs with
  | nil =>
      intro whole part _ hkept
      exact hkept
  | cons x xs ih =>
      intro whole part hknown hkept
      by_cases hx : keep (key x) = true
      · rw [List.filter_cons_of_pos (by exact hx), List.foldl_cons, List.foldl_cons]
        have hsame : part.1.contains (key x) = whole.1.contains (key x) := by
          rw [hknown, hx, Bool.and_true]
        simp only [keepFirst, hsame]
        by_cases hmet : whole.1.contains (key x) = true
        · rw [if_pos hmet, if_pos hmet]
          exact ih hknown hkept
        · rw [if_neg hmet, if_neg hmet]
          refine ih (hknown.insert hx) ?_
          simp [hkept, hx]
      · have hfalse : keep (key x) = false := by simpa using hx
        rw [List.filter_cons_of_neg (by exact hx), List.foldl_cons]
        simp only [keepFirst]
        by_cases hmet : whole.1.contains (key x) = true
        · rw [if_pos hmet]
          exact ih hknown hkept
        · rw [if_neg hmet]
          refine ih (hknown.insert_left hfalse) ?_
          simp [hkept, hfalse]

/-- Keys can be left out before or after. -/
theorem distinctOn_filter (key : α → κ) (keep : κ → Bool) (xs : List α) :
    distinctOn key (xs.filter fun x => keep (key x)) =
      (distinctOn key xs).filter fun x => keep (key x) := by
  refine foldl_keepFirst_filter xs ?_ ?_
  · intro k
    simp
  · simp

end Filter

end AtomicCss
