/-
The entries of a sorted map.

Looking up and listing agree: a look-up finds exactly what stands in the list, and
insertions bring nothing into it but what they insert.  So a map is known by its look-ups, and
every operation on maps is described by what can be looked up after it.

A loop over the entries of a map meets each key once.  If each of its steps changes the map it
builds at no key but its own, what the loop leaves at a key is what the one step for it does.
-/
import AtomicCss.Proofs.Distinct
import AtomicCss.Proofs.Fallible
import AtomicCss.SortedMap
import Mathlib.Data.List.Sort

namespace AtomicCss.SortedMap

variable {κ α : Type} [Ord κ] [Std.LawfulEqOrd κ]

theorem mem_of_valueAt? {k : κ} {v : α} {l : List (κ × α)} (h : valueAt? k l = some v) :
    (k, v) ∈ l := by
  induction l with
  | nil => simp [valueAt?] at h
  | cons hd rest ih =>
      obtain ⟨k', v'⟩ := hd
      rw [valueAt?] at h
      split at h
      · rename_i heq
        obtain rfl : k = k' := Std.LawfulEqCmp.compare_eq_iff_eq.mp heq
        obtain rfl : v' = v := Option.some.inj h
        exact List.mem_cons_self
      · exact List.mem_cons_of_mem _ (ih h)

theorem mem_of_find? {m : SortedMap κ α} {k : κ} {v : α} (h : m.find? k = some v) :
    (k, v) ∈ m.entries :=
  mem_of_valueAt? h

theorem valueAt?_of_mem {k : κ} {v : α} {l : List (κ × α)}
    (hsorted : l.Pairwise fun a b => compare a.1 b.1 = .lt) (h : (k, v) ∈ l) :
    valueAt? k l = some v := by
  induction l with
  | nil => cases h
  | cons hd rest ih =>
      obtain ⟨k', v'⟩ := hd
      obtain ⟨hlt, hrest⟩ := List.pairwise_cons.mp hsorted
      rw [valueAt?]
      rcases List.mem_cons.mp h with heq | hmem
      · cases heq
        rw [if_pos Std.ReflCmp.compare_self]
      · -- Keys ascend, so no earlier entry has the same key.
        have hne : compare k k' ≠ .eq := by
          intro heq
          obtain rfl : k = k' := Std.LawfulEqCmp.compare_eq_iff_eq.mp heq
          have hself : compare k k = .lt := hlt (k, v) hmem
          rw [Std.ReflOrd.compare_self] at hself
          cases hself
        rw [if_neg hne]
        exact ih hrest hmem

theorem find?_of_mem {m : SortedMap κ α} {k : κ} {v : α} (h : (k, v) ∈ m.entries) :
    m.find? k = some v :=
  valueAt?_of_mem m.sorted h

theorem mem_entries_iff {m : SortedMap κ α} {k : κ} {v : α} :
    (k, v) ∈ m.entries ↔ m.find? k = some v :=
  ⟨find?_of_mem, mem_of_find?⟩

theorem mem_keys_iff {m : SortedMap κ α} {k : κ} : k ∈ m.keys ↔ m.contains k = true := by
  unfold keys contains
  rw [List.mem_map, Option.isSome_iff_exists]
  constructor
  · rintro ⟨⟨k, v⟩, hmem, rfl⟩
    exact ⟨v, find?_of_mem hmem⟩
  · rintro ⟨v, hv⟩
    exact ⟨(k, v), mem_of_find? hv, rfl⟩

theorem valueAt?_eq_none {k : κ} {l : List (κ × α)} (h : ∀ e ∈ l, compare k e.1 = .lt) :
    valueAt? k l = none := by
  by_contra hfound
  obtain ⟨v, hv⟩ := Option.ne_none_iff_exists'.mp hfound
  have hself : compare k k = .lt := h (k, v) (mem_of_valueAt? hv)
  rw [Std.ReflOrd.compare_self] at hself
  cases hself

variable [Std.TransOrd κ]

/-- **Maps with the same look-ups are equal.** -/
theorem ext_find? {a b : SortedMap κ α} (h : ∀ k, a.find? k = b.find? k) : a = b := by
  apply SortedMap.ext
  refine eq_of_mem_iff (fun x y hlt hgt => ?_) a.sorted b.sorted ?_
  · rw [Std.OrientedCmp.gt_iff_lt.mpr hgt] at hlt
    cases hlt
  · rintro ⟨k, v⟩
    rw [mem_entries_iff, mem_entries_iff, h]

omit [Std.LawfulEqOrd κ] in
theorem mem_insert {m : SortedMap κ α} {k : κ} {v : α} {e : κ × α}
    (h : e ∈ (m.insert k v).entries) : e = (k, v) ∨ e ∈ m.entries :=
  mem_insertEntry h

omit [Std.LawfulEqOrd κ] in
theorem mem_ofList {es : List (κ × α)} {e : κ × α} (h : e ∈ (ofList es).entries) : e ∈ es := by
  have key : ∀ (es : List (κ × α)) (m : SortedMap κ α),
      e ∈ (es.foldl (fun m e => m.insert e.1 e.2) m).entries → e ∈ es ∨ e ∈ m.entries := by
    intro es
    induction es with
    | nil => intro m h; exact .inr h
    | cons x es ih =>
        intro m h
        rcases ih _ h with h | h
        · exact .inl (List.mem_cons_of_mem _ h)
        · rcases mem_insert h with rfl | h
          · exact .inl List.mem_cons_self
          · exact .inr h
  rcases key es ∅ h with h | h
  · exact h
  · cases h

/-! ### Loops over the entries of a map -/

omit [Std.TransOrd κ] in
/-- **A loop that changes one key at a time** leaves at each key what the step for that key
makes of the value before it. -/
theorem find?_foldlM {ε β : Type} {f : SortedMap κ β → κ × α → Except ε (SortedMap κ β)}
    {R : κ → α → Option β → Option β → Prop}
    (hown : ∀ m e next, f m e = .ok next → R e.1 e.2 (m.find? e.1) (next.find? e.1))
    (hother : ∀ m e next, f m e = .ok next → ∀ k, k ≠ e.1 → next.find? k = m.find? k) :
    ∀ {l : List (κ × α)} {m last : SortedMap κ β},
      (l.Pairwise fun a b => compare a.1 b.1 = .lt) → l.foldlM f m = .ok last → ∀ k,
        (valueAt? k l = none → last.find? k = m.find? k) ∧
          ∀ v, valueAt? k l = some v → R k v (m.find? k) (last.find? k) := by
  intro l
  induction l with
  | nil =>
      intro m last _ h k
      rw [pure_eq_ok.mp h]
      refine ⟨fun _ => rfl, fun v hv => ?_⟩
      cases hv
  | cons e l ih =>
      intro m last hsorted h k
      obtain ⟨hfirst, hrest⟩ := List.pairwise_cons.mp hsorted
      rw [List.foldlM_cons, bind_eq_ok] at h
      obtain ⟨next, hnext, hlast⟩ := h
      obtain ⟨habsent, hpresent⟩ := ih hrest hlast k
      rw [valueAt?]
      by_cases hk : k = e.1
      · -- The rest of the list has only greater keys, so the step for `e` is the last word.
        subst hk
        rw [if_pos Std.ReflOrd.compare_self, habsent (valueAt?_eq_none hfirst)]
        refine ⟨fun hv => ?_, fun v hv => ?_⟩
        · cases hv
        · rw [← Option.some.inj hv]
          exact hown m e next hnext
      · have hne : compare k e.1 ≠ .eq := fun h => hk (Std.LawfulEqCmp.compare_eq_iff_eq.mp h)
        rw [if_neg hne, ← hother m e next hnext k hk]
        exact ⟨habsent, hpresent⟩

theorem find?_insert_self (m : SortedMap κ α) (k : κ) (v : α) :
    (m.insert k v).find? k = some v := by
  rw [find?_insert, if_pos Std.ReflOrd.compare_self]

theorem find?_insert_of_ne (m : SortedMap κ α) {k k₀ : κ} (v : α) (h : k₀ ≠ k) :
    (m.insert k v).find? k₀ = m.find? k₀ := by
  have hne : compare k₀ k ≠ .eq := fun heq => h (Std.LawfulEqCmp.compare_eq_iff_eq.mp heq)
  rw [find?_insert, if_neg hne]

theorem find?_foldl_insert {l : List (κ × α)} (m : SortedMap κ α)
    (hsorted : l.Pairwise fun a b => compare a.1 b.1 = .lt) (k : κ) :
    (l.foldl (fun m e => m.insert e.1 e.2) m).find? k = (valueAt? k l).or (m.find? k) := by
  have hloop : l.foldlM (fun m e => .ok (m.insert e.1 e.2)) m =
      (.ok (l.foldl (fun m e => m.insert e.1 e.2) m) : Except Unit (SortedMap κ α)) :=
    List.foldlM_pure
  obtain ⟨habsent, hpresent⟩ := find?_foldlM (R := fun _ v _ new => new = some v)
    (fun m e next hnext => by rw [← Except.ok.inj hnext]; exact find?_insert_self m e.1 e.2)
    (fun m e next hnext k hk => by
      rw [← Except.ok.inj hnext]
      exact find?_insert_of_ne m e.2 hk) hsorted hloop k
  cases hfind : valueAt? k l with
  | none => rw [habsent hfind, Option.none_or]
  | some v => rw [hpresent v hfind, Option.some_or]

theorem find?_merge (a b : SortedMap κ α) (k : κ) :
    (a.merge b).find? k = (b.find? k).or (a.find? k) :=
  find?_foldl_insert a b.sorted k

/-- A map made of pairs of a key and its image finds the image of every listed key. -/
theorem find?_ofList_map [DecidableEq κ] (f : κ → α) (ks : List κ) (k : κ) :
    (ofList (ks.map fun k => (k, f k))).find? k = if k ∈ ks then some (f k) else none := by
  have key : ∀ (ks : List κ) (m : SortedMap κ α),
      ((ks.map fun k => (k, f k)).foldl (fun m e => m.insert e.1 e.2) m).find? k =
        if k ∈ ks then some (f k) else m.find? k := by
    intro ks
    induction ks with
    | nil => intro m; rfl
    | cons x ks ih =>
        intro m
        rw [List.map_cons, List.foldl_cons, ih]
        by_cases hmem : k ∈ ks
        · rw [if_pos hmem, if_pos (List.mem_cons_of_mem _ hmem)]
        · by_cases hx : k = x
          · subst hx
            rw [if_neg hmem, find?_insert_self, if_pos List.mem_cons_self]
          · rw [if_neg hmem, find?_insert_of_ne m _ hx, if_neg (by simp [hx, hmem])]
  exact key ks ∅

end AtomicCss.SortedMap

/-! ### Sets of names -/

namespace AtomicCss.NameSet

theorem contains_ofNames (names : List String) (name : String) :
    (ofNames names).contains name = true ↔ name ∈ names := by
  unfold ofNames SortedMap.contains
  rw [SortedMap.find?_ofList_map (fun _ => ())]
  by_cases h : name ∈ names <;> simp [h]

theorem ext_contains {a b : NameSet}
    (h : ∀ name, a.contains name = true ↔ b.contains name = true) : a = b := by
  apply SortedMap.ext_find?
  intro name
  have hname := h name
  unfold SortedMap.contains at hname
  cases ha : SortedMap.find? a name <;> cases hb : SortedMap.find? b name <;> simp_all

theorem contains_union (a b : NameSet) (name : String) :
    (a.union b).contains name = true ↔ a.contains name = true ∨ b.contains name = true := by
  unfold union SortedMap.contains
  rw [SortedMap.find?_merge, Option.isSome_or, Bool.or_eq_true, or_comm]

end AtomicCss.NameSet
