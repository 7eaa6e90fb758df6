/-
Finite maps whose entries are listed in the order of their keys.

Categories, tokens, names and files are all reported in key order, and two maps
with the same look-ups have to be equal as values: a configuration that resolves
to the same theme must be recognised as unchanged.  So a map is its list of
entries, strictly ascending by key, and the order is a field of the type.
-/
namespace AtomicCss

/-- A finite map from `κ` to `α`, listed in strictly ascending key order. -/
@[ext] structure SortedMap (κ α : Type) [Ord κ] where
  /-- The entries, smallest key first. -/
  entries : List (κ × α)
  /-- Each key is smaller than all later ones. -/
  sorted : entries.Pairwise fun a b => compare a.1 b.1 = .lt

namespace SortedMap

variable {κ α : Type} [Ord κ]

instance [DecidableEq κ] [DecidableEq α] : DecidableEq (SortedMap κ α) := fun a b =>
  decidable_of_iff (a.entries = b.entries) SortedMap.ext_iff.symm

/-- The map without entries. -/
def empty : SortedMap κ α := ⟨[], .nil⟩

instance : Inhabited (SortedMap κ α) := ⟨empty⟩

instance : EmptyCollection (SortedMap κ α) := ⟨empty⟩

/-- The value of the entry with key `k`, in a list of entries. -/
def valueAt? (k : κ) : List (κ × α) → Option α
  | [] => none
  | (k', v) :: rest => if compare k k' = .eq then some v else valueAt? k rest

/-- The value at `k`. -/
def find? (m : SortedMap κ α) (k : κ) : Option α :=
  valueAt? k m.entries

@[simp] theorem find?_empty (k : κ) : (∅ : SortedMap κ α).find? k = none := rfl

/-- Whether `k` has an entry. -/
def contains (m : SortedMap κ α) (k : κ) : Bool :=
  (m.find? k).isSome

/-- The keys, in ascending order. -/
def keys (m : SortedMap κ α) : List κ :=
  m.entries.map (·.1)

/-- Whether the map has no entry. -/
def isEmpty (m : SortedMap κ α) : Bool :=
  m.entries.isEmpty

/-- Keeps the entries that satisfy `p`. -/
def filter (p : κ → α → Bool) (m : SortedMap κ α) : SortedMap κ α :=
  ⟨m.entries.filter fun e => p e.1 e.2, m.sorted.filter _⟩

/-- The map without an entry at `k`. -/
def erase (m : SortedMap κ α) (k : κ) : SortedMap κ α :=
  m.filter fun k' _ => compare k k' != .eq

theorem valueAt?_eraseKey [Std.LawfulEqOrd κ] (k k₀ : κ)
    (l : List (κ × α)) :
    valueAt? k₀ (l.filter fun e => compare k e.1 != .eq) =
      if compare k₀ k = .eq then none else valueAt? k₀ l := by
  induction l with
  | nil => simp [valueAt?]
  | cons hd rest ih =>
    obtain ⟨k', v'⟩ := hd
    simp only [List.filter_cons, valueAt?]
    by_cases h : k = k'
    · subst h
      by_cases h₁ : compare k₀ k = .eq <;> simp [ih, h₁]
    · by_cases h₁ : k₀ = k'
      · subst h₁
        simp [valueAt?, h, Ne.symm h]
      · simp [valueAt?, h, h₁, ih]

/-- Only the erased key loses its value. -/
theorem find?_erase [Std.LawfulEqOrd κ] (m : SortedMap κ α) (k k₀ : κ) :
    (m.erase k).find? k₀ = if compare k₀ k = .eq then none else m.find? k₀ :=
  valueAt?_eraseKey k k₀ m.entries

/-- Puts an entry into its place, in place of one with an equal key. -/
def insertEntry (k : κ) (v : α) : List (κ × α) → List (κ × α)
  | [] => [(k, v)]
  | (k', v') :: rest =>
    match compare k k' with
    | .lt => (k, v) :: (k', v') :: rest
    | .eq => (k, v) :: rest
    | .gt => (k', v') :: insertEntry k v rest

theorem mem_insertEntry {k : κ} {v : α} {e : κ × α} {l : List (κ × α)}
    (h : e ∈ insertEntry k v l) : e = (k, v) ∨ e ∈ l := by
  induction l with
  | nil => simpa [insertEntry] using h
  | cons hd rest ih =>
    obtain ⟨k', v'⟩ := hd
    rw [insertEntry] at h
    split at h
    · simpa using h
    · rcases List.mem_cons.mp h with h | h
      · exact .inl h
      · exact .inr (List.mem_cons_of_mem _ h)
    · rcases List.mem_cons.mp h with h | h
      · exact .inr (h ▸ List.mem_cons_self)
      · exact (ih h).imp id (List.mem_cons_of_mem _)

theorem valueAt?_insertEntry [Std.LawfulEqOrd κ] (k k₀ : κ) (v : α) (l : List (κ × α)) :
    valueAt? k₀ (insertEntry k v l) =
      if compare k₀ k = .eq then some v else valueAt? k₀ l := by
  induction l with
  | nil => simp [insertEntry, valueAt?]
  | cons hd rest ih =>
    obtain ⟨k', v'⟩ := hd
    rw [insertEntry]
    split
    · simp [valueAt?]
    · rename_i heq
      have hk : k = k' := Std.LawfulEqCmp.compare_eq_iff_eq.mp heq
      subst hk
      by_cases h : compare k₀ k = .eq <;> simp [valueAt?, h]
    · rename_i hgt
      by_cases h : compare k₀ k' = .eq
      · have hk : k₀ = k' := Std.LawfulEqCmp.compare_eq_iff_eq.mp h
        subst hk
        have hne : compare k₀ k ≠ .eq := by
          intro hc
          rw [Std.LawfulEqCmp.compare_eq_iff_eq.mp hc] at hgt
          simp at hgt
        simp [valueAt?, hne]
      · simp [valueAt?, h, ih]

variable [Std.TransOrd κ]

theorem sorted_insertEntry (k : κ) (v : α) {l : List (κ × α)}
    (h : l.Pairwise fun a b => compare a.1 b.1 = .lt) :
    (insertEntry k v l).Pairwise fun a b => compare a.1 b.1 = .lt := by
  induction l with
  | nil => simp [insertEntry]
  | cons hd rest ih =>
    obtain ⟨k', v'⟩ := hd
    obtain ⟨hall, hrest⟩ := List.pairwise_cons.mp h
    rw [insertEntry]
    split
    · rename_i hlt
      refine List.pairwise_cons.mpr ⟨fun e he => ?_, h⟩
      rcases List.mem_cons.mp he with rfl | he
      · exact hlt
      · exact Std.TransCmp.lt_trans hlt (hall e he)
    · rename_i heq
      refine List.pairwise_cons.mpr ⟨fun e he => ?_, hrest⟩
      exact Std.TransCmp.lt_of_eq_of_lt heq (hall e he)
    · rename_i hgt
      refine List.pairwise_cons.mpr ⟨fun e he => ?_, ih hrest⟩
      rcases mem_insertEntry he with rfl | he
      · exact Std.OrientedCmp.gt_iff_lt.mp hgt
      · exact hall e he

/-- Puts `v` at `k`, in place of an earlier value there. -/
def insert (m : SortedMap κ α) (k : κ) (v : α) : SortedMap κ α :=
  ⟨insertEntry k v m.entries, sorted_insertEntry k v m.sorted⟩

/-- The map of a list of entries; of two with one key the later counts. -/
def ofList (es : List (κ × α)) : SortedMap κ α :=
  es.foldl (fun m e => m.insert e.1 e.2) ∅

/-- All entries of both maps; where both have one, that of `b` counts. -/
def merge (a b : SortedMap κ α) : SortedMap κ α :=
  b.entries.foldl (fun m e => m.insert e.1 e.2) a

/-- An insertion is seen at its key and nowhere else. -/
theorem find?_insert [Std.LawfulEqOrd κ] (m : SortedMap κ α) (k k₀ : κ) (v : α) :
    (m.insert k v).find? k₀ = if compare k₀ k = .eq then some v else m.find? k₀ :=
  valueAt?_insertEntry k k₀ v m.entries

end SortedMap

/-- A set of names, listed in ascending order. -/
abbrev NameSet := SortedMap String Unit

namespace NameSet

/-- The set of the names in a list. -/
def ofNames (names : List String) : NameSet :=
  SortedMap.ofList (names.map (·, ()))

/-- The names, in ascending order. -/
def names (s : NameSet) : List String :=
  s.keys

/-- The names of either set. -/
def union (a b : NameSet) : NameSet :=
  a.merge b

end NameSet

end AtomicCss
