/-
The order of a stylesheet.

A stylesheet keeps the first of the rules that are given for one place, a place being a selector
under some media queries, and takes what it keeps category by category.  `Arranged` says what
comes of that without going through the list: each place has the first rule given for it, and
rules are ordered by category, then by where their places are given first.  There is only one
such list (`Arranged.unique`).

So a rule whose place was given before does not matter, and neither does the order in which
the categories are mixed, unless a place is given in two of them.  When no two of the given
rules share a place nothing is dropped, and the sheet is the given list regrouped.
-/
import AtomicCss.Proofs.Distinct
import AtomicCss.Rule
import AtomicCss.Sheet.Basic

namespace AtomicCss

namespace Category

variable {α : Type} {category : α → Category}

/-- A list category by category. -/
def grouped (category : α → Category) (xs : List α) : List α :=
  all.flatMap fun c => xs.filter (category · = c)

theorem perm_flatMap_filter {cs : List Category} (h : cs.Nodup) (xs : List α) :
    (cs.flatMap fun c => xs.filter (category · = c)).Perm (xs.filter (category · ∈ cs)) := by
  induction cs with
  | nil => simp
  | cons c cs ih =>
      obtain ⟨hc, hcs⟩ := List.nodup_cons.mp h
      have hfirst : (xs.filter (category · ∈ c :: cs)).filter (category · = c) =
          xs.filter (category · = c) := by
        rw [List.filter_filter]
        exact List.filter_congr fun x _ => by simp +contextual
      have hrest : (xs.filter (category · ∈ c :: cs)).filter (fun x => !decide (category x = c)) =
          xs.filter (category · ∈ cs) := by
        rw [List.filter_filter]
        refine List.filter_congr fun x _ => ?_
        by_cases hx : category x = c
        · simp [hx, hc]
        · simp [hx]
      have hsplit := List.filter_append_perm (fun x => decide (category x = c))
        (xs.filter (category · ∈ c :: cs))
      rw [hfirst, hrest] at hsplit
      exact ((ih hcs).append_left _).trans hsplit

theorem perm_grouped (xs : List α) : (grouped category xs).Perm xs := by
  have hall : xs.filter (category · ∈ all) = xs :=
    List.filter_eq_self.mpr fun x _ => decide_eq_true (mem_all (category x))
  have hnodup : all.Nodup := by decide
  have hperm : (grouped category xs).Perm (xs.filter (category · ∈ all)) :=
    perm_flatMap_filter hnodup xs
  rwa [hall] at hperm

/-- Regrouping orders by category, and within a category as before. -/
theorem pairwise_grouped {R : α → α → Prop} {xs : List α} (h : xs.Pairwise R) :
    (grouped category xs).Pairwise fun x y =>
      (category x).rank < (category y).rank ∨ category x = category y ∧ R x y := by
  have hall : all.Pairwise fun a b => a.rank < b.rank := by decide
  refine List.pairwise_flatMap.mpr ⟨fun c _ => ?_, hall.imp fun {a b} hab x hx y hy => ?_⟩
  · refine (h.sublist List.filter_sublist).imp_of_mem fun {x y} hx hy hxy => Or.inr ⟨?_, hxy⟩
    rw [of_decide_eq_true (List.mem_filter.mp hx).2, of_decide_eq_true (List.mem_filter.mp hy).2]
  · left
    rwa [of_decide_eq_true (List.mem_filter.mp hx).2, of_decide_eq_true (List.mem_filter.mp hy).2]

/-- What is left of a list when it is regrouped is left of the regrouped list. -/
theorem grouped_sublist {xs ys : List α} (h : xs.Sublist ys) :
    (grouped category xs).Sublist (grouped category ys) := by
  unfold grouped
  generalize all = cs
  induction cs with
  | nil => exact List.Sublist.refl _
  | cons c cs ih =>
      rw [List.flatMap_cons, List.flatMap_cons]
      exact (h.filter _).append ih

end Category

/-- The class rules of a list, category by category. -/
def ClassRule.byCategory (rules : List ClassRule) : List ClassRule :=
  Category.all.flatMap fun c => rules.filter (·.category = c)

namespace ClassRule

theorem perm_byCategory (rules : List ClassRule) : (byCategory rules).Perm rules :=
  Category.perm_grouped rules

theorem mem_byCategory {rules : List ClassRule} {r : ClassRule} :
    r ∈ byCategory rules ↔ r ∈ rules :=
  (perm_byCategory rules).mem_iff

theorem pairwise_byCategory {R : ClassRule → ClassRule → Prop} {rules : List ClassRule}
    (h : rules.Pairwise R) :
    (byCategory rules).Pairwise fun r s =>
      r.category.rank < s.category.rank ∨ r.category = s.category ∧ R r s :=
  Category.pairwise_grouped h

end ClassRule

/-- Where a rule applies: the media queries around it and its selector. -/
def Rule.place (r : Rule) : List String × String :=
  (r.wrappers, r.selector)

namespace Stylesheet

/-- Some rules in the order of a stylesheet, one for each place. -/
structure Arranged (given rules : List Rule) : Prop where
  /-- The rule of a place is the first one given for it. -/
  first : ∀ place, rules.find? (·.place == place) = given.find? (·.place == place)
  /-- No place has two rules. -/
  nodup : (rules.map Rule.place).Nodup
  /-- Rules are ordered by category, then by where their place is given first. -/
  ordered : rules.Pairwise fun r s =>
    r.category.rank < s.category.rank ∨
      r.category = s.category ∧
        (given.map Rule.place).idxOf r.place < (given.map Rule.place).idxOf s.place

theorem rules_ofRules_eq_grouped (style : Style) (given : List Rule) :
    (ofRules style given).rules =
      Category.grouped Rule.category (distinctOn Rule.place given) :=
  rfl

theorem rules_ofRules (style : Style) {rules : List ClassRule}
    (h : rules.Pairwise fun r s => r.selector ≠ s.selector) :
    (ofRules style (rules.map ClassRule.toRule)).rules =
      (ClassRule.byCategory rules).map ClassRule.toRule := by
  have hnodup : ((rules.map ClassRule.toRule).map fun r => (r.wrappers, r.selector)).Nodup := by
    rw [List.map_map, List.Nodup, List.pairwise_map]
    exact h.imp fun {r s} hne heq => hne (Prod.mk.inj heq).2
  simp only [ofRules, distinctOn_eq_self hnodup, ClassRule.byCategory, List.map_flatMap,
    List.filter_map]
  rfl

theorem arranged_ofRules (style : Style) (given : List Rule) :
    Arranged given (ofRules style given).rules := by
  have hperm : (ofRules style given).rules.Perm (distinctOn Rule.place given) :=
    Category.perm_grouped _
  have hnodup : ((ofRules style given).rules.map Rule.place).Nodup :=
    (hperm.map Rule.place).nodup_iff.mpr (nodup_distinctOn Rule.place given)
  refine ⟨fun place => Option.ext fun r => ?_, hnodup, ?_⟩
  · rw [find?_eq_some_iff_of_nodup hnodup, hperm.mem_iff, mem_distinctOn_iff]
    constructor
    · rintro ⟨hfirst, rfl⟩
      exact hfirst
    · intro hfirst
      have hplace : r.place = place := by simpa using List.find?_some hfirst
      exact ⟨hplace ▸ hfirst, hplace⟩
  · have hordered := List.pairwise_map.mp (distinctOn_ordered Rule.place given)
    exact Category.pairwise_grouped hordered

namespace Arranged

variable {given rules others : List Rule}

/-- What stands in a stylesheet was given first for its place. -/
theorem mem_iff (h : Arranged given rules) {r : Rule} :
    r ∈ rules ↔ given.find? (·.place == r.place) = some r := by
  rw [← h.first, find?_eq_some_iff_of_nodup h.nodup]
  simp

/-- What was given can be arranged in one way only. -/
theorem unique (h : Arranged given rules) (h' : Arranged given others) : rules = others := by
  refine eq_of_mem_iff (fun r s hrs hsr => ?_) h.ordered h'.ordered fun r => ?_
  · rcases hrs with hrs | ⟨hcategory, hrs⟩
    · rcases hsr with hsr | ⟨hcategory, -⟩
      · exact absurd hrs (Nat.lt_asymm hsr)
      · exact absurd hrs (hcategory ▸ Nat.lt_irrefl _)
    · rcases hsr with hsr | ⟨-, hsr⟩
      · exact absurd hsr (hcategory ▸ Nat.lt_irrefl _)
      · exact absurd hrs (Nat.lt_asymm hsr)
  · rw [h.mem_iff, h'.mem_iff]

end Arranged

/-! ### Other lists with the same sheet -/

variable {style : Style}

theorem ofRules_eq {given others : List Rule}
    (h : ∀ c, (distinctOn Rule.place given).filter (·.category = c) =
      (distinctOn Rule.place others).filter (·.category = c)) :
    ofRules style given = ofRules style others := by
  have hrules : (ofRules style given).rules = (ofRules style others).rules := by
    rw [rules_ofRules_eq_grouped, rules_ofRules_eq_grouped, Category.grouped, Category.grouped]
    exact List.flatMap_congr fun c _ => h c
  exact congrArg (Stylesheet.mk · style) hrules

theorem ofRules_insert {before repeated after : List Rule}
    (h : ∀ r ∈ repeated, r.place ∈ before.map Rule.place) :
    ofRules style (before ++ repeated ++ after) = ofRules style (before ++ after) := by
  have hnone : (distinctOn Rule.place repeated).filter
      (fun r => r.place ∉ before.map Rule.place) = [] := by
    rw [List.filter_eq_nil_iff]
    intro r hr
    simpa using h r ((distinctOn_sublist _ _).subset hr)
  have hnew : ∀ r : Rule, r.place ∉ (before ++ repeated).map Rule.place ↔
      r.place ∉ before.map Rule.place := by
    intro r
    rw [List.map_append, List.mem_append, not_or, and_iff_left_iff_imp]
    intro hr hrepeated
    obtain ⟨s, hs, hplace⟩ := List.mem_map.mp hrepeated
    exact hr (hplace ▸ h s hs)
  refine ofRules_eq fun c => ?_
  rw [distinctOn_append, distinctOn_append, hnone, List.append_nil, distinctOn_append]
  simp only [hnew]

theorem ofRules_sublist_append (given more : List Rule) :
    (ofRules style given).rules.Sublist (ofRules style (given ++ more)).rules := by
  rw [rules_ofRules_eq_grouped, rules_ofRules_eq_grouped, distinctOn_append]
  exact Category.grouped_sublist (List.sublist_append_left _ _)

/-- Where places belong to one category each, the categories can be told apart first. -/
theorem filter_distinctOn {given : List Rule}
    (h : ∀ r ∈ given, ∀ s ∈ given, r.place = s.place → r.category = s.category) (c : Category) :
    (distinctOn Rule.place given).filter (·.category = c) =
      distinctOn Rule.place (given.filter (·.category = c)) := by
  -- A place is one of the category `c` if a rule of `c` is given for it.
  have hkeep : ∀ r ∈ given,
      decide (r.category = c) = ((given.filter (·.category = c)).map Rule.place).contains r.place := by
    intro r hr
    rw [Bool.eq_iff_iff, decide_eq_true_iff, List.contains_iff_mem, List.mem_map]
    constructor
    · rintro rfl
      exact ⟨r, List.mem_filter.mpr ⟨hr, by simp⟩, rfl⟩
    · rintro ⟨s, hs, hplace⟩
      obtain ⟨hs, hcategory⟩ := List.mem_filter.mp hs
      rw [h r hr s hs hplace.symm]
      simpa using hcategory
  rw [List.filter_congr fun r hr => hkeep r ((distinctOn_sublist _ _).subset hr),
    ← distinctOn_filter, ← List.filter_congr hkeep]

theorem ofRules_reorder {given reordered : List Rule}
    (h : ∀ c, reordered.filter (·.category = c) = given.filter (·.category = c))
    (hplace : ∀ r ∈ given, ∀ s ∈ given, r.place = s.place → r.category = s.category) :
    ofRules style reordered = ofRules style given := by
  have hmem : ∀ r ∈ reordered, r ∈ given := by
    intro r hr
    have hfilter : r ∈ reordered.filter (·.category = r.category) :=
      List.mem_filter.mpr ⟨hr, by simp⟩
    rw [h] at hfilter
    exact List.mem_of_mem_filter hfilter
  refine ofRules_eq fun c => ?_
  rw [filter_distinctOn hplace, filter_distinctOn, h]
  exact fun r hr s hs => hplace r (hmem r hr) s (hmem s hs)

/--
**A stylesheet has the first rule given for each place**, by category, and within a category by
where the places are given first.  No other list of rules is arranged like that.  So a rule for a
place that was given before changes nothing, wherever it stands behind; rules that are given
after all others leave those of the sheet as they are, in their order; and while no place is
given in two categories, only the order within the categories matters.
-/
theorem ofRules_arranged (style : Style) :
    (∀ given rules, (ofRules style given).rules = rules ↔ Arranged given rules) ∧
    (∀ before repeated after, (∀ r ∈ repeated, r.place ∈ before.map Rule.place) →
      ofRules style (before ++ repeated ++ after) = ofRules style (before ++ after)) ∧
    (∀ given more, (ofRules style given).rules.Sublist (ofRules style (given ++ more)).rules) ∧
    (∀ given reordered : List Rule,
      (∀ c, reordered.filter (·.category = c) = given.filter (·.category = c)) →
      (∀ r ∈ given, ∀ s ∈ given, r.place = s.place → r.category = s.category) →
      ofRules style reordered = ofRules style given) := by
  refine ⟨fun given rules => ⟨?_, fun h => ?_⟩, fun _ _ _ => ofRules_insert,
    ofRules_sublist_append, fun _ _ => ofRules_reorder⟩
  · rintro rfl
    exact arranged_ofRules style given
  · exact (arranged_ofRules style given).unique h

/-- A selector that is given in two categories, and once more under a media query. -/
theorem ofRules_arranged_shared :
    let faded : Rule := ⟨.opacity, ".a", [], [⟨"opacity", "1"⟩]⟩
    let raised : Rule := ⟨.zIndex, ".b", [], [⟨"z-index", "1"⟩]⟩
    let repeated : Rule := ⟨.flex, ".a", [], [⟨"flex", "none"⟩]⟩
    let wide : Rule := ⟨.zIndex, ".a", ["(min-width: 1px)"], [⟨"z-index", "2"⟩]⟩
    Arranged [faded, raised, repeated, wide] [raised, wide, faded] ∧
      repeated.place = faded.place ∧
      ofRules .pretty [faded, raised, repeated, wide] = ofRules .pretty [faded, raised, wide] ∧
      [raised, wide, faded].Sublist
        (ofRules .pretty ([faded, raised, repeated, wide] ++ [repeated])).rules ∧
      ofRules .pretty [raised, wide, faded] = ofRules .pretty [faded, raised, wide] := by
  intro faded raised repeated wide
  obtain ⟨harranged, hinsert, happend, hreorder⟩ := ofRules_arranged .pretty
  have hrules : (ofRules .pretty [faded, raised, repeated, wide]).rules =
      [raised, wide, faded] := by
    rw [rules_ofRules_eq_grouped, distinctOn_eq_firstOccurrences]
    decide
  refine ⟨(harranged _ _).mp hrules, rfl, ?_, ?_, ?_⟩
  · exact hinsert [faded, raised] [repeated] [wide] (by decide)
  · exact hrules ▸ happend [faded, raised, repeated, wide] [repeated]
  · exact hreorder _ _ (fun c => by cases c <;> decide) (by decide)

end Stylesheet

end AtomicCss
