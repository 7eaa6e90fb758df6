/-
Which class spells which token.

Stems overlap: `scale-x-50` begins with `scale-x` and with `scale`.  The stem of a utility applies
to a class that is the stem or goes on behind it with a hyphen, and a class is read with the first
utility whose stem applies.  No stem is the beginning of a later one, so this is always the
longest, and what follows the stem is decided by the class alone.

A token is spelled by its name behind a stem of its category, unless the name is empty, the default
token's or in brackets; the default token is spelled by the stem alone.  A token that is spelled
can be reached in this way, but for one case: behind the stem `scale` a name must not look as if the
stem were a longer one.
-/
import AtomicCss.Proofs.Utility.Resolve

namespace AtomicCss

open Text

namespace Utility

/-! ### Stems that apply to a class -/

/-- The class is the stem, or goes on with a hyphen behind it. -/
def Applies (u : Utility) (cs : List Char) : Prop :=
  cs = u.stem.toList ∨ u.stem.toList ++ ['-'] <+: cs

/-- Of the stems that apply to a class none is longer. -/
structure IsLongest (u : Utility) (cs : List Char) : Prop where
  applies : u.Applies cs
  length_le : ∀ v : Utility, v.Applies cs → v.stem.length ≤ u.stem.length

theorem mem_all (u : Utility) : u ∈ all := by cases u <;> decide

theorem tail?_eq_bare_iff {u : Utility} {cs : List Char} :
    u.tail? cs = some .bare ↔ cs = u.stem.toList := by
  unfold tail?
  constructor
  · intro h
    split at h
    · rename_i hafter
      rw [after?_eq_some_iff.mp hafter, List.append_nil]
    · cases h
    · cases h
  · rintro rfl
    have hafter : after? u.stem.toList u.stem.toList = some [] :=
      after?_eq_some_iff.mpr (List.append_nil _).symm
    rw [hafter]

theorem tail?_eq_suffix_iff {u : Utility} {cs text : List Char} :
    u.tail? cs = some (.suffix text) ↔ cs = u.stem.toList ++ '-' :: text := by
  unfold tail?
  constructor
  · intro h
    split at h
    · cases h
    · rename_i hafter
      cases h
      exact after?_eq_some_iff.mp hafter
    · cases h
  · rintro rfl
    rw [after?_append]
    rfl

theorem exists_tail?_iff {u : Utility} {cs : List Char} :
    (∃ tail, u.tail? cs = some tail) ↔ u.Applies cs := by
  constructor
  · rintro ⟨tail, h⟩
    cases tail with
    | bare => exact .inl (tail?_eq_bare_iff.mp h)
    | suffix text => exact .inr ⟨text, by rw [tail?_eq_suffix_iff.mp h, List.append_assoc]; rfl⟩
  · rintro (rfl | ⟨text, rfl⟩)
    · exact ⟨.bare, tail?_eq_bare_iff.mpr rfl⟩
    · exact ⟨.suffix text, tail?_eq_suffix_iff.mpr (by rw [List.append_assoc]; rfl)⟩

/-- With a hyphen behind the class, both cases are one. -/
theorem applies_iff_isPrefix {u : Utility} {cs : List Char} :
    u.Applies cs ↔ u.stem.toList ++ ['-'] <+: cs ++ ['-'] := by
  rw [List.prefix_concat_iff, List.append_left_inj, Applies, eq_comm]

/-- Of two stems that apply to a class, one is the beginning of the other. -/
theorem isPrefix_or_isPrefix {u v : Utility} {cs : List Char} (hu : u.Applies cs)
    (hv : v.Applies cs) :
    u.stem.toList ++ ['-'] <+: v.stem.toList ++ ['-'] ∨
      v.stem.toList ++ ['-'] <+: u.stem.toList ++ ['-'] :=
  List.prefix_or_prefix_of_prefix (applies_iff_isPrefix.mp hu) (applies_iff_isPrefix.mp hv)

theorem length_le_of_isPrefix {u v : Utility}
    (h : u.stem.toList ++ ['-'] <+: v.stem.toList ++ ['-']) : u.stem.length ≤ v.stem.length := by
  have := h.length_le
  simp only [List.length_append, String.length_toList] at this
  omega

theorem pairwise_all :
    all.Pairwise fun u v => ¬ u.stem.toList ++ ['-'] <+: v.stem.toList ++ ['-'] := by
  decide

/-- The one stem with which others begin is `scale`. -/
theorem eq_or_scale_of_isPrefix {u v : Utility}
    (h : u.stem.toList ++ ['-'] <+: v.stem.toList ++ ['-']) :
    u = v ∨ u = .scale ∧ (v = .scaleX ∨ v = .scaleY) := by
  have hall : ∀ u ∈ all, ∀ v ∈ all, u.stem.toList ++ ['-'] <+: v.stem.toList ++ ['-'] →
      u = v ∨ u = .scale ∧ (v = .scaleX ∨ v = .scaleY) := by
    decide
  exact hall u (mem_all u) v (mem_all v) h

theorem stem_injective {u v : Utility} (h : u.stem.toList = v.stem.toList) : u = v := by
  have hall : ∀ u ∈ all, ∀ v ∈ all, u.stem.toList = v.stem.toList → u = v := by decide
  exact hall u (mem_all u) v (mem_all v) h

theorem IsLongest.unique {u v : Utility} {cs : List Char} (hu : u.IsLongest cs)
    (hv : v.IsLongest cs) : u = v := by
  have hlength : (u.stem.toList ++ ['-']).length = (v.stem.toList ++ ['-']).length := by
    have := hu.length_le v hv.applies
    have := hv.length_le u hu.applies
    simp only [List.length_append, String.length_toList]
    omega
  have hstems : u.stem.toList ++ ['-'] = v.stem.toList ++ ['-'] := by
    rcases isPrefix_or_isPrefix hu.applies hv.applies with h | h
    · exact h.eq_of_length hlength
    · exact (h.eq_of_length hlength.symm).symm
  exact stem_injective (List.append_cancel_right hstems)

theorem isLongest_of_find? {cs : List Char} {u : Utility} {tail : Tail}
    (h : find? cs = some (u, tail)) : u.IsLongest cs ∧ u.tail? cs = some tail := by
  obtain ⟨before, u', after, hall, hu, hbefore⟩ := List.findSome?_eq_some_iff.mp h
  obtain ⟨tail', htail, heq⟩ := Option.map_eq_some_iff.mp hu
  obtain ⟨rfl, rfl⟩ := Prod.mk.inj heq
  have happlies : u'.Applies cs := exists_tail?_iff.mp ⟨tail', htail⟩
  refine ⟨⟨happlies, fun v hv => ?_⟩, htail⟩
  -- An earlier stem does not apply, and a later one is no longer than this.
  have hmem : v ∈ before ++ u' :: after := hall ▸ mem_all v
  rcases List.mem_append.mp hmem with hmem | hmem
  · obtain ⟨t, ht⟩ := exists_tail?_iff.mpr hv
    have hnone := hbefore v hmem
    rw [ht] at hnone
    cases hnone
  · rcases List.mem_cons.mp hmem with rfl | hmem
    · exact Nat.le_refl _
    · have hlater := pairwise_all
      rw [hall, List.pairwise_append, List.pairwise_cons] at hlater
      exact length_le_of_isPrefix
        ((isPrefix_or_isPrefix happlies hv).resolve_left (hlater.2.1.1 v hmem))

/-- **A class is read with the longest stem that applies to it.** -/
theorem find?_eq_some_iff {cs : List Char} {u : Utility} {tail : Tail} :
    find? cs = some (u, tail) ↔ u.IsLongest cs ∧ u.tail? cs = some tail := by
  constructor
  · exact isLongest_of_find?
  · rintro ⟨hlongest, htail⟩
    cases hfind : find? cs with
    | none =>
        have hnone := List.findSome?_eq_none_iff.mp hfind u (mem_all u)
        rw [htail] at hnone
        cases hnone
    | some found =>
        obtain ⟨v, t⟩ := found
        obtain ⟨hv, ht⟩ := isLongest_of_find? hfind
        obtain rfl := hlongest.unique hv
        rw [htail] at ht
        rw [Option.some.inj ht]

/-! ### Names behind a stem -/

/-- Behind the stem the text looks as if the stem were a longer one. -/
def Hides (u : Utility) (text : List Char) : Prop :=
  u = .scale ∧ ∃ axis ∈ ['x', 'y'], text = [axis] ∨ [axis, '-'] <+: text

theorem applies_append (u : Utility) (text : List Char) :
    u.Applies (u.stem.toList ++ '-' :: text) :=
  .inr ⟨text, by rw [List.append_assoc]; rfl⟩

/-- When a stem with an axis behind it applies to a class of the stem without it. -/
theorem applies_axis_iff {u v : Utility} {axis : Char} {text : List Char}
    (h : v.stem.toList = u.stem.toList ++ ['-', axis]) :
    v.Applies (u.stem.toList ++ '-' :: text) ↔ text = [axis] ∨ [axis, '-'] <+: text := by
  have hlonger : v.stem.toList ++ ['-'] = u.stem.toList ++ '-' :: [axis, '-'] := by
    rw [h, List.append_assoc]
    rfl
  rw [Applies, hlonger, h, List.prefix_append_right_inj, List.cons_prefix_cons]
  simp

theorem isLongest_append_iff {u : Utility} {text : List Char} :
    u.IsLongest (u.stem.toList ++ '-' :: text) ↔ ¬ u.Hides text := by
  have hx : scaleX.stem.toList = scale.stem.toList ++ ['-', 'x'] := by decide
  have hy : scaleY.stem.toList = scale.stem.toList ++ ['-', 'y'] := by decide
  constructor
  · rintro hlongest ⟨rfl, axis, haxis, htext⟩
    rcases List.mem_pair.mp haxis with rfl | rfl
    · exact absurd (hlongest.length_le scaleX ((applies_axis_iff hx).mpr htext)) (by decide)
    · exact absurd (hlongest.length_le scaleY ((applies_axis_iff hy).mpr htext)) (by decide)
  · intro hshows
    refine ⟨u.applies_append text, fun v hv => ?_⟩
    rcases isPrefix_or_isPrefix (u.applies_append text) hv with hprefix | hprefix
    · rcases eq_or_scale_of_isPrefix hprefix with rfl | ⟨rfl, rfl | rfl⟩
      · exact Nat.le_refl _
      · exact absurd ⟨rfl, 'x', by simp, (applies_axis_iff hx).mp hv⟩ hshows
      · exact absurd ⟨rfl, 'y', by simp, (applies_axis_iff hy).mp hv⟩ hshows
    · exact length_le_of_isPrefix hprefix

/-- What stands behind a stem is read as the tail of its utility. -/
theorem find?_append {u : Utility} {text : List Char} (h : ¬ u.Hides text) :
    find? (u.stem.toList ++ '-' :: text) = some (u, .suffix text) :=
  find?_eq_some_iff.mpr ⟨isLongest_append_iff.mpr h, tail?_eq_suffix_iff.mpr rfl⟩

/-! ### Spelling a token -/

/-- A name that a class can have behind its stem and a hyphen. -/
structure IsSpellable (name : String) : Prop where
  ne_empty : name ≠ ""
  ne_default : name ≠ defaultToken
  not_bracketed : ∀ raw, name.toList ≠ '[' :: (raw ++ [']'])

/-- How a class of a utility spells a token. -/
inductive Spells (u : Utility) : String → List Char → Prop
  | name {name : String} (h : IsSpellable name) :
      Spells u name (u.stem.toList ++ '-' :: name.toList)
  | bare (h : u.category.filtersDefault = false) : Spells u defaultToken u.stem.toList

theorem names_suffix_iff {category : Category} {text : List Char} {name : String} :
    Tail.Names category (.suffix text) name ↔ text = name.toList ∧ IsSpellable name := by
  constructor
  · rintro ⟨hbrackets, rfl, hne, hdefault⟩
    rw [Arbitrary.bracketed?_eq_none_iff] at hbrackets
    exact ⟨String.toList_ofList.symm, hne, hdefault, by rwa [String.toList_ofList]⟩
  · rintro ⟨rfl, hne, hdefault, hbrackets⟩
    exact ⟨Arbitrary.bracketed?_eq_none_iff.mpr hbrackets, String.ofList_toList.symm, hne, hdefault⟩

theorem spells_iff {u : Utility} {name : String} {cs : List Char} :
    u.Spells name cs ↔ ∃ tail, u.tail? cs = some tail ∧ tail.Names u.category name := by
  constructor
  · intro h
    cases h with
    | name h => exact ⟨_, tail?_eq_suffix_iff.mpr rfl, names_suffix_iff.mpr ⟨rfl, h⟩⟩
    | bare h => exact ⟨_, tail?_eq_bare_iff.mpr rfl, h, rfl⟩
  · rintro ⟨tail, htail, hnames⟩
    cases tail with
    | bare =>
        obtain ⟨hfilters, rfl⟩ := hnames
        rw [tail?_eq_bare_iff.mp htail]
        exact .bare hfilters
    | suffix text =>
        obtain ⟨rfl, hname⟩ := names_suffix_iff.mp hnames
        rw [tail?_eq_suffix_iff.mp htail]
        exact .name hname

/-- The name of a token behind the stem and a hyphen is a class that takes this token's value. -/
def Reaches (u : Utility) (theme : Theme) (name : String) : Prop :=
  ∃ rule, BaseRule.ofClass? theme (u.stem.toList ++ '-' :: name.toList) = some rule ∧
    rule.token = .theme name

/-- Every category of utilities has one behind whose stem no name is hidden. -/
theorem exists_category_eq {category : Category} (h : category.isUtility = true) :
    ∃ u : Utility, u.category = category ∧ u ≠ .scale := by
  cases category with
  | zIndex => exact ⟨.zIndex, rfl, by decide⟩
  | flex => exact ⟨.flex, rfl, by decide⟩
  | scale => exact ⟨.scaleX, rfl, by decide⟩
  | opacity => exact ⟨.opacity, rfl, by decide⟩
  | transitionProperty => exact ⟨.transition, rfl, by decide⟩
  | transitionDelay => exact ⟨.delay, rfl, by decide⟩
  | transitionDuration => exact ⟨.duration, rfl, by decide⟩
  | screens => cases h

theorem unmarked_stem_append (u : Utility) (rest : List Char) :
    BaseRule.Unmarked (u.stem.toList ++ rest) := by
  have hall : ∀ u ∈ all, u.stem.toList ≠ [] ∧ BaseRule.Unmarked u.stem.toList := by decide
  obtain ⟨hne, hunmarked⟩ := hall u (mem_all u)
  intro c hc
  rw [List.head?_append_of_ne_nil _ hne] at hc
  exact hunmarked c hc

end Utility

namespace BaseRule

variable {theme : Theme}

/-- A class without marks takes the value of a token exactly if it spells the token. -/
theorem ofClass?_theme_iff {cs : List Char} (hcs : Unmarked cs) {rule : BaseRule} {name : String} :
    ofClass? theme cs = some rule ∧ rule.token = .theme name ↔
      ∃ (u : Utility) (value : String), u.IsLongest cs ∧ u.Spells name cs ∧
        theme.find? u.category name = some value ∧ rule = ofValue theme u (.theme name) value := by
  rw [ofClass?_unmarked_iff hcs]
  constructor
  · rintro ⟨⟨u, tail, token, value, hfind, hvalue, rfl⟩, htoken⟩
    obtain ⟨hlongest, htail⟩ := Utility.find?_eq_some_iff.mp hfind
    obtain rfl : token = .theme name := htoken
    rcases Utility.tokenValue?_eq_some_iff.mp hvalue with
      ⟨name', hnames, hfind, heq⟩ | ⟨-, -, -, -, -, heq⟩
    · obtain rfl := TokenRef.theme.inj heq
      exact ⟨u, value, hlongest, Utility.spells_iff.mpr ⟨tail, htail, hnames⟩, hfind, rfl⟩
    · cases heq
  · rintro ⟨u, value, hlongest, hspells, hfind, rfl⟩
    obtain ⟨tail, htail, hnames⟩ := Utility.spells_iff.mp hspells
    refine ⟨⟨u, tail, .theme name, value, Utility.find?_eq_some_iff.mpr ⟨hlongest, htail⟩, ?_, rfl⟩,
      rfl⟩
    exact Utility.tokenValue?_eq_some_iff.mpr (.inl ⟨name, hnames, hfind, rfl⟩)

/-- A token whose name can be spelled is reached unless the stem hides it. -/
theorem reaches_iff {u : Utility} {name value : String} (hname : Utility.IsSpellable name)
    (hvalue : theme.find? u.category name = some value) :
    u.Reaches theme name ↔ ¬ u.Hides name.toList := by
  have hunmarked := u.unmarked_stem_append ('-' :: name.toList)
  rw [← Utility.isLongest_append_iff]
  constructor
  · rintro ⟨rule, hrule⟩
    obtain ⟨v, -, hlongest, hspells, -, -⟩ := (ofClass?_theme_iff hunmarked).mp hrule
    generalize hcs : u.stem.toList ++ '-' :: name.toList = cs at hspells hlongest ⊢
    cases hspells with
    | name _ =>
        obtain rfl := Utility.stem_injective (List.append_cancel_right hcs)
        exact hlongest
    | bare _ => exact absurd rfl hname.ne_default
  · intro hlongest
    exact ⟨ofValue theme u (.theme name) value,
      (ofClass?_theme_iff hunmarked).mpr ⟨u, value, hlongest, .name hname, hvalue, rfl⟩⟩

/--
**Tokens are addressed by their spelling.**  A class without marks takes the value of a token of the
theme exactly if the longest stem that applies to it spells the token, and then its utility's own
properties carry this value.  So every token that can be spelled is reached behind the stems of its
category, all of them but `scale` where a longer stem comes to apply; and no class is read with a
stem that is not the longest.
-/
theorem themeToken_iff_spells (theme : Theme) :
    (∀ cs, Unmarked cs → ∀ rule name,
      (ofClass? theme cs = some rule ∧ rule.token = .theme name ↔
        ∃ (u : Utility) (value : String), u.IsLongest cs ∧ u.Spells name cs ∧
          theme.find? u.category name = some value ∧ rule = ofValue theme u (.theme name) value ∧
          u.ownProperties.map (Declaration.mk · value) <+: rule.declarations)) ∧
    (∀ category name value, category.isUtility = true → Utility.IsSpellable name →
      theme.find? category name = some value →
        (∃ u : Utility, u.category = category ∧ u.Reaches theme name) ∧
        ∀ u : Utility, u.category = category →
          (u.Reaches theme name ↔ ¬ u.Hides name.toList)) ∧
    ∀ cs u tail, Utility.find? cs = some (u, tail) → u.IsLongest cs := by
  refine ⟨fun cs hcs rule name => ?_, fun category name value hcategory hname hvalue => ⟨?_, ?_⟩, ?_⟩
  · rw [ofClass?_theme_iff hcs]
    constructor
    · rintro ⟨u, value, hlongest, hspells, hfind, rfl⟩
      exact ⟨u, value, hlongest, hspells, hfind, rfl, u.ownProperties_isPrefix theme value⟩
    · rintro ⟨u, value, hlongest, hspells, hfind, hrule, -⟩
      exact ⟨u, value, hlongest, hspells, hfind, hrule⟩
  · obtain ⟨u, rfl, hne⟩ := Utility.exists_category_eq hcategory
    exact ⟨u, rfl, (reaches_iff hname hvalue).mpr fun hhides => hne hhides.1⟩
  · rintro u rfl
    exact reaches_iff hname hvalue
  · intro cs u tail hfind
    exact (Utility.find?_eq_some_iff.mp hfind).1

/-- A token whose name begins like an axis: behind `scale` it is hidden, behind `scale-y` it is
reached. -/
theorem themeToken_iff_spells_axis :
    let theme : Theme := ⟨.ofList [(.scale, .ofList [("50", ".5"), ("x-50", "2")])]⟩
    Unmarked "scale-x-50".toList ∧ Utility.IsSpellable "x-50" ∧
      theme.find? .scale "x-50" = some "2" ∧
      (∃ rule u value, ofClass? theme "scale-x-50".toList = some rule ∧
        rule.token = .theme "50" ∧ Utility.IsLongest u "scale-x-50".toList ∧
        rule = ofValue theme u (.theme "50") value) ∧
      ¬ Utility.scale.Reaches theme "x-50" ∧ Utility.scaleY.Reaches theme "x-50" := by
  intro theme
  have hunmarked : Unmarked "scale-x-50".toList := by decide
  have hname : Utility.IsSpellable "x-50" := by
    refine ⟨by decide, by decide, fun raw h => ?_⟩
    cases (List.cons.inj h).1
  have hvalue : theme.find? .scale "x-50" = some "2" := by decide +kernel
  have htoken : (ofClass? theme "scale-x-50".toList).map (·.token) = some (.theme "50") := by
    decide +kernel
  obtain ⟨rule, hrule, htoken⟩ := Option.map_eq_some_iff.mp htoken
  obtain ⟨hread, hreach, -⟩ := themeToken_iff_spells theme
  obtain ⟨u, value, hlongest, -, -, hof, -⟩ := (hread _ hunmarked rule "50").mp ⟨hrule, htoken⟩
  have hall := (hreach .scale "x-50" "2" rfl hname hvalue).2
  refine ⟨hunmarked, hname, hvalue, ⟨rule, u, value, hrule, htoken, hlongest, hof⟩, ?_, ?_⟩
  · rw [hall .scale rfl]
    exact not_not_intro ⟨rfl, 'x', by decide, .inr (by decide)⟩
  · exact (hall .scaleY rfl).mpr fun h => absurd h.1 (by decide)

end BaseRule

end AtomicCss
