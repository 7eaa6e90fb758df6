/-
What a token resolves to.

A theme is made by two loops, one within the other: over the categories of a layer, and over the
tokens of each.  Each step changes one key of one map, so what a loop leaves at a key is known
from the layer alone.  The second layer has the last word on a token, then the first one, and the
defaults count where neither names it.
-/
import AtomicCss.Proofs.Theme.Resolve

namespace AtomicCss.Theme

open Text

/-- The value that a table gives a token. -/
def value? (table : SortedMap Category Tokens) (category : Category) (token : String) :
    Option String :=
  (table.find? category).bind (·.find? token)

theorem find?_eq_value? (theme : Theme) (category : Category) (token : String) :
    theme.find? category token = value? theme.tokens category token :=
  rfl

/-- Added tokens have their own values, trimmed, and all others keep theirs. -/
theorem find?_addTokens {category : Category} {current added tokens : Tokens}
    (h : addTokens category current added = .ok tokens) (token : String) :
    tokens.find? token = ((added.find? token).map trimmed).or (current.find? token) := by
  have hstep : ∀ (tokens : Tokens) (e : String × String) next,
      (do checkToken category e.1 e.2; return tokens.insert e.1 (trimmed e.2)) =
        (.ok next : Except ConfigError Tokens) → next = tokens.insert e.1 (trimmed e.2) := by
    intro tokens e next hnext
    obtain ⟨⟨⟩, -, hnext⟩ := bind_eq_ok.mp hnext
    exact (pure_eq_ok.mp hnext).symm
  obtain ⟨habsent, hpresent⟩ := SortedMap.find?_foldlM
    (R := fun _ value _ new => new = some (trimmed value))
    (fun tokens e next hnext => by
      rw [hstep tokens e next hnext]
      exact SortedMap.find?_insert_self tokens e.1 _)
    (fun tokens e next hnext k hk => by
      rw [hstep tokens e next hnext]
      exact SortedMap.find?_insert_of_ne tokens _ hk) added.sorted h token
  cases hfind : added.find? token with
  | none => rw [habsent hfind, Option.map_none, Option.none_or]
  | some value => rw [hpresent value hfind, Option.map_some, Option.some_or]

/-- A layer has the last word on the tokens it names. -/
theorem value?_applyLayer {table layer next : SortedMap Category Tokens}
    (h : applyLayer table layer = .ok next) (category : Category) (token : String) :
    value? next category token =
      ((value? layer category token).map trimmed).or (value? table category token) := by
  have hstep : ∀ (table : SortedMap Category Tokens) (e : Category × Tokens) next,
      (do
        let tokens ← addTokens e.1 ((table.find? e.1).getD ∅) e.2
        return table.insert e.1 tokens) =
          (.ok next : Except ConfigError (SortedMap Category Tokens)) →
        ∃ tokens, addTokens e.1 ((table.find? e.1).getD ∅) e.2 = .ok tokens ∧
          next = table.insert e.1 tokens := by
    intro table e next hnext
    obtain ⟨tokens, htokens, hnext⟩ := bind_eq_ok.mp hnext
    exact ⟨tokens, htokens, (pure_eq_ok.mp hnext).symm⟩
  obtain ⟨habsent, hpresent⟩ := SortedMap.find?_foldlM
    (R := fun category added old new =>
      ∃ tokens, addTokens category (old.getD ∅) added = .ok tokens ∧ new = some tokens)
    (fun table e next hnext => by
      obtain ⟨tokens, htokens, rfl⟩ := hstep table e next hnext
      exact ⟨tokens, htokens, SortedMap.find?_insert_self table e.1 tokens⟩)
    (fun table e next hnext k hk => by
      obtain ⟨tokens, -, rfl⟩ := hstep table e next hnext
      exact SortedMap.find?_insert_of_ne table tokens hk) layer.sorted h category
  unfold value?
  cases hfind : layer.find? category with
  | none => rw [habsent hfind, Option.bind_none, Option.map_none, Option.none_or]
  | some added =>
      obtain ⟨tokens, htokens, hnext⟩ := hpresent added hfind
      rw [hnext, Option.bind_some, Option.bind_some, find?_addTokens htokens]
      cases table.find? category with
      | none => rfl
      | some current => rfl

/-- **A token has the value of the last layer that names it**, and that of the defaults if none
does. -/
theorem find?_resolve {defaults : SortedMap Category Tokens} {configured : Layered Tokens}
    {theme : Theme} (h : resolve defaults configured = .ok theme) (category : Category)
    (token : String) :
    theme.find? category token =
      ((value? configured.extend category token).map trimmed).or
        (((value? configured.base category token).map trimmed).or
          (value? defaults category token)) := by
  obtain ⟨table, htable, h⟩ := bind_eq_ok.mp h
  obtain rfl := pure_eq_ok.mp h
  have hlayers : configured.toList.foldlM applyLayer defaults =
      (applyLayer defaults configured.base >>= fun next => applyLayer next configured.extend) := by
    simp [Layered.toList]
  rw [hlayers] at htable
  obtain ⟨next, hbase, hextend⟩ := bind_eq_ok.mp htable
  rw [find?_eq_value?, value?_applyLayer hextend, value?_applyLayer hbase]

/-- What two layers on a table give a token: the second layer's value, else the first one's, both
without the white space around them, else that of the table. -/
def layeredValue? (defaults : SortedMap Category Tokens) (configured : Layered Tokens)
    (category : Category) (token : String) : Option String :=
  match value? configured.extend category token, value? configured.base category token with
  | some value, _ => some (trimmed value)
  | none, some value => some (trimmed value)
  | none, none => value? defaults category token

theorem find?_eq_layeredValue? {defaults : SortedMap Category Tokens}
    {configured : Layered Tokens} {theme : Theme} (h : resolve defaults configured = .ok theme)
    (category : Category) (token : String) :
    theme.find? category token = layeredValue? defaults configured category token := by
  rw [find?_resolve h, layeredValue?]
  cases value? configured.extend category token <;>
    cases value? configured.base category token <;> rfl

theorem layeredValue?_eq_none_iff {defaults : SortedMap Category Tokens}
    {configured : Layered Tokens} {category : Category} {token : String} :
    layeredValue? defaults configured category token = none ↔
      value? configured.extend category token = none ∧
        value? configured.base category token = none ∧ value? defaults category token = none := by
  rw [layeredValue?]
  cases value? configured.extend category token <;>
    cases value? configured.base category token <;> simp

/-! ### Themes with the same values -/

theorem contains_of_resolve {configured : Layered Tokens} {theme : Theme}
    (h : resolve defaults configured = .ok theme) (category : Category) :
    theme.tokens.contains category = true := by
  have hdefaults : defaults.contains category = true := by
    cases category <;> decide +kernel
  have hlayer : ∀ {table layer next : SortedMap Category Tokens},
      applyLayer table layer = .ok next → table.contains category = true →
        next.contains category = true := by
    intro table layer next hnext htable
    refine foldlM_keeps (P := fun table : SortedMap Category Tokens =>
      table.contains category = true) hnext htable ?_
    intro table e next _ htable hnext
    obtain ⟨tokens, -, hnext⟩ := bind_eq_ok.mp hnext
    obtain rfl := pure_eq_ok.mp hnext
    by_cases hown : category = e.1
    · rw [SortedMap.contains, hown, SortedMap.find?_insert_self]
      rfl
    · rw [SortedMap.contains, SortedMap.find?_insert_of_ne table tokens hown]
      exact htable
  obtain ⟨table, htable, h⟩ := bind_eq_ok.mp h
  obtain rfl := pure_eq_ok.mp h
  exact foldlM_keeps (P := fun table : SortedMap Category Tokens => table.contains category = true)
    htable hdefaults fun _ _ _ _ hkept hnext => hlayer hnext hkept

/-- **Resolved themes are equal if they have the same values.** -/
theorem eq_of_find? {configured configured' : Layered Tokens} {theme theme' : Theme}
    (h : resolve defaults configured = .ok theme) (h' : resolve defaults configured' = .ok theme')
    (hvalues : ∀ category token, theme.find? category token = theme'.find? category token) :
    theme = theme' := by
  obtain ⟨table⟩ := theme
  obtain ⟨table'⟩ := theme'
  congr 1
  apply SortedMap.ext_find?
  intro category
  obtain ⟨tokens, htokens⟩ := Option.isSome_iff_exists.mp (contains_of_resolve h category)
  obtain ⟨tokens', htokens'⟩ := Option.isSome_iff_exists.mp (contains_of_resolve h' category)
  rw [htokens, htokens']
  congr 1
  apply SortedMap.ext_find?
  intro token
  have hvalue := hvalues category token
  rw [find?_eq_value?, find?_eq_value?, value?, value?, htokens, htokens'] at hvalue
  exact hvalue

theorem isSome_find?_of_resolve {defaults : SortedMap Category Tokens}
    {configured : Layered Tokens} {theme : Theme} (h : resolve defaults configured = .ok theme)
    {category : Category} {token : String}
    (hdefault : (value? defaults category token).isSome = true) :
    (theme.find? category token).isSome = true := by
  rw [find?_resolve h, Option.isSome_or, Option.isSome_or, hdefault, Bool.or_true, Bool.or_true]

end AtomicCss.Theme
