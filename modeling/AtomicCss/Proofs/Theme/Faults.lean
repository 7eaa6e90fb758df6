/-
Which error stops a theme from being resolved.

Resolving checks every token of both layers, whether or not a later layer gives it another value,
and stops at the first that does not pass.  What "first" means is said here apart from the loops:
a layer's settings come in the order of their categories, and those of one category in the order
of their tokens.  `settings` lists them so, because the entries of a sorted map ascend, and then
the head of the invalid ones is the least of them.
-/
import AtomicCss.Proofs.Theme.Layers

namespace AtomicCss.Theme

/-! ### Settings of a layer -/

/-- A value that a layer gives a token. -/
structure Setting where
  category : Category
  token : String
  value : String

namespace Setting

/-- The layer gives this value to this token. -/
def IsIn (s : Setting) (layer : SortedMap Category Tokens) : Prop :=
  value? layer s.category s.token = some s.value

/-- The value is one for its category. -/
def IsValid (s : Setting) : Prop :=
  s.category.valueKind.accepts s.value = true

instance (s : Setting) : Decidable s.IsValid :=
  inferInstanceAs (Decidable (_ = true))

/-- The error that a setting gives if it is invalid. -/
def error (s : Setting) : ConfigError :=
  .invalidToken s.category s.token s.value

/-- One setting comes before another: its category does, or its token within their category. -/
def Before (a b : Setting) : Prop :=
  compare a.category b.category = .lt ∨
    a.category = b.category ∧ compare a.token b.token = .lt

/-- The first invalid setting of a layer. -/
structure IsFirstInvalid (s : Setting) (layer : SortedMap Category Tokens) : Prop where
  isIn : s.IsIn layer
  invalid : ¬ s.IsValid
  first : ∀ other : Setting, other.IsIn layer → ¬ other.IsValid → other = s ∨ s.Before other

theorem Before.asymm {a b : Setting} (hab : a.Before b) (hba : b.Before a) : False := by
  rcases hab with hab | ⟨hcategory, hab⟩ <;> rcases hba with hba | ⟨hcategory', hba⟩
  · rw [Std.OrientedCmp.gt_iff_lt.mpr hab] at hba
    cases hba
  · rw [hcategory', Std.ReflOrd.compare_self] at hab
    cases hab
  · rw [hcategory, Std.ReflOrd.compare_self] at hba
    cases hba
  · rw [Std.OrientedCmp.gt_iff_lt.mpr hab] at hba
    cases hba

end Setting

/-- The settings of a layer, in order. -/
def settings (layer : SortedMap Category Tokens) : List Setting :=
  layer.entries.flatMap fun e => e.2.entries.map fun t => ⟨e.1, t.1, t.2⟩

theorem mem_settings_iff {layer : SortedMap Category Tokens} {s : Setting} :
    s ∈ settings layer ↔ s.IsIn layer := by
  unfold settings Setting.IsIn value?
  rw [List.mem_flatMap, Option.bind_eq_some_iff]
  constructor
  · rintro ⟨⟨category, tokens⟩, he, hs⟩
    obtain ⟨⟨token, value⟩, ht, rfl⟩ := List.mem_map.mp hs
    exact ⟨tokens, SortedMap.find?_of_mem he, SortedMap.find?_of_mem ht⟩
  · rintro ⟨tokens, htokens, hvalue⟩
    refine ⟨(s.category, tokens), SortedMap.mem_of_find? htokens, ?_⟩
    exact List.mem_map.mpr ⟨(s.token, s.value), SortedMap.mem_of_find? hvalue, rfl⟩

theorem pairwise_settings (layer : SortedMap Category Tokens) :
    (settings layer).Pairwise Setting.Before := by
  refine List.pairwise_flatMap.mpr ⟨fun e _ => ?_, layer.sorted.imp fun {e e'} hlt => ?_⟩
  · exact List.pairwise_map.mpr (e.2.sorted.imp fun hlt => .inr ⟨rfl, hlt⟩)
  · intro a ha b hb
    obtain ⟨t, -, rfl⟩ := List.mem_map.mp ha
    obtain ⟨t', -, rfl⟩ := List.mem_map.mp hb
    exact .inl hlt

/-! ### Faults of a layer -/

/-- The errors of a layer's invalid settings, in order. -/
def faults (layer : SortedMap Category Tokens) : List ConfigError :=
  ((settings layer).filter fun s => ¬ s.IsValid).map Setting.error

theorem faults_eq_nil_iff {layer : SortedMap Category Tokens} :
    faults layer = [] ↔ ∀ s : Setting, s.IsIn layer → s.IsValid := by
  simp [faults, mem_settings_iff]

theorem checkToken_eq (s : Setting) :
    checkToken s.category s.token s.value = firstFault (if s.IsValid then [] else [s.error]) := by
  by_cases hvalid : s.IsValid
  · rw [if_pos hvalid]
    exact if_pos hvalid
  · rw [if_neg hvalid]
    exact if_neg hvalid

/-- A layer is refused for the first of its faults. -/
theorem checkTokens_eq (layer : SortedMap Category Tokens) :
    Config.checkTokens layer = firstFault (faults layer) := by
  have hfaults : ∀ ss : List Setting, (ss.flatMap fun s => if s.IsValid then [] else [s.error]) =
      (ss.filter fun s => ¬ s.IsValid).map Setting.error := by
    intro ss
    induction ss with
    | nil => rfl
    | cons s ss ih => by_cases hvalid : s.IsValid <;> simp [hvalid, ih]
  rw [faults, ← hfaults, settings, List.flatMap_assoc, ← forM_firstFault]
  simp only [List.flatMap_map, ← forM_firstFault, ← checkToken_eq]
  rfl

/-- In a list that is ordered, what satisfies a condition first is what satisfies it and comes
before all else that does. -/
theorem head?_filter_eq_some_iff {α : Type} {R : α → α → Prop} {p : α → Bool} {l : List α}
    (hasymm : ∀ a b, R a b → R b a → False) (hl : l.Pairwise R) {a : α} :
    (l.filter p).head? = some a ↔
      a ∈ l ∧ p a = true ∧ ∀ b ∈ l, p b = true → b = a ∨ R a b := by
  have hleast : ∀ {a}, (l.filter p).head? = some a →
      a ∈ l ∧ p a = true ∧ ∀ b ∈ l, p b = true → b = a ∨ R a b := by
    intro a h
    obtain ⟨rest, hfilter⟩ := List.head?_eq_some_iff.mp h
    have hmem : a ∈ l.filter p := by simp [hfilter]
    obtain ⟨hal, hpa⟩ := List.mem_filter.mp hmem
    refine ⟨hal, hpa, fun b hb hpb => ?_⟩
    have hbmem : b ∈ l.filter p := List.mem_filter.mpr ⟨hb, hpb⟩
    have hordered := hl.filter p
    rw [hfilter] at hbmem hordered
    rcases List.mem_cons.mp hbmem with rfl | hrest
    · exact .inl rfl
    · exact .inr ((List.pairwise_cons.mp hordered).1 b hrest)
  refine ⟨hleast, fun ⟨hal, hpa, hfirst⟩ => ?_⟩
  have hne : l.filter p ≠ [] := List.ne_nil_of_mem (List.mem_filter.mpr ⟨hal, hpa⟩)
  obtain ⟨b, hb⟩ := Option.isSome_iff_exists.mp (List.isSome_head?.mpr hne)
  obtain ⟨hbl, hpb, hfirst'⟩ := hleast hb
  rcases hfirst b hbl hpb with rfl | hab
  · exact hb
  · rcases hfirst' a hal hpa with rfl | hba
    · exact hb
    · exact (hasymm a b hab hba).elim

/-- The first fault of a layer is the error of its first invalid setting. -/
theorem head?_faults_eq_some_iff {layer : SortedMap Category Tokens} {error : ConfigError} :
    (faults layer).head? = some error ↔ ∃ s : Setting, s.IsFirstInvalid layer ∧ s.error = error := by
  rw [faults, List.head?_map, Option.map_eq_some_iff]
  refine exists_congr fun s => and_congr_left' ?_
  rw [head?_filter_eq_some_iff (fun _ _ => Setting.Before.asymm) (pairwise_settings layer)]
  simp only [mem_settings_iff, decide_not, Bool.not_eq_true', decide_eq_false_iff_not]
  exact ⟨fun ⟨hin, hinvalid, hfirst⟩ => ⟨hin, hinvalid, hfirst⟩,
    fun h => ⟨h.isIn, h.invalid, h.first⟩⟩

/-! ### Faults of a theme -/

theorem resolve_eq_error_iff {table : SortedMap Category Tokens} {configured : Layered Tokens}
    {error : ConfigError} :
    resolve table configured = .error error ↔
      (configured.toList.flatMap faults).head? = some error := by
  have hchecks : Config.checkTokens = fun layer => firstFault (faults layer) :=
    funext checkTokens_eq
  rw [resolve_eq, bind_pure_eq_error, hchecks, forM_firstFault, firstFault_eq_error]

/--
**Layers are resolved token by token, or refused for the first invalid setting.**  Resolving fails
if a layer has an invalid setting, whether or not the other one replaces it; the error is that of
the first layer's first one, else of the second layer's.  In a theme a token has the value of the
second layer, else that of the first, else the default, and it is absent only if none has one.
-/
theorem resolve_layered (defaults : SortedMap Category Tokens) (configured : Layered Tokens) :
    ((∃ error, resolve defaults configured = .error error) ↔
      ∃ layer ∈ configured.toList, ∃ s : Setting, s.IsIn layer ∧ ¬ s.IsValid) ∧
    (∀ error, resolve defaults configured = .error error ↔
      ∃ s : Setting, s.error = error ∧
        (s.IsFirstInvalid configured.base ∨
          (∀ other : Setting, other.IsIn configured.base → other.IsValid) ∧
            s.IsFirstInvalid configured.extend)) ∧
    ∀ theme, resolve defaults configured = .ok theme → ∀ category token,
      theme.find? category token = layeredValue? defaults configured category token ∧
      (theme.find? category token = none ↔
        value? configured.extend category token = none ∧
          value? configured.base category token = none ∧
            value? defaults category token = none) := by
  refine ⟨?_, fun error => ?_, fun theme htheme category token => ?_⟩
  · -- Some fault is the first one exactly if there is a fault at all.
    have hsome : (∃ error, resolve defaults configured = .error error) ↔
        configured.toList.flatMap faults ≠ [] := by
      simp only [resolve_eq_error_iff, ← Option.isSome_iff_exists, List.isSome_head?]
    rw [hsome, ne_eq, List.flatMap_eq_nil_iff]
    simp only [faults_eq_nil_iff, not_forall, exists_prop]
  · have hlayers : configured.toList.flatMap faults =
        faults configured.base ++ faults configured.extend := by
      simp [Layered.toList]
    rw [resolve_eq_error_iff, hlayers, List.head?_append, Option.or_eq_some_iff,
      List.head?_eq_none_iff, faults_eq_nil_iff, head?_faults_eq_some_iff,
      head?_faults_eq_some_iff]
    constructor
    · rintro (⟨s, hs, rfl⟩ | ⟨hvalid, s, hs, rfl⟩)
      · exact ⟨s, rfl, .inl hs⟩
      · exact ⟨s, rfl, .inr ⟨hvalid, hs⟩⟩
    · rintro ⟨s, rfl, hs | ⟨hvalid, hs⟩⟩
      · exact .inl ⟨s, hs, rfl⟩
      · exact .inr ⟨hvalid, s, hs, rfl⟩
  · have hfind := find?_eq_layeredValue? htheme category token
    exact ⟨hfind, by rw [hfind, layeredValue?_eq_none_iff]⟩

/-- A value that the second layer replaces is checked all the same. -/
example : resolve ∅ {
    base := .ofList [(.zIndex, .ofList [("top", "high")])]
    extend := .ofList [(.zIndex, .ofList [("top", "1")])] } =
      .error (.invalidToken .zIndex "top" "high") := by
  decide +kernel

end AtomicCss.Theme
