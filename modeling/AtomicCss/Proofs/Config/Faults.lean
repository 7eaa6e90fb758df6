/-
What the checks of a configuration refuse.

The checks look at the content patterns, at the tokens of both layers of the theme and at the
names in both layers of the modifiers, and stop at the first thing that is wrong.  `faults` lists
all that is wrong, in the order in which the checks would come to it, so a configuration is refused
for the head of that list; and the list is empty exactly for the configurations that can be used,
which `IsValid` says without an order.
-/
import AtomicCss.Proofs.Theme.Faults

namespace AtomicCss.Config

/-- A configuration that can be used. -/
structure IsValid (c : Config) : Prop where
  /-- Some content pattern holds more than white space. -/
  content : ∃ pattern ∈ c.content, Text.isBlankText pattern = false
  /-- Every token has a value for its category. -/
  tokens : ∀ layer ∈ c.theme.toList, ∀ s : Theme.Setting, s.IsIn layer → s.IsValid
  /-- Modifiers are enabled in categories of utilities only. -/
  categories : ∀ layer ∈ c.variants.toList, ∀ category names,
    layer.find? category = some names → category.isUtility = true
  /-- Every enabled name is known, and `dark` is enabled only if there is a dark mode. -/
  names : ∀ layer ∈ c.variants.toList, ∀ category names, layer.find? category = some names →
    ∀ name ∈ names.names, Modifier.isKnown name = true ∧
      ¬ (name = Modifier.darkName ∧ c.darkMode = .disabled)

/-! ### All that is wrong -/

/-- What is wrong with content patterns. -/
def contentFaults (content : List String) : List ConfigError :=
  if content.all Text.isBlankText then [.emptyContent] else []

/-- What is wrong with the names that are enabled in a category. -/
def nameFaults (darkMode : DarkMode) (category : Category) (names : NameSet) : List ConfigError :=
  (if category.isUtility then [] else [.unknownCategory .variants category.key]) ++
    (names.names.filter fun name => !canEnable darkMode name).map (.unknownVariant category)

/-- What is wrong with a layer of enabled names, category by category. -/
def variantFaults (darkMode : DarkMode) (layer : SortedMap Category NameSet) : List ConfigError :=
  layer.entries.flatMap fun e => nameFaults darkMode e.1 e.2

/-- All that is wrong with a configuration, in the order of its parts. -/
def faults (c : Config) : List ConfigError :=
  contentFaults c.content ++
    (Theme.faults c.theme.base ++ Theme.faults c.theme.extend) ++
    (variantFaults c.darkMode c.variants.base ++ variantFaults c.darkMode c.variants.extend)

theorem canEnable_eq_true_iff {darkMode : DarkMode} {name : String} :
    canEnable darkMode name = true ↔
      Modifier.isKnown name = true ∧ ¬ (name = Modifier.darkName ∧ darkMode = .disabled) := by
  simp [canEnable, or_iff_not_imp_left]

theorem contentFaults_eq_nil_iff {content : List String} :
    contentFaults content = [] ↔ ∃ pattern ∈ content, Text.isBlankText pattern = false := by
  simp [contentFaults]

theorem nameFaults_eq_nil_iff {darkMode : DarkMode} {category : Category} {names : NameSet} :
    nameFaults darkMode category names = [] ↔ category.isUtility = true ∧
      ∀ name ∈ names.names, Modifier.isKnown name = true ∧
        ¬ (name = Modifier.darkName ∧ darkMode = .disabled) := by
  simp only [← canEnable_eq_true_iff]
  simp [nameFaults]

theorem variantFaults_eq_nil_iff {darkMode : DarkMode} {layer : SortedMap Category NameSet} :
    variantFaults darkMode layer = [] ↔ ∀ category names, layer.find? category = some names →
      category.isUtility = true ∧
        ∀ name ∈ names.names, Modifier.isKnown name = true ∧
          ¬ (name = Modifier.darkName ∧ darkMode = .disabled) := by
  rw [variantFaults, List.flatMap_eq_nil_iff, Prod.forall]
  simp only [SortedMap.mem_entries_iff, nameFaults_eq_nil_iff]

/-- **Nothing is wrong with a configuration exactly if it can be used.** -/
theorem faults_eq_nil_iff {c : Config} : c.faults = [] ↔ c.IsValid := by
  rw [faults, List.append_eq_nil_iff, List.append_eq_nil_iff, List.append_eq_nil_iff,
    List.append_eq_nil_iff, contentFaults_eq_nil_iff, Theme.faults_eq_nil_iff,
    Theme.faults_eq_nil_iff, variantFaults_eq_nil_iff, variantFaults_eq_nil_iff]
  constructor
  · rintro ⟨⟨hcontent, hbase, hextend⟩, hbase', hextend'⟩
    refine ⟨hcontent, ?_, ?_, ?_⟩
    all_goals simp only [Layered.toList, List.forall_mem_cons, List.not_mem_nil, false_implies,
      implies_true, and_true]
    · exact ⟨hbase, hextend⟩
    · exact ⟨fun category names h => (hbase' category names h).1,
        fun category names h => (hextend' category names h).1⟩
    · exact ⟨fun category names h => (hbase' category names h).2,
        fun category names h => (hextend' category names h).2⟩
  · intro h
    have hbase : ∀ {α : Type} (l : Layered α), l.base ∈ l.toList := by simp [Layered.toList]
    have hextend : ∀ {α : Type} (l : Layered α), l.extend ∈ l.toList := by simp [Layered.toList]
    exact ⟨⟨h.content, h.tokens _ (hbase _), h.tokens _ (hextend _)⟩,
      fun category names hfind => ⟨h.categories _ (hbase _) category names hfind,
        h.names _ (hbase _) category names hfind⟩,
      fun category names hfind => ⟨h.categories _ (hextend _) category names hfind,
        h.names _ (hextend _) category names hfind⟩⟩

/-! ### The checks -/

theorem checkContent_eq (content : List String) :
    checkContent content = firstFault (contentFaults content) := by
  unfold checkContent contentFaults
  split <;> rfl

theorem checkNames_eq (darkMode : DarkMode) (category : Category) (names : NameSet) :
    checkNames darkMode category names = firstFault (nameFaults darkMode category names) := by
  unfold checkNames nameFaults
  cases category.isUtility with
  | false => rfl
  | true =>
      rw [← List.head?_filter]
      cases names.names.filter fun name => !canEnable darkMode name <;> rfl

/-- **A configuration is refused for the first thing that is wrong with it.** -/
theorem validate_eq (c : Config) : c.validate = firstFault c.faults := by
  have hchecks : c.validate = (do
      checkContent c.content
      c.theme.toList.forM checkTokens
      c.variants.toList.forM fun layer =>
        layer.entries.forM fun e => checkNames c.darkMode e.1 e.2) := rfl
  have htokens : checkTokens = fun layer => firstFault (Theme.faults layer) :=
    funext Theme.checkTokens_eq
  simp only [hchecks, htokens, checkContent_eq, checkNames_eq, forM_firstFault]
  rw [faults, firstFault_append, firstFault_append]
  simp [Layered.toList, variantFaults]

theorem validate_eq_ok {c : Config} : c.validate = .ok () ↔ c.IsValid := by
  rw [validate_eq, firstFault_eq_ok, faults_eq_nil_iff]

theorem checkTokens_of_validate {c : Config} (h : c.validate = .ok ()) :
    c.theme.toList.forM checkTokens = .ok () := by
  obtain ⟨⟨⟩, -, h⟩ := bind_eq_ok.mp h
  obtain ⟨⟨⟩, htokens, -⟩ := bind_eq_ok.mp h
  exact htokens

end AtomicCss.Config
