/-
What resolving a theme promises.

A theme is the default one with two layers folded onto it, each token checked on its way
in.  `Fits` is what the fold keeps: every value is of the kind that its category asks for.
The defaults fit, a token that is checked fits, and so every value of a resolved theme
does, whichever layer it comes from.

The only thing that can stop the fold is a token that does not pass its check, and a check
looks at nothing but the token.  So resolving is the same as checking both layers first, as the
checks of a configuration do, and then folding without a check; and two layers of valid tokens
always resolve.
-/
import AtomicCss.Config.Validate
import AtomicCss.Proofs.Fallible
import AtomicCss.Proofs.SortedMap
import AtomicCss.Theme.Default

namespace AtomicCss.Theme

open Text

/-- A value of the kind that a category asks for, without white space around it. -/
def FitsCategory (category : Category) (value : String) : Prop :=
  category.valueKind.acceptsTrimmed value.toList = true

instance (category : Category) (value : String) : Decidable (FitsCategory category value) :=
  inferInstanceAs (Decidable (_ = true))

/-- Every value in a table is of its category's kind. -/
def Fits (table : SortedMap Category Tokens) : Prop :=
  ∀ e ∈ table.entries, ∀ t ∈ e.2.entries, FitsCategory e.1 t.2

theorem checkToken_eq_ok {category : Category} {token value : String} :
    checkToken category token value = .ok () ↔ category.valueKind.accepts value = true := by
  unfold checkToken
  split <;> simp_all

theorem fitsCategory_trimmed {category : Category} {token value : String}
    (h : checkToken category token value = .ok ()) : FitsCategory category (trimmed value) := by
  have := checkToken_eq_ok.mp h
  simpa [FitsCategory, trimmed, ValueKind.accepts] using this

/-! ### The fold keeps what fits -/

theorem addTokens_fits {category : Category} {current added tokens : Tokens}
    (hcurrent : ∀ t ∈ current.entries, FitsCategory category t.2)
    (h : addTokens category current added = .ok tokens) :
    ∀ t ∈ tokens.entries, FitsCategory category t.2 := by
  refine foldlM_keeps (P := fun tokens : Tokens => ∀ t ∈ tokens.entries, FitsCategory category t.2)
    h hcurrent ?_
  rintro tokens ⟨token, value⟩ next - hfits hnext t ht
  obtain ⟨⟨⟩, hcheck, hnext⟩ := bind_eq_ok.mp hnext
  obtain rfl := pure_eq_ok.mp hnext
  rcases SortedMap.mem_insert ht with rfl | ht
  · exact fitsCategory_trimmed hcheck
  · exact hfits t ht

theorem applyLayer_fits {table layer next : SortedMap Category Tokens} (hfits : Fits table)
    (h : applyLayer table layer = .ok next) : Fits next := by
  refine foldlM_keeps (P := Fits) h hfits ?_
  rintro table ⟨category, added⟩ next - hfits hnext e he
  obtain ⟨tokens, htokens, hnext⟩ := bind_eq_ok.mp hnext
  obtain rfl := pure_eq_ok.mp hnext
  rcases SortedMap.mem_insert he with rfl | he
  · refine addTokens_fits ?_ htokens
    cases hfind : table.find? category with
    | none => intro t ht; cases ht
    | some current => exact hfits _ (SortedMap.mem_of_find? hfind)
  · exact hfits e he

theorem ofList_fits {category : Category} {tokens : List (String × String)}
    (h : ∀ t ∈ tokens, FitsCategory category t.2) :
    ∀ t ∈ (SortedMap.ofList tokens).entries, FitsCategory category t.2 :=
  fun t ht => h t (SortedMap.mem_ofList ht)

/-- Every default passes the check of its category. -/
theorem defaults_fits : Fits defaults := by
  intro e he
  have he := SortedMap.mem_ofList he
  simp only [List.map_cons, List.map_nil, List.mem_cons, List.not_mem_nil, or_false] at he
  rcases he with rfl | rfl | rfl | rfl | rfl | rfl | rfl | rfl
  all_goals exact ofList_fits (by decide +kernel)

/-- **Every value of a resolved theme is of its category's kind.** -/
theorem fits_of_resolve {configured : Layered Tokens} {theme : Theme}
    (h : resolve defaults configured = .ok theme) : Fits theme.tokens := by
  obtain ⟨table, htable, htheme⟩ := bind_eq_ok.mp h
  obtain rfl := pure_eq_ok.mp htheme
  exact foldlM_keeps (P := Fits) htable defaults_fits
    fun _ _ _ _ hfits hnext => applyLayer_fits hfits hnext

theorem fitsCategory_of_resolve {configured : Layered Tokens} {theme : Theme}
    (h : resolve defaults configured = .ok theme) {category : Category} {token value : String}
    (hfind : theme.find? category token = some value) : FitsCategory category value := by
  obtain ⟨tokens, htokens, hvalue⟩ := Option.bind_eq_some_iff.mp hfind
  exact fits_of_resolve h _ (SortedMap.mem_of_find? htokens) _ (SortedMap.mem_of_find? hvalue)

/-! ### The checks apart from the fold -/

/-- The tokens of a category with others added, unchecked. -/
def addAll (current added : Tokens) : Tokens :=
  added.entries.foldl (fun tokens t => tokens.insert t.1 (trimmed t.2)) current

/-- A table with a layer put on it, unchecked. -/
def putLayer (table layer : SortedMap Category Tokens) : SortedMap Category Tokens :=
  layer.entries.foldl
    (fun table e => table.insert e.1 (addAll ((table.find? e.1).getD ∅) e.2)) table

theorem addTokens_eq (category : Category) (current added : Tokens) :
    addTokens category current added =
      (added.entries.forM (fun t => checkToken category t.1 t.2) >>= fun _ =>
        pure (addAll current added)) := by
  rw [addTokens, addAll, ← foldlM_check]

theorem applyLayer_eq (table layer : SortedMap Category Tokens) :
    applyLayer table layer =
      (Config.checkTokens layer >>= fun _ => pure (putLayer table layer)) := by
  have hstep : ∀ (table : SortedMap Category Tokens) (e : Category × Tokens),
      (addTokens e.1 ((table.find? e.1).getD ∅) e.2 >>= fun tokens =>
          pure (table.insert e.1 tokens)) =
        (e.2.entries.forM (fun t => checkToken e.1 t.1 t.2) >>= fun _ =>
          (pure (table.insert e.1 (addAll ((table.find? e.1).getD ∅) e.2)) :
            Except ConfigError _)) := by
    intro table e
    rw [addTokens_eq]
    cases e.2.entries.forM fun t => checkToken e.1 t.1 t.2 <;> rfl
  unfold applyLayer
  simp only [hstep]
  exact foldlM_check _ _ layer.entries table

/-- **Resolving is checking both layers and then folding them onto the defaults.** -/
theorem resolve_eq (table : SortedMap Category Tokens) (configured : Layered Tokens) :
    resolve table configured =
      (configured.toList.forM Config.checkTokens >>= fun _ =>
        pure ⟨configured.toList.foldl putLayer table⟩) := by
  have happly : applyLayer = fun table layer =>
      Config.checkTokens layer >>= fun _ => pure (putLayer table layer) := by
    funext table layer
    exact applyLayer_eq table layer
  rw [resolve, happly, foldlM_check]
  cases configured.toList.forM Config.checkTokens <;> rfl

theorem exists_resolve {configured : Layered Tokens}
    (h : configured.toList.forM Config.checkTokens = .ok ()) (table : SortedMap Category Tokens) :
    ∃ theme, resolve table configured = .ok theme := by
  rw [resolve_eq, h]
  exact ⟨_, rfl⟩

end AtomicCss.Theme
