/-
No rule is closed from the inside.

A semicolon ends a declaration, and a brace opens or ends a block.  What a rule writes between
them comes from six places: the defaults, the configured tokens, the brackets of a class, the
fixed words of a utility, and what negating and marking a class put around a value.  None of
them has one of the three characters.  Tokens do not, because their alphabet has none; brackets
do not, because a text that has one is refused before it is decoded, and decoding puts nothing
in but spaces; and the media queries are fixed but for the width of a screen, which is a token.
-/
import AtomicCss.Proofs.Theme.Breakpoint
import AtomicCss.Proofs.Selector.Rule
import AtomicCss.Proofs.Utility.SelfContained

namespace AtomicCss

/-- A text without semicolons and braces. -/
def BraceFree (cs : List Char) : Prop :=
  ∀ c ∈ [';', '\x7b', '\x7d'], c ∉ cs

instance (cs : List Char) : Decidable (BraceFree cs) :=
  decidable_of_iff ([';', '\x7b', '\x7d'].all (!cs.contains ·) = true) (by simp [BraceFree])

theorem BraceFree.append {cs ds : List Char} (hcs : BraceFree cs) (hds : BraceFree ds) :
    BraceFree (cs ++ ds) := by
  intro c hc hmem
  rcases List.mem_append.mp hmem with hmem | hmem
  · exact hcs c hc hmem
  · exact hds c hc hmem

theorem BraceFree.of_subset {cs ds : List Char} (hcs : BraceFree cs) (h : ds ⊆ cs) :
    BraceFree ds :=
  fun c hc hmem => hcs c hc (h hmem)

namespace Value

open Text

/-! ### Values -/

theorem TokenText.braceFree {cs : List Char} (h : TokenText cs) : BraceFree cs := by
  have hbraces : [';', '\x7b', '\x7d'].any isTokenChar = false := by decide
  exact fun c hc hmem => List.any_eq_false.mp hbraces c hc (h c hmem)

theorem mem_of_mem_decode {c : Char} {raw : List Char} (h : c ∈ Arbitrary.decode raw) :
    c ∈ raw ∨ c = ' ' := by
  fun_induction Arbitrary.decode raw with
  | case1 => cases h
  | case2 cs ih =>
      rcases List.mem_cons.mp h with rfl | h
      · exact .inl (by simp)
      · exact (ih h).imp_left fun hmem => by simp [hmem]
  | case3 cs ih =>
      rcases List.mem_cons.mp h with rfl | h
      · exact .inr rfl
      · exact (ih h).imp_left fun hmem => by simp [hmem]
  | case4 d cs _ _ ih =>
      rcases List.mem_cons.mp h with rfl | h
      · exact .inl (by simp)
      · exact (ih h).imp_left fun hmem => by simp [hmem]

/-- What brackets may hold. -/
theorem braceFree_decode {raw : List Char} (h : ∀ c ∈ raw, Arbitrary.endsDeclaration c = false) :
    BraceFree (Arbitrary.decode raw) := by
  have hends : [';', '\x7b', '\x7d'].all Arbitrary.endsDeclaration = true := by decide
  have hspaces : [';', '\x7b', '\x7d'].contains ' ' = false := by decide
  intro c hc hmem
  rcases mem_of_mem_decode hmem with hraw | rfl
  · exact Bool.eq_false_iff.mp (h c hraw) (List.all_eq_true.mp hends c hc)
  · exact Bool.eq_false_iff.mp hspaces (List.contains_iff_mem.mpr hc)

theorem braceFree_negateNumber {cs : List Char} (h : BraceFree cs) :
    BraceFree (negateNumber cs) := by
  have hminus : BraceFree ['-'] := by decide
  unfold negateNumber
  split
  · exact h
  · split
    · exact h.of_subset (List.subset_cons_self _ _)
    · exact hminus.append (h.of_subset (List.dropWhile_sublist _).subset)

theorem braceFree_negate? {value negated : String} (h : negate? value = some negated)
    (hvalue : BraceFree value.toList) : BraceFree negated.toList := by
  have htrim : BraceFree (trim value.toList) := by
    obtain ⟨before, after, hcs, -, -⟩ := exists_trim value.toList
    refine hvalue.of_subset fun c hc => ?_
    rw [hcs]
    simp [hc]
  have hcalc : BraceFree "calc(".toList ∧ BraceFree " * -1)".toList := by decide
  simp only [negate?] at h
  split at h
  · obtain rfl := Option.some.inj h
    rw [String.toList_ofList]
    exact braceFree_negateNumber htrim
  · split at h
    · cases h
    · obtain rfl := Option.some.inj h
      rw [String.toList_ofList]
      exact (hcalc.1.append htrim).append hcalc.2

end Value

open Value

/-! ### Declarations -/

section Declarations

variable {theme : Theme} (htheme : Theme.Fits theme.tokens)

include htheme in
theorem Theme.braceFree_of_find? {category : Category} {token value : String}
    (hfind : theme.find? category token = some value) : BraceFree value.toList := by
  obtain ⟨tokens, htokens, hvalue⟩ := Option.bind_eq_some_iff.mp hfind
  have hfits : Theme.FitsCategory category value :=
    htheme _ (SortedMap.mem_of_find? htokens) _ (SortedMap.mem_of_find? hvalue)
  exact (tokenText_of_acceptsTrimmed hfits).braceFree

include htheme in
/-- A value is a token's or stands in brackets. -/
theorem Utility.braceFree_of_tokenValue? {category : Category} {tail : Tail} {token : TokenRef}
    {value : String} (h : tokenValue? theme category tail = some (token, value)) :
    BraceFree value.toList := by
  rcases tokenValue?_eq_some_iff.mp h with ⟨name, -, hfind, -⟩ | ⟨text, raw, -, -, hvalue, -⟩
  · exact Theme.braceFree_of_find? htheme hfind
  · obtain ⟨hguard, rfl⟩ := Arbitrary.value?_eq_some hvalue
    rw [String.toList_ofList]
    exact braceFree_decode hguard

include htheme in
/-- What a utility writes besides its value is fixed, or the theme's default duration. -/
theorem Utility.braceFree_declarations (utility : Utility) {value : String}
    (hvalue : BraceFree value.toList) :
    ∀ d ∈ utility.declarations theme value, BraceFree d.value.toList := by
  have hduration : BraceFree (transitionDuration theme).toList := by
    unfold transitionDuration
    cases hfind : theme.find? .transitionDuration defaultToken with
    | none => decide
    | some duration => exact Theme.braceFree_of_find? htheme hfind
  exact (forall_declarations_iff (P := fun s => BraceFree s.toList) (by decide) (by decide)
    hduration utility value).mpr hvalue

include htheme in
theorem BaseRule.braceFree_declarations {cs : List Char} {rule : BaseRule}
    (h : ofClass? theme cs = some rule) : ∀ d ∈ rule.declarations, BraceFree d.value.toList := by
  have hmark : BraceFree " !important".toList := by decide
  obtain ⟨utility, tail, value, written, -, hvalue, hwritten, hdeclarations⟩ :=
    exists_tail_of_ofClass? h
  have hvalue := Utility.braceFree_of_tokenValue? htheme hvalue
  have hwritten : BraceFree written.toList := by
    split at hwritten
    · exact braceFree_negate? hwritten hvalue
    · exact Option.some.inj hwritten ▸ hvalue
  have hall := Utility.braceFree_declarations htheme utility hwritten
  rw [hdeclarations]
  split
  · intro d hd
    obtain ⟨plain, hplain, rfl⟩ := List.mem_map.mp hd
    show BraceFree (plain.value ++ " !important").toList
    rw [String.toList_append]
    exact (hall plain hplain).append hmark
  · exact hall

end Declarations

/-! ### Media queries -/

/-- A media query without semicolons and braces, or something else. -/
def Contribution.IsBraceFree : Contribution → Prop
  | .wrapper query => BraceFree query.toList
  | _ => True

namespace VariantContext

variable {ctx : VariantContext}

/-- The media queries of a context are fixed but for the widths of its screens. -/
theorem isBraceFree_of_contributionOf? (hscreens : ∀ b ∈ ctx.screens, BraceFree b.width.toList)
    {category : Category} {name : String} {x : Contribution}
    (h : ctx.contributionOf? category name = some x) : x.IsBraceFree := by
  have hscreen : BraceFree "(min-width: ".toList ∧ BraceFree ")".toList := by decide
  have hdark : BraceFree "(prefers-color-scheme: dark)".toList := by decide
  have hfeatures : ∀ e ∈ Modifier.mediaFeatures, BraceFree e.2.toList := by decide
  rcases screen_or_means_of_contributionOf? h with ⟨screen, hmem, rfl⟩ | hmeans
  · show BraceFree ("(min-width: " ++ screen.width ++ ")").toList
    rw [String.toList_append, String.toList_append]
    exact (hscreen.1.append (hscreens screen hmem)).append hscreen.2
  · cases hmeans with
    | darkMedia => exact hdark
    | darkAncestor => trivial
    | media hmem => exact hfeatures _ hmem
    | pseudoClass => trivial
    | group => trivial

end VariantContext

namespace ClassRule

variable {theme : Theme} {ctx : VariantContext} {literal : String} {r : ClassRule}

theorem braceFree_wrappers (hscreens : ∀ b ∈ ctx.screens, BraceFree b.width.toList)
    (h : ofLiteral? theme ctx literal = some r) : ∀ q ∈ r.wrappers, BraceFree q.toList := by
  obtain ⟨rule, contributions, -, hmodifiers, rfl⟩ := ofLiteral?_eq_some h
  intro q hq
  obtain ⟨x, hx, hwrapper⟩ := List.mem_filterMap.mp hq
  obtain ⟨name, -, hname⟩ := exists_mem_of_mapM_eq_some hmodifiers x hx
  have hfree := VariantContext.isBraceFree_of_contributionOf? hscreens hname
  cases x with
  | wrapper query => exact Option.some.inj hwrapper ▸ hfree
  | ancestor selector => cases hwrapper
  | pseudoClass selector => cases hwrapper

theorem braceFree_declarations (htheme : Theme.Fits theme.tokens)
    (h : ofLiteral? theme ctx literal = some r) :
    ∀ d ∈ r.declarations, BraceFree d.value.toList := by
  obtain ⟨rule, contributions, hrule, -, rfl⟩ := ofLiteral?_eq_some h
  exact BaseRule.braceFree_declarations htheme hrule

/--
**No value and no media query of a rule has a semicolon or a brace.**  Under every valid
configuration this holds of whatever literal has a rule, wherever its value comes from.
-/
theorem braceFree_of_validate {config : Config} (h : config.validate = .ok ()) :
    ∃ theme, Theme.resolve Theme.defaults config.theme = .ok theme ∧
      ∀ ctx, VariantContext.of? config theme = some ctx →
        ∀ literal r, ofLiteral? theme ctx literal = some r →
          (∀ d ∈ r.declarations, BraceFree d.value.toList) ∧
            ∀ query ∈ r.wrappers, BraceFree query.toList := by
  obtain ⟨theme, htheme⟩ :=
    Theme.exists_resolve (Config.checkTokens_of_validate h) Theme.defaults
  refine ⟨theme, htheme, fun ctx hctx literal r hr => ?_⟩
  refine ⟨braceFree_declarations (Theme.fits_of_resolve htheme) hr, ?_⟩
  refine braceFree_wrappers (fun b hb => ?_) hr
  have hscreen := (Theme.mem_screens_iff (VariantContext.of_of? hctx).1).mp hb
  exact (tokenText_of_acceptsTrimmed (Theme.fitsCategory_of_resolve htheme hscreen)).braceFree

/-- A configured screen and a negated, important value in brackets. -/
theorem braceFree_of_validate_negated :
    let config : Config := {
      content := ["a"]
      theme := { extend := .ofList [(.screens, .ofList [("wide", " 99rem ")])] } }
    config.validate = .ok () ∧
      ∃ theme ctx r, Theme.resolve Theme.defaults config.theme = .ok theme ∧
        VariantContext.of? config theme = some ctx ∧
        ofLiteral? theme ctx "wide:!-z-[var(--a)]" = some r ∧
        r.wrappers = ["(min-width: 99rem)"] ∧
        (∀ d ∈ r.declarations, BraceFree d.value.toList) ∧
        ∀ query ∈ r.wrappers, BraceFree query.toList := by
  intro config
  have hvalid : config.validate = .ok () := by decide +kernel
  obtain ⟨theme, htheme, hall⟩ := braceFree_of_validate hvalid
  have hwrappers : (Theme.resolve Theme.defaults config.theme).toOption.bind (fun theme =>
      (VariantContext.of? config theme).bind fun ctx =>
        (ofLiteral? theme ctx "wide:!-z-[var(--a)]").map (·.wrappers)) =
          some ["(min-width: 99rem)"] := by
    decide +kernel
  rw [htheme] at hwrappers
  obtain ⟨ctx, hctx, hwrappers⟩ := Option.bind_eq_some_iff.mp
    (show (VariantContext.of? config theme).bind _ = _ from hwrappers)
  obtain ⟨r, hr, hwrappers⟩ := Option.map_eq_some_iff.mp hwrappers
  exact ⟨hvalid, theme, ctx, r, htheme, hctx, hr, hwrappers, hall ctx hctx _ r hr⟩

end ClassRule

end AtomicCss
