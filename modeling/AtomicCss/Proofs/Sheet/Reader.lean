/-
Reading a stylesheet back.

A stylesheet in either form is a sequence of blocks, each a selector with declarations or a
media query with a block.  The reader takes a block by its braces: what stands before the opening
one is a query or a selector, and what follows is read in the same way or cut at semicolons.
White space has to stand exactly where the form has it, and which form it is can be told from
whether there is a line feed.

If no text of a rule has a character of the layout, the reader finds the rules of a stylesheet
again.  So nothing of a rule is lost but its category.
-/
import AtomicCss.Proofs.Distinct
import AtomicCss.Proofs.Sheet.Layout
import AtomicCss.Proofs.Sheet.Order

namespace AtomicCss

/-- What the text of a rule says: the rule without its category. -/
structure Block where
  /-- The media queries around the block, outermost first. -/
  wrappers : List String
  selector : String
  declarations : List Declaration
  deriving DecidableEq

/-- What the text of a rule says. -/
def Rule.toBlock (r : Rule) : Block :=
  ⟨r.wrappers, r.selector, r.declarations⟩

namespace Block

open Text

/-! ### The reader -/

/-- What comes before the first `mark`, and what follows it. -/
def cut? (mark : Char) (cs : List Char) : Option (List Char × List Char) :=
  (after? [mark] (cs.dropWhile (· != mark))).map (cs.takeWhile (· != mark), ·)

/-- The query or selector that opens a block, and what follows the brace. -/
def title? (style : Style) (cs : List Char) : Option (List Char × List Char) := do
  let (head, rest) ← cut? '\x7b' cs
  let title ← before? style.gap head
  return (title, rest)

/-- Reads a declaration. -/
def readDeclaration (style : Style) (depth : Nat) (piece : List Char) : Option Declaration := do
  let text ← after? (style.lead depth) piece
  let (property, rest) ← cut? ':' text
  let value ← after? style.gap rest
  return ⟨String.ofList property, String.ofList value⟩

/-- Reads the declarations of a block with so many blocks around it. -/
def readDeclarations (style : Style) (depth : Nat) (text : List Char) :
    Option (List Declaration) := do
  let body ← before? (style.ending depth) text
  (body.splitOn ';').mapM (readDeclaration style (depth + 1))

theorem cut?_eq_some {mark : Char} {cs before rest : List Char}
    (h : cut? mark cs = some (before, rest)) : cs = before ++ mark :: rest := by
  obtain ⟨rest', hrest, hpair⟩ := Option.map_eq_some_iff.mp h
  cases hpair
  have hdrop : cs.dropWhile (· != mark) = mark :: rest := after?_eq_some_iff.mp hrest
  rw [← hdrop, List.takeWhile_append_dropWhile]

theorem cut?_length {mark : Char} {cs before rest : List Char}
    (h : cut? mark cs = some (before, rest)) : rest.length < cs.length := by
  rw [cut?_eq_some h, List.length_append, List.length_cons]
  omega

theorem title?_length {style : Style} {cs title rest : List Char}
    (h : title? style cs = some (title, rest)) : rest.length < cs.length := by
  obtain ⟨⟨head, rest'⟩, hcut, h⟩ := Option.bind_eq_some_iff.mp h
  obtain ⟨title', -, h⟩ := Option.bind_eq_some_iff.mp h
  cases h
  exact cut?_length hcut

/-- Reads a block with so many blocks around it, and gives what follows it. -/
def readBlock (style : Style) (depth : Nat) (cs : List Char) : Option (Block × List Char) :=
  match htitle : title? style cs with
  | none => none
  | some (title, rest) =>
    match after? Rule.mediaMark title with
    | none => do
      let (body, rest) ← cut? '\x7d' rest
      let declarations ← readDeclarations style depth body
      return (⟨[], String.ofList title, declarations⟩, rest)
    | some query =>
      match hlead : after? (style.lead (depth + 1)) rest with
      | none => none
      | some inner =>
        have : inner.length < cs.length :=
          Nat.lt_of_le_of_lt (after?_length hlead) (title?_length htitle)
        do
          let (block, rest) ← readBlock style (depth + 1) inner
          let rest ← after? (style.lead depth ++ ['\x7d']) rest
          return ({ block with wrappers := String.ofList query :: block.wrappers }, rest)
termination_by cs.length

theorem readBlock_length {style : Style} {depth : Nat} {cs rest : List Char} {block : Block}
    (h : readBlock style depth cs = some (block, rest)) : rest.length < cs.length := by
  fun_induction readBlock style depth cs generalizing block rest with
  | case1 | case3 => cases h
  | case2 depth cs title body htitle hselector =>
      obtain ⟨⟨text, after⟩, hcut, h⟩ := Option.bind_eq_some_iff.mp h
      obtain ⟨declarations, -, h⟩ := Option.bind_eq_some_iff.mp h
      cases h
      exact Nat.lt_trans (cut?_length hcut) (title?_length htitle)
  | case4 depth cs title body htitle query hquery inner hlead hshorter ih =>
      obtain ⟨⟨nested, closing⟩, hnested, h⟩ := Option.bind_eq_some_iff.mp h
      obtain ⟨after, hafter, h⟩ := Option.bind_eq_some_iff.mp h
      cases h
      exact Nat.lt_trans (Nat.lt_of_le_of_lt (after?_length hafter) (ih hnested)) hshorter

/-- Reads blocks up to the end. -/
def readBlocks (style : Style) (cs : List Char) : Option (List Block) :=
  if cs.isEmpty then some []
  else
    match hblock : readBlock style 0 cs with
    | none => none
    | some (block, rest) =>
      match hfinish : after? style.finish rest with
      | none => none
      | some more =>
        have : more.length < cs.length :=
          Nat.lt_of_le_of_lt (after?_length hfinish) (readBlock_length hblock)
        (readBlocks style more).map (block :: ·)
termination_by cs.length

/-- The form that a stylesheet is in: only the pretty one has line feeds. -/
def styleOf (cs : List Char) : Style :=
  if '\n' ∈ cs then .pretty else .minified

/-- Reads a stylesheet in either form. -/
def readSheet (text : String) : Option (List Block) :=
  readBlocks (styleOf text.toList) text.toList

/-! ### Reading what is written -/

variable {style : Style} {depth : Nat} {selector : String} {declarations : List Declaration}
  {queries : List String} {cs rest : List Char}

theorem cut?_append {mark : Char} (h : mark ∉ cs) :
    cut? mark (cs ++ mark :: rest) = some (cs, rest) := by
  have hall : ∀ c ∈ cs, (c != mark) = true := by
    intro c hc
    rw [bne_iff_ne]
    rintro rfl
    exact h hc
  rw [cut?, List.takeWhile_append_of_pos hall, List.dropWhile_append_of_pos hall]
  simp [after?]

theorem title?_append (h : '\x7b' ∉ cs) :
    title? style (cs ++ style.gap ++ '\x7b' :: rest) = some (cs, rest) := by
  have hgap : '\x7b' ∉ style.gap := by cases style <;> decide
  have hhead : '\x7b' ∉ cs ++ style.gap := by simp [h, hgap]
  rw [title?, cut?_append hhead]
  show (before? style.gap (cs ++ style.gap)).bind _ = _
  rw [before?_append]
  rfl

theorem readDeclaration_textAt {d : Declaration} (h : d.IsLegible) :
    readDeclaration style depth (d.textAt style depth) = some d := by
  have htext : d.textAt style depth =
      style.lead depth ++ (d.property.toList ++ ':' :: (style.gap ++ d.value.toList)) := by
    simp [Declaration.textAt]
  rw [readDeclaration, htext, after?_append]
  show (cut? ':' _).bind _ = _
  rw [cut?_append h.colon_notMem]
  show (after? style.gap _).bind _ = _
  rw [after?_append]
  show some (Declaration.mk (String.ofList d.property.toList) (String.ofList d.value.toList)) = _
  rw [String.ofList_toList, String.ofList_toList]

theorem notMem_lead {c : Char} (hline : c ≠ '\n') (hspace : c ≠ ' ') : c ∉ style.lead depth := by
  cases style with
  | minified => simp [Style.lead]
  | pretty => simp [Style.lead, hline, hspace]

theorem notMem_gap {c : Char} (hspace : c ≠ ' ') : c ∉ style.gap := by
  cases style with
  | minified => simp [Style.gap]
  | pretty => simp [Style.gap, hspace]

theorem notMem_of_mem_map_textAt {c : Char} (hline : c ≠ '\n') (hspace : c ≠ ' ')
    (hcolon : c ≠ ':') (h : ∀ d ∈ declarations, c ∉ d.property.toList ∧ c ∉ d.value.toList) :
    ∀ piece ∈ declarations.map (Declaration.textAt style depth), c ∉ piece := by
  intro piece hpiece
  obtain ⟨d, hd, rfl⟩ := List.mem_map.mp hpiece
  obtain ⟨hproperty, hvalue⟩ := h d hd
  have hlead : c ∉ style.lead depth := notMem_lead hline hspace
  have hgap : c ∉ style.gap := notMem_gap hspace
  simp [Declaration.textAt, hlead, hgap, hcolon, hproperty, hvalue]

theorem mapM_readDeclaration (h : ∀ d ∈ declarations, d.IsLegible) :
    (declarations.map (Declaration.textAt style depth)).mapM (readDeclaration style depth) =
      some declarations := by
  induction declarations with
  | nil => rfl
  | cons d declarations ih =>
      obtain ⟨hd, hrest⟩ := List.forall_mem_cons.mp h
      rw [List.map_cons, List.mapM_cons, readDeclaration_textAt hd, ih hrest]
      rfl

theorem readDeclarations_eq (h : Rule.IsLegibleBlock selector declarations) :
    readDeclarations style depth ([';'].intercalate (declarations.map
      (Declaration.textAt style (depth + 1))) ++ style.ending depth) = some declarations := by
  have hpieces : ([';'].intercalate (declarations.map
      (Declaration.textAt style (depth + 1)))).splitOn ';' =
        declarations.map (Declaration.textAt style (depth + 1)) := by
    refine List.splitOn_intercalate ';' ?_ (by simpa using h.declarations_ne_nil)
    refine notMem_of_mem_map_textAt (by decide) (by decide) (by decide) fun d hd => ?_
    obtain ⟨hproperty, -, hvalue⟩ := h.declarations_isLegible d hd
    exact ⟨hproperty.semicolon_notMem, hvalue.semicolon_notMem⟩
  rw [readDeclarations, before?_append]
  show (List.splitOn ';' _).mapM _ = _
  rw [hpieces, mapM_readDeclaration h.declarations_isLegible]

theorem closing_notMem_body (h : Rule.IsLegibleBlock selector declarations) :
    '\x7d' ∉ [';'].intercalate (declarations.map (Declaration.textAt style (depth + 1))) ++
      style.ending depth := by
  have hpieces : '\x7d' ∉ [';'].intercalate (declarations.map
      (Declaration.textAt style (depth + 1))) := by
    refine notMem_intercalate (by decide) ?_
    refine notMem_of_mem_map_textAt (by decide) (by decide) (by decide) fun d hd => ?_
    obtain ⟨hproperty, -, hvalue⟩ := h.declarations_isLegible d hd
    exact ⟨hproperty.closing_notMem, hvalue.closing_notMem⟩
  have hending : '\x7d' ∉ style.ending depth := by
    cases style <;> simp [Style.ending, Style.lead]
  rw [List.mem_append, not_or]
  exact ⟨hpieces, hending⟩

theorem after?_mediaMark_of_head? (h : cs.head? = some '.') : after? Rule.mediaMark cs = none := by
  cases hafter : after? Rule.mediaMark cs with
  | none => rfl
  | some query =>
      rw [after?_eq_some_iff.mp hafter] at h
      simp [Rule.mediaMark] at h

theorem readBlock_of_selector {title more body : List Char}
    (htitle : title? style cs = some (title, more)) (hselector : after? Rule.mediaMark title = none)
    (hbody : cut? '\x7d' more = some (body, rest))
    (hdeclarations : readDeclarations style depth body = some declarations) :
    readBlock style depth cs = some (⟨[], String.ofList title, declarations⟩, rest) := by
  rw [readBlock]
  split
  · rename_i hnone
    rw [htitle] at hnone
    cases hnone
  · rename_i hsome
    rw [htitle] at hsome
    cases hsome
    rw [hselector]
    show (cut? '\x7d' more).bind _ = _
    rw [hbody]
    show (readDeclarations style depth body).bind _ = _
    rw [hdeclarations]
    rfl

theorem readBlock_of_media {query more inner closing : List Char} {block : Block}
    (htitle : title? style cs = some (Rule.mediaMark ++ query, more))
    (hlead : after? (style.lead (depth + 1)) more = some inner)
    (hblock : readBlock style (depth + 1) inner = some (block, closing))
    (hclosing : after? (style.lead depth ++ ['\x7d']) closing = some rest) :
    readBlock style depth cs =
      some ({ block with wrappers := String.ofList query :: block.wrappers }, rest) := by
  rw [readBlock]
  split
  · rename_i hnone
    rw [htitle] at hnone
    cases hnone
  · rename_i hsome
    rw [htitle] at hsome
    cases hsome
    rw [after?_append]
    simp only
    split
    · rename_i hnone
      rw [hlead] at hnone
      cases hnone
    · rename_i hsome
      rw [hlead] at hsome
      cases hsome
      show (readBlock style (depth + 1) inner).bind _ = _
      rw [hblock]
      show (after? _ closing).bind _ = _
      rw [hclosing]
      rfl

/-- **A block is read back from its text**, whatever follows it. -/
theorem readBlock_nestedAt (h : Rule.IsLegibleBlock selector declarations)
    (hqueries : ∀ query ∈ queries, IsUnmarked query) (depth : Nat) (rest : List Char) :
    readBlock style depth (Rule.nestedAt style selector declarations depth queries ++ rest) =
      some (⟨queries, selector, declarations⟩, rest) := by
  induction queries generalizing depth rest with
  | nil =>
      have htext : Rule.nestedAt style selector declarations depth [] ++ rest =
          selector.toList ++ style.gap ++ '\x7b' ::
            (([';'].intercalate (declarations.map (Declaration.textAt style (depth + 1))) ++
              style.ending depth) ++ '\x7d' :: rest) := by
        simp [Rule.nestedAt, Rule.blockAt]
      rw [htext, readBlock_of_selector (title?_append h.selector_isUnmarked.opening_notMem)
        (after?_mediaMark_of_head? h.head?_selector) (cut?_append (closing_notMem_body h))
        (readDeclarations_eq h), String.ofList_toList]
  | cons query queries ih =>
      obtain ⟨hquery, hrest⟩ := List.forall_mem_cons.mp hqueries
      have htext : Rule.nestedAt style selector declarations depth (query :: queries) ++ rest =
          (Rule.mediaMark ++ query.toList) ++ style.gap ++ '\x7b' :: (style.lead (depth + 1) ++
            (Rule.nestedAt style selector declarations (depth + 1) queries ++
              ((style.lead depth ++ ['\x7d']) ++ rest))) := by
        simp [Rule.nestedAt]
      have hopening : '\x7b' ∉ Rule.mediaMark ++ query.toList := by
        simp [Rule.mediaMark, hquery.opening_notMem]
      rw [htext, readBlock_of_media (title?_append hopening) (after?_append _ _)
        (ih hrest (depth + 1) _) (after?_append _ _), String.ofList_toList]

/-! ### Stylesheets -/

theorem readBlocks_of_readBlock {block : Block} {more : List Char}
    (hblock : readBlock style 0 cs = some (block, rest))
    (hfinish : after? style.finish rest = some more) :
    readBlocks style cs = (readBlocks style more).map (block :: ·) := by
  have hne : cs.isEmpty = false := by
    have hlength := readBlock_length hblock
    cases cs with
    | nil => cases hlength
    | cons c cs => rfl
  rw [readBlocks, hne]
  simp only [Bool.false_eq_true, if_false]
  split
  · rename_i hnone
    rw [hblock] at hnone
    cases hnone
  · rename_i hsome
    rw [hblock] at hsome
    cases hsome
    split
    · rename_i hnone
      rw [hfinish] at hnone
      cases hnone
    · rename_i hsome
      rw [hfinish] at hsome
      cases hsome
      rfl

/-- The text of a rule in a stylesheet. -/
def sheetText (style : Style) (r : Rule) : List Char :=
  Rule.nestedAt style r.selector r.declarations 0 r.wrappers ++ style.finish

theorem readBlocks_flatMap {rules : List Rule} (h : ∀ r ∈ rules, r.IsLegible) :
    readBlocks style (rules.flatMap (sheetText style)) = some (rules.map Rule.toBlock) := by
  induction rules with
  | nil => rw [List.flatMap_nil, readBlocks]; rfl
  | cons r rules ih =>
      obtain ⟨hr, hrules⟩ := List.forall_mem_cons.mp h
      rw [List.flatMap_cons, sheetText, List.append_assoc,
        readBlocks_of_readBlock (readBlock_nestedAt hr.1 hr.2 0 _) (after?_append _ _), ih hrules]
      rfl

theorem lineFeed_notMem_nestedAt (h : Rule.IsLegibleBlock selector declarations)
    (hqueries : ∀ query ∈ queries, IsUnmarked query) (depth : Nat) :
    '\n' ∉ Rule.nestedAt .minified selector declarations depth queries := by
  induction queries generalizing depth with
  | nil =>
      have hpieces : '\n' ∉ [';'].intercalate (declarations.map
          (Declaration.textAt .minified (depth + 1))) := by
        refine notMem_intercalate (by decide) fun piece hpiece => ?_
        obtain ⟨d, hd, rfl⟩ := List.mem_map.mp hpiece
        obtain ⟨hproperty, -, hvalue⟩ := h.declarations_isLegible d hd
        simp [Declaration.textAt, Style.lead, Style.gap, hproperty.lineFeed_notMem,
          hvalue.lineFeed_notMem]
      simp [Rule.nestedAt, Rule.blockAt, Style.gap, Style.ending, hpieces,
        h.selector_isUnmarked.lineFeed_notMem]
  | cons query queries ih =>
      obtain ⟨hquery, hrest⟩ := List.forall_mem_cons.mp hqueries
      simp [Rule.nestedAt, Rule.mediaMark, Style.gap, Style.lead, hquery.lineFeed_notMem,
        ih hrest (depth + 1)]

/-- The form of a stylesheet can be told from its text, unless it has no rules. -/
theorem styleOf_flatMap {rules : List Rule} (h : ∀ r ∈ rules, r.IsLegible) (hne : rules ≠ []) :
    styleOf (rules.flatMap (sheetText style)) = style := by
  cases style with
  | minified =>
      refine if_neg fun hmem => ?_
      obtain ⟨r, hr, hline⟩ := List.mem_flatMap.mp hmem
      rw [sheetText, Style.finish, List.append_nil] at hline
      exact lineFeed_notMem_nestedAt (h r hr).1 (h r hr).2 0 hline
  | pretty =>
      obtain ⟨r, rest, rfl⟩ := List.exists_cons_of_ne_nil hne
      exact if_pos (List.mem_flatMap.mpr ⟨r, List.mem_cons_self, by simp [sheetText, Style.finish]⟩)

end Block

namespace Stylesheet

open Block

variable {sheet : Stylesheet}

theorem map_toList_render {style : Style} {rules : List Rule} (h : ∀ r ∈ rules, r.IsLegible) :
    (rules.map (Rule.render style)).map String.toList =
      rules.map fun r => Rule.nestedAt style r.selector r.declarations 0 r.wrappers := by
  rw [List.map_map]
  exact List.map_congr_left fun r hr => Rule.toList_render (h r hr).1 (h r hr).2

theorem toList_text (h : ∀ r ∈ sheet.rules, r.IsLegible) :
    sheet.text.toList = sheet.rules.flatMap (sheetText sheet.style) := by
  obtain ⟨rules, style⟩ := sheet
  simp only at h
  cases style with
  | minified =>
      show (String.join (rules.map (Rule.render .minified))).toList = _
      rw [String.toList_join, List.flatMap_def, map_toList_render h, List.flatMap_def]
      exact congrArg List.flatten (List.map_congr_left fun r _ => (List.append_nil _).symm)
  | pretty =>
      by_cases hne : rules = []
      · subst hne
        rfl
      · have hempty : (rules.map (Rule.render .pretty)).isEmpty = false := by simpa using hne
        have hpieces : (rules.map (Rule.render .pretty)).map String.toList ≠ [] := by
          simpa using hne
        have hconcat := Text.intercalate_concat '\n' hpieces
        have hseparator : "\n".toList = ['\n'] := rfl
        simp only [text, hempty, Bool.false_eq_true, if_false, String.toList_append,
          String.toList_intercalate, hseparator, hconcat]
        rw [map_toList_render h, List.flatMap_map]
        rfl

/-- **A stylesheet is read back from its text.** -/
theorem readSheet_text (h : ∀ r ∈ sheet.rules, r.IsLegible) :
    readSheet sheet.text = some (sheet.rules.map Rule.toBlock) := by
  rw [readSheet, toList_text h]
  by_cases hne : sheet.rules = []
  · rw [hne, List.flatMap_nil, readBlocks]
    rfl
  · rw [styleOf_flatMap h hne, readBlocks_flatMap h]

theorem mem_of_mem_rules_ofRules {style : Style} {rules : List Rule} {r : Rule}
    (h : r ∈ (ofRules style rules).rules) : r ∈ rules := by
  obtain ⟨c, -, hr⟩ := List.mem_flatMap.mp h
  exact (distinctOn_sublist _ _).subset (List.mem_of_mem_filter hr)

theorem exists_place_eq_of_mem {style : Style} {rules : List Rule} {r : Rule} (h : r ∈ rules) :
    ∃ s ∈ (ofRules style rules).rules, s.place = r.place := by
  obtain ⟨s, hs⟩ := Option.isSome_iff_exists.mp
    (List.find?_isSome.mpr ⟨r, h, BEq.rfl⟩ : (rules.find? (·.place == r.place)).isSome)
  rw [← (arranged_ofRules style rules).first] at hs
  exact ⟨s, List.mem_of_find?_eq_some hs, by simpa using List.find?_some hs⟩

/--
**Nothing of a rule is lost in its text**, in either form.  Both forms have the same rules: the
first of those given for each place, as they were given, in the order of a stylesheet.  Both texts
are read back as these, with all wrappers, selectors and declarations in order.  So stylesheets
that differ in any of these have different texts, of whatever form they are.
-/
theorem readSheet_ofRules (rules : List Rule) (h : ∀ r ∈ rules, r.IsLegible) :
    (ofRules .pretty rules).rules = (ofRules .minified rules).rules ∧
      ∀ style,
        Arranged rules (ofRules style rules).rules ∧
        (∀ r ∈ (ofRules style rules).rules, r ∈ rules) ∧
        (∀ r ∈ rules, ∃ s ∈ (ofRules style rules).rules, s.place = r.place) ∧
        readSheet (ofRules style rules).text = some ((ofRules style rules).rules.map Rule.toBlock) ∧
        ∀ sheet : Stylesheet, (∀ r ∈ sheet.rules, r.IsLegible) →
          sheet.text = (ofRules style rules).text →
          sheet.rules.map Rule.toBlock = (ofRules style rules).rules.map Rule.toBlock := by
  refine ⟨rfl, fun style => ?_⟩
  have hread : readSheet (ofRules style rules).text =
      some ((ofRules style rules).rules.map Rule.toBlock) :=
    readSheet_text fun r hr => h r (mem_of_mem_rules_ofRules hr)
  refine ⟨arranged_ofRules style rules, fun r => mem_of_mem_rules_ofRules,
    fun r => exists_place_eq_of_mem, hread, fun sheet hlegible htext => ?_⟩
  have hother := readSheet_text hlegible
  rw [htext, hread] at hother
  exact (Option.some.inj hother).symm

/-- Two media queries around a block, with colons and spaces in the values, and a rule of a
category that comes before. -/
theorem readSheet_ofRules_nested :
    let nested : Rule := ⟨.opacity, ".dark\\:a",
      ["(min-width: 768px)", "(prefers-color-scheme: dark)"],
      [⟨"opacity", "0.5"⟩, ⟨"--a", " b: c "⟩]⟩
    let plain : Rule := ⟨.zIndex, ".a > .b", [], [⟨"z-index", "1"⟩]⟩
    (∀ r ∈ [nested, plain], r.IsLegible) ∧
      ∀ style, readSheet (ofRules style [nested, plain]).text =
        some [plain.toBlock, nested.toBlock] := by
  intro nested plain
  have h : ∀ r ∈ [nested, plain], r.IsLegible := by decide
  refine ⟨h, fun style => ?_⟩
  have hrules : (ofRules style [nested, plain]).rules = [plain, nested] := by
    simp only [ofRules]
    rw [distinctOn_eq_self (by decide)]
    rfl
  obtain ⟨-, -, -, hread, -⟩ := (readSheet_ofRules [nested, plain] h).2 style
  rw [hread, hrules]
  rfl

end Stylesheet

end AtomicCss
