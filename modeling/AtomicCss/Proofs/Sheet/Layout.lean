/-
How the text of a rule is laid out.

The pretty form is made from the inside out: what a media query holds is made first and then
moved to the right, line by line.  Read from the outside in, every line begins with two spaces
for each block around it, whatever those are.  This needs lines that moving does not change
otherwise: none is empty and none ends with a carriage return, because each ends with a brace or
a semicolon.  In the minified form there is nothing where the pretty form has white space.
-/
import AtomicCss.Proofs.Text.Intercalate
import AtomicCss.Proofs.Text.Line
import AtomicCss.Sheet.Basic

namespace AtomicCss

namespace Style

/-- What stands before a brace and behind a colon. -/
def gap : Style → List Char
  | .pretty => [' ']
  | .minified => []

/-- What begins a line with so many blocks around it. -/
def lead : Style → Nat → List Char
  | .pretty, depth => '\n' :: List.replicate (2 * depth) ' '
  | .minified, _ => []

/-- What follows the last declaration of a block with so many blocks around it. -/
def ending : Style → Nat → List Char
  | .pretty, depth => ';' :: lead .pretty depth
  | .minified, _ => []

/-- What follows a rule. -/
def finish : Style → List Char
  | .pretty => ['\n']
  | .minified => []

end Style

/-! ### The text of a rule at a depth -/

/-- The text of a declaration with so many blocks around it. -/
def Declaration.textAt (style : Style) (depth : Nat) (d : Declaration) : List Char :=
  style.lead depth ++ d.property.toList ++ ':' :: style.gap ++ d.value.toList

namespace Rule

/-- The text of a block of declarations with so many blocks around it. -/
def blockAt (style : Style) (selector : String) (declarations : List Declaration) (depth : Nat) :
    List Char :=
  selector.toList ++ style.gap ++ '\x7b' ::
    ([';'].intercalate (declarations.map (Declaration.textAt style (depth + 1))) ++
      style.ending depth ++ ['\x7d'])

/-- What stands before a media query. -/
def mediaMark : List Char := ['@', 'm', 'e', 'd', 'i', 'a', ' ']

/-- The text of a block under some media queries, with so many blocks around it. -/
def nestedAt (style : Style) (selector : String) (declarations : List Declaration) :
    Nat → List String → List Char
  | depth, [] => blockAt style selector declarations depth
  | depth, query :: queries =>
    mediaMark ++ query.toList ++ style.gap ++ '\x7b' ::
      (style.lead (depth + 1) ++ nestedAt style selector declarations (depth + 1) queries ++
        style.lead depth ++ ['\x7d'])

end Rule

/-! ### Rules whose texts can be told from the layout -/

/-- A text has none of the characters that the layout is made of. -/
structure Text.IsUnmarked (text : String) : Prop where
  lineFeed_notMem : '\n' ∉ text.toList
  opening_notMem : '\x7b' ∉ text.toList
  closing_notMem : '\x7d' ∉ text.toList
  semicolon_notMem : ';' ∉ text.toList

instance (text : String) : Decidable (Text.IsUnmarked text) :=
  decidable_of_iff
    ('\n' ∉ text.toList ∧ '\x7b' ∉ text.toList ∧ '\x7d' ∉ text.toList ∧ ';' ∉ text.toList)
    ⟨fun ⟨hline, hopen, hclose, hsemi⟩ => ⟨hline, hopen, hclose, hsemi⟩,
      fun ⟨hline, hopen, hclose, hsemi⟩ => ⟨hline, hopen, hclose, hsemi⟩⟩

/-- A declaration can be told from the layout. -/
structure Declaration.IsLegible (d : Declaration) : Prop where
  property_isUnmarked : Text.IsUnmarked d.property
  colon_notMem : ':' ∉ d.property.toList
  value_isUnmarked : Text.IsUnmarked d.value

instance (d : Declaration) : Decidable d.IsLegible :=
  decidable_of_iff
    (Text.IsUnmarked d.property ∧ ':' ∉ d.property.toList ∧ Text.IsUnmarked d.value)
    ⟨fun ⟨hproperty, hcolon, hvalue⟩ => ⟨hproperty, hcolon, hvalue⟩,
      fun ⟨hproperty, hcolon, hvalue⟩ => ⟨hproperty, hcolon, hvalue⟩⟩

/-- A block of declarations can be told from the layout. -/
structure Rule.IsLegibleBlock (selector : String) (declarations : List Declaration) : Prop where
  head?_selector : selector.toList.head? = some '.'
  selector_isUnmarked : Text.IsUnmarked selector
  declarations_ne_nil : declarations ≠ []
  declarations_isLegible : ∀ d ∈ declarations, d.IsLegible

instance (selector : String) (declarations : List Declaration) :
    Decidable (Rule.IsLegibleBlock selector declarations) :=
  decidable_of_iff
    (selector.toList.head? = some '.' ∧ Text.IsUnmarked selector ∧ declarations ≠ [] ∧
      ∀ d ∈ declarations, d.IsLegible)
    ⟨fun ⟨hhead, hselector, hne, hall⟩ => ⟨hhead, hselector, hne, hall⟩,
      fun ⟨hhead, hselector, hne, hall⟩ => ⟨hhead, hselector, hne, hall⟩⟩

/-- A rule can be told from the layout. -/
def Rule.IsLegible (r : Rule) : Prop :=
  IsLegibleBlock r.selector r.declarations ∧ ∀ query ∈ r.wrappers, Text.IsUnmarked query

instance (r : Rule) : Decidable r.IsLegible :=
  inferInstanceAs (Decidable (_ ∧ _))

/-! ### Moving to the right -/

namespace Text

/-- A text with two spaces behind every line feed. -/
def moveRight (cs : List Char) : List Char :=
  cs.flatMap fun c => if c = '\n' then ['\n', ' ', ' '] else [c]

theorem moveRight_append (a b : List Char) : moveRight (a ++ b) = moveRight a ++ moveRight b :=
  List.flatMap_append

theorem moveRight_cons {c : Char} (h : c ≠ '\n') (cs : List Char) :
    moveRight (c :: cs) = c :: moveRight cs := by
  simp [moveRight, h]

theorem moveRight_of_notMem {cs : List Char} (h : '\n' ∉ cs) : moveRight cs = cs := by
  induction cs with
  | nil => rfl
  | cons c cs ih =>
      rw [List.mem_cons, not_or] at h
      rw [moveRight_cons (Ne.symm h.1), ih h.2]

theorem moveRight_intercalate {c : Char} (h : c ≠ '\n') (pieces : List (List Char)) :
    moveRight ([c].intercalate pieces) = [c].intercalate (pieces.map moveRight) := by
  induction pieces with
  | nil => rfl
  | cons piece pieces ih =>
      cases pieces with
      | nil => simp
      | cons next pieces =>
          rw [List.intercalate_cons_cons, moveRight_append, moveRight_append, ih,
            moveRight_cons h]
          simp only [List.map_cons, List.intercalate_cons_cons]
          rfl

/-- Every line of a text is kept as it is when the text is shown line by line. -/
def IsSolid (cs : List Char) : Prop :=
  ∀ line ∈ splitLines cs, line ≠ [] ∧ line.getLast? ≠ some '\r'

theorem isSolid_line {body : List Char} {c : Char} (hbody : '\n' ∉ body) (hc : c ≠ '\n')
    (hreturn : c ≠ '\r') : IsSolid (body ++ [c]) := by
  have hline : '\n' ∉ body ++ [c] := by
    rw [List.mem_append, List.mem_singleton, not_or]
    exact ⟨hbody, Ne.symm hc⟩
  intro line hmem
  rw [splitLines_of_notMem hline, List.mem_singleton] at hmem
  subst hmem
  exact ⟨by simp, by simpa using hreturn⟩

theorem IsSolid.append_lineFeed {a b : List Char} (ha : IsSolid a) (hb : IsSolid b) :
    IsSolid (a ++ '\n' :: b) := by
  intro line hmem
  rw [splitLines_append_lineFeed, List.mem_append] at hmem
  exact hmem.elim (ha line) (hb line)

theorem IsSolid.cons {c : Char} {cs : List Char} (hc : c ≠ '\n') (h : IsSolid cs) :
    IsSolid (c :: cs) := by
  obtain ⟨first, after, hlines⟩ := List.exists_cons_of_ne_nil (splitLines_ne_nil cs)
  intro line hmem
  rw [splitLines_cons hc, hlines, consLine] at hmem
  rcases List.mem_cons.mp hmem with rfl | hmem
  · obtain ⟨hne, hlast⟩ := h first (hlines ▸ List.mem_cons_self)
    rw [List.getLast?_cons_of_ne_nil hne]
    exact ⟨List.cons_ne_nil _ _, hlast⟩
  · exact h line (hlines ▸ List.mem_cons_of_mem _ hmem)

theorem IsSolid.replicate_append {cs : List Char} (h : IsSolid cs) (n : Nat) :
    IsSolid (List.replicate n ' ' ++ cs) := by
  induction n with
  | zero => exact h
  | succ n ih => exact ih.cons (by decide)

theorem dropCarriageReturn_of_getLast? {line : List Char} (h : line.getLast? ≠ some '\r') :
    dropCarriageReturn line = line := by
  unfold dropCarriageReturn
  cases hbefore : before? ['\r'] line with
  | none => rfl
  | some rest =>
      rw [before?_eq_some_iff.mp hbefore] at h
      simp at h

theorem IsSolid.displayLines_eq {cs : List Char} (h : IsSolid cs) :
    displayLines cs = splitLines cs := by
  obtain ⟨init, last, hlines⟩ := (List.eq_nil_or_concat _).resolve_left (splitLines_ne_nil cs)
  rw [List.concat_eq_append] at hlines
  have hinit : init.map dropCarriageReturn = init := by
    refine (List.map_congr_left fun line hline => ?_).trans (List.map_id _)
    exact dropCarriageReturn_of_getLast? (h line (by rw [hlines]; simp [hline])).2
  have hlast : last ≠ [] := (h last (by rw [hlines]; simp)).1
  simp only [displayLines, hlines, List.dropLast_concat, List.getLast?_concat, hinit]

/-- Moving every line to the right moves what follows the line feeds. -/
theorem intercalate_map_splitLines (cs : List Char) :
    ['\n'].intercalate ((splitLines cs).map fun line => ' ' :: ' ' :: line) =
      ' ' :: ' ' :: moveRight cs := by
  induction cs with
  | nil => rfl
  | cons c cs ih =>
      obtain ⟨first, after, hlines⟩ := List.exists_cons_of_ne_nil (splitLines_ne_nil cs)
      rw [hlines, List.map_cons] at ih
      by_cases hc : c = '\n'
      · subst hc
        rw [splitLines_cons_lineFeed, hlines, List.map_cons, List.map_cons,
          List.intercalate_cons_cons, ih]
        rfl
      · obtain ⟨rest, hrest⟩ := exists_intercalate_cons '\n'
          (after.map fun line => ' ' :: ' ' :: line)
        rw [splitLines_cons hc, hlines, consLine, List.map_cons, moveRight_cons hc, hrest]
        rw [hrest] at ih
        simpa using ih

end Text

namespace Rule

open Text

theorem toList_indent {text : String} (h : IsSolid text.toList) :
    (indent text).toList = ' ' :: ' ' :: moveRight text.toList := by
  have hmove : (splitLines text.toList).map
      (fun line => if line.isEmpty then line else ' ' :: ' ' :: line) =
        (splitLines text.toList).map fun line => ' ' :: ' ' :: line := by
    refine List.map_congr_left fun line hline => ?_
    rw [if_neg (by simpa using (h line hline).1)]
  rw [indent, String.toList_ofList, h.displayLines_eq, hmove, intercalate_map_splitLines]

/-! ### What a rule looks like -/

variable {style : Style} {selector : String} {declarations : List Declaration}
  {queries : List String} {depth : Nat}

/-- A declaration on its line, without the semicolon. -/
def declarationLine (depth : Nat) (d : Declaration) : List Char :=
  List.replicate (2 * depth) ' ' ++ d.property.toList ++ ':' :: ' ' :: d.value.toList

theorem textAt_pretty (depth : Nat) (d : Declaration) :
    d.textAt .pretty depth = '\n' :: declarationLine depth d := by
  simp [Declaration.textAt, declarationLine, Style.lead, Style.gap]

theorem lineFeed_notMem_declarationLine {d : Declaration} (h : d.IsLegible) (depth : Nat) :
    '\n' ∉ declarationLine depth d := by
  simp [declarationLine, h.property_isUnmarked.lineFeed_notMem,
    h.value_isUnmarked.lineFeed_notMem]

theorem isSolid_closing (depth : Nat) : IsSolid (List.replicate (2 * depth) ' ' ++ ['\x7d']) :=
  isSolid_line (by simp) (by decide) (by decide)

theorem isSolid_declarations {d : Declaration} {body : List Char} {c : Char}
    (hall : ∀ e ∈ d :: declarations, e.IsLegible) (hbody : '\n' ∉ body) (hc : c ≠ '\n')
    (hreturn : c ≠ '\r') (depth : Nat) :
    IsSolid (body ++ c :: ([';'].intercalate ((d :: declarations).map
      (Declaration.textAt .pretty (depth + 1))) ++ Style.ending .pretty depth ++ ['\x7d'])) := by
  induction declarations generalizing d body c with
  | nil =>
      have hline := lineFeed_notMem_declarationLine (hall d List.mem_cons_self) (depth + 1)
      have htext := ((isSolid_line hbody hc hreturn).append_lineFeed
        (isSolid_line hline (by decide : ';' ≠ '\n') (by decide))).append_lineFeed
        (isSolid_closing depth)
      simpa [textAt_pretty, Style.ending, Style.lead] using htext
  | cons e declarations ih =>
      obtain ⟨hd, hrest⟩ := List.forall_mem_cons.mp hall
      have hline := lineFeed_notMem_declarationLine hd (depth + 1)
      have htext := (isSolid_line hbody hc hreturn).append_lineFeed
        (ih hrest hline (by decide : ';' ≠ '\n') (by decide))
      simpa [textAt_pretty, List.intercalate_cons_cons] using htext

theorem isSolid_nestedAt (h : IsLegibleBlock selector declarations)
    (hqueries : ∀ query ∈ queries, IsUnmarked query) (depth : Nat) :
    IsSolid (nestedAt .pretty selector declarations depth queries) := by
  induction queries generalizing depth with
  | nil =>
      obtain ⟨d, rest, rfl⟩ := List.exists_cons_of_ne_nil h.declarations_ne_nil
      have hbody : '\n' ∉ selector.toList ++ [' '] := by
        simp [h.selector_isUnmarked.lineFeed_notMem]
      have htext := isSolid_declarations h.declarations_isLegible hbody
        (by decide : '\x7b' ≠ '\n') (by decide) depth
      simpa [nestedAt, blockAt, Style.gap] using htext
  | cons query queries ih =>
      obtain ⟨hquery, hrest⟩ := List.forall_mem_cons.mp hqueries
      have hbody : '\n' ∉ mediaMark ++ query.toList ++ [' '] := by
        simp [mediaMark, hquery.lineFeed_notMem]
      have htext := ((isSolid_line hbody (by decide : '\x7b' ≠ '\n') (by decide)).append_lineFeed
        ((ih hrest (depth + 1)).replicate_append (2 * (depth + 1)))).append_lineFeed
        (isSolid_closing depth)
      simpa [nestedAt, Style.gap, Style.lead] using htext

/-! ### Moving a rule -/

theorem moveRight_lead (depth : Nat) :
    moveRight (Style.lead .pretty depth) = Style.lead .pretty (depth + 1) := by
  have hspaces : '\n' ∉ List.replicate (2 * depth) ' ' := by simp
  show '\n' :: ' ' :: ' ' :: moveRight (List.replicate (2 * depth) ' ') = _
  rw [moveRight_of_notMem hspaces]
  rfl

theorem moveRight_textAt {d : Declaration} (h : d.IsLegible) :
    moveRight (d.textAt .pretty depth) = d.textAt .pretty (depth + 1) := by
  have hproperty := moveRight_of_notMem h.property_isUnmarked.lineFeed_notMem
  have hvalue := moveRight_of_notMem h.value_isUnmarked.lineFeed_notMem
  simp only [Declaration.textAt, moveRight_append, moveRight_lead, hproperty, hvalue]
  rfl

theorem moveRight_nestedAt (h : IsLegibleBlock selector declarations)
    (hqueries : ∀ query ∈ queries, IsUnmarked query) :
    moveRight (nestedAt .pretty selector declarations depth queries) =
      nestedAt .pretty selector declarations (depth + 1) queries := by
  induction queries generalizing depth with
  | nil =>
      have hselector := moveRight_of_notMem h.selector_isUnmarked.lineFeed_notMem
      have hdeclarations : (declarations.map (Declaration.textAt .pretty (depth + 1))).map
          moveRight = declarations.map (Declaration.textAt .pretty (depth + 1 + 1)) := by
        rw [List.map_map]
        exact List.map_congr_left fun d hd => moveRight_textAt (h.declarations_isLegible d hd)
      have hbrace (cs : List Char) : moveRight ('\x7b' :: cs) = '\x7b' :: moveRight cs := rfl
      have hending : moveRight (Style.ending .pretty depth) = Style.ending .pretty (depth + 1) := by
        rw [Style.ending, moveRight_cons (by decide), moveRight_lead, Style.ending]
      simp only [nestedAt, blockAt, moveRight_append, hbrace, hselector, hending,
        moveRight_intercalate (by decide : ';' ≠ '\n'), hdeclarations]
      rfl
  | cons query queries ih =>
      obtain ⟨hquery, hrest⟩ := List.forall_mem_cons.mp hqueries
      have hquery := moveRight_of_notMem hquery.lineFeed_notMem
      have hbrace (cs : List Char) : moveRight ('\x7b' :: cs) = '\x7b' :: moveRight cs := rfl
      simp only [nestedAt, moveRight_append, hbrace, hquery, moveRight_lead, ih hrest]
      rfl

/-! ### The text of a rule -/

theorem toList_block (h : declarations ≠ []) :
    (block style selector declarations).toList = blockAt style selector declarations 0 := by
  cases style with
  | minified =>
      have hpieces : (declarations.map fun d => s!"{d.property}:{d.value}").map String.toList =
          declarations.map (Declaration.textAt .minified 1) := by
        simp [Declaration.textAt, Style.lead, Style.gap, Function.comp_def, toString]
      simp only [block, blockAt, String.toList_append, String.toList_intercalate, hpieces]
      simp [Style.gap, Style.ending]
  | pretty =>
      have hpieces : (declarations.map fun d => s!"  {d.property}: {d.value};").map String.toList =
          (declarations.map (declarationLine 1)).map (· ++ [';']) := by
        simp [declarationLine, Function.comp_def, toString]
      have hlines : declarations.map (Declaration.textAt .pretty 1) =
          (declarations.map (declarationLine 1)).map ('\n' :: ·) := by
        simp [textAt_pretty, Function.comp_def]
      have hne : declarations.map (declarationLine 1) ≠ [] := by simpa using h
      have hbody := cons_intercalate_map_concat '\n' ';' hne
      have hending (cs : List Char) : cs ++ Style.ending .pretty 0 ++ ['\x7d'] =
          (cs ++ [';']) ++ ['\n', '\x7d'] := by
        simp [Style.ending, Style.lead]
      simp only [block, blockAt, String.toList_append, String.toList_intercalate, hpieces, hlines,
        hending, ← hbody]
      simp [Style.gap]

theorem toList_underMedia_minified (query text : String) :
    (underMedia .minified query text).toList =
      mediaMark ++ query.toList ++ '\x7b' :: (text.toList ++ ['\x7d']) := by
  simp [underMedia, mediaMark]

theorem toList_underMedia_pretty (query : String) {text : String} (h : IsSolid text.toList) :
    (underMedia .pretty query text).toList =
      mediaMark ++ query.toList ++ ' ' :: '\x7b' ::
        (Style.lead .pretty 1 ++ moveRight text.toList ++ Style.lead .pretty 0 ++ ['\x7d']) := by
  simp [underMedia, mediaMark, toList_indent h, Style.lead]

/-- Without white space it does not matter how many blocks are around a rule. -/
theorem nestedAt_minified (depth : Nat) :
    nestedAt .minified selector declarations depth queries =
      nestedAt .minified selector declarations 0 queries := by
  induction queries generalizing depth with
  | nil => rfl
  | cons query queries ih =>
      rw [nestedAt, nestedAt, ih (depth + 1), ih (0 + 1)]
      rfl

/-- **A rule is laid out as its blocks are nested.** -/
theorem toList_render (h : IsLegibleBlock selector declarations)
    (hqueries : ∀ query ∈ queries, IsUnmarked query) :
    (queries.foldr (underMedia style) (block style selector declarations)).toList =
      nestedAt style selector declarations 0 queries := by
  induction queries with
  | nil => exact toList_block h.declarations_ne_nil
  | cons query queries ih =>
      obtain ⟨-, hqueries⟩ := List.forall_mem_cons.mp hqueries
      have hinner := ih hqueries
      rw [List.foldr_cons]
      cases style with
      | minified =>
          rw [toList_underMedia_minified, hinner, nestedAt, nestedAt_minified (0 + 1)]
          simp [Style.gap, Style.lead]
      | pretty =>
          have hsolid := isSolid_nestedAt h hqueries 0
          rw [toList_underMedia_pretty query (hinner ▸ hsolid), hinner,
            moveRight_nestedAt h hqueries]
          simp [nestedAt, Style.gap]

end Rule

end AtomicCss
