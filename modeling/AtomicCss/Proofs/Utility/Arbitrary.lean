/-
Every value can be written in brackets.

A value goes into the brackets of a class once its underscores are escaped and its spaces are
underscores.  Decoding undoes this, except where a backslash stands right before a space: there the
underscore for the space would look escaped.  Only values that could end their declaration, and
blank ones, are refused, so a class can take every other value, behind every stem.

Nothing that is encoded opens, closes or cuts, and the brackets around a value hold all its colons
together, unless the value itself closes them.  So the class is read whole, without modifiers.
-/
import AtomicCss.Proofs.Utility.Braces
import AtomicCss.Proofs.Utility.Stem
import AtomicCss.Proofs.Value.Decode
import AtomicCss.Proofs.Variant.Chain
import Mathlib.Data.List.Infix

namespace AtomicCss

namespace Arbitrary

open Chain

/-- How a character of a value is written in brackets. -/
def encodeChar (c : Char) : List Char :=
  if c = '_' then ['\\', '_'] else if c = ' ' then ['_'] else [c]

/-- A value as it is written in brackets. -/
def encode (value : List Char) : List Char :=
  value.flatMap encodeChar

theorem encode_cons (c : Char) (cs : List Char) : encode (c :: cs) = encodeChar c ++ encode cs :=
  List.flatMap_cons

theorem encodeChar_of_ne {c : Char} (h₁ : c ≠ '_') (h₂ : c ≠ ' ') : encodeChar c = [c] := by
  rw [encodeChar, if_neg h₁, if_neg h₂]

/-- What is encoded begins with an underscore only for a space. -/
theorem head?_encode {cs : List Char} (h : cs.head? ≠ some ' ') :
    (encode cs).head? ≠ some '_' := by
  cases cs with
  | nil => decide
  | cons c cs =>
      by_cases hunderscore : c = '_'
      · rw [hunderscore, encode_cons]
        exact fun h => absurd (Option.some.inj h) (by decide)
      · have hspace : c ≠ ' ' := fun hc => h (congrArg some hc)
        rw [encode_cons, encodeChar_of_ne hunderscore hspace]
        exact fun h => hunderscore (Option.some.inj h)

/-- **Decoding undoes encoding**, unless a backslash stands right before a space. -/
theorem decode_encode {cs : List Char} (h : ¬ ['\\', ' '] <:+: cs) : decode (encode cs) = cs := by
  induction cs with
  | nil => rfl
  | cons c cs ih =>
      have hrest : decode (encode cs) = cs := ih fun hinfix => h (List.infix_cons hinfix)
      rw [encode_cons]
      by_cases hunderscore : c = '_'
      · rw [hunderscore]
        exact congrArg ('_' :: ·) hrest
      · by_cases hspace : c = ' '
        · rw [hspace]
          exact congrArg (' ' :: ·) hrest
        · have hescape : c = '\\' → (encode cs).head? ≠ some '_' := by
            rintro rfl
            refine head?_encode fun hhead => h ?_
            obtain ⟨rest, rfl⟩ := List.head?_eq_some_iff.mp hhead
            exact ⟨[], rest, rfl⟩
          rw [encodeChar_of_ne hunderscore hspace, List.singleton_append,
            Value.decode_cons hunderscore hescape, hrest]

theorem mem_of_mem_encode {c : Char} {cs : List Char} (h : c ∈ encode cs) :
    c ∈ cs ∨ c ∈ ['\\', '_'] := by
  obtain ⟨d, hd, hc⟩ := List.mem_flatMap.mp h
  unfold encodeChar at hc
  split at hc
  · exact .inr hc
  · split at hc
    · exact .inr (List.mem_cons_of_mem _ hc)
    · exact .inl (List.mem_singleton.mp hc ▸ hd)

theorem endsDeclaration_of_braceFree {cs : List Char} (h : BraceFree cs) :
    ∀ c ∈ cs, endsDeclaration c = false := by
  intro c hc
  by_contra hends
  rw [Bool.not_eq_false, endsDeclaration, Bool.or_eq_true, Bool.or_eq_true, beq_iff_eq, beq_iff_eq,
    beq_iff_eq, or_assoc] at hends
  exact h c (by simpa using hends) hc

theorem value?_encode {value : String} (hblank : Text.isBlankText value = false)
    (hfree : BraceFree value.toList) (hescape : ¬ ['\\', ' '] <:+: value.toList) :
    value? (encode value.toList) = some value := by
  have hencoded : BraceFree (encode value.toList) := by
    intro c hc hmem
    rcases mem_of_mem_encode hmem with hvalue | hadded
    · exact hfree c hc hvalue
    · have : BraceFree ['\\', '_'] := by decide
      exact this c hc hadded
  have hany : (encode value.toList).any endsDeclaration = false :=
    List.any_eq_false.mpr fun c hc => by simp [endsDeclaration_of_braceFree hencoded c hc]
  have hall : value.toList.all Text.isBlank = false := hblank
  simp only [value?, decode_encode hescape, hany, hall]
  exact congrArg some String.ofList_toList

/-! ### Nothing that is encoded is a cut -/

theorem through_encodeChar (d : Depth) (c : Char) : d.through (encodeChar c) = d.after c := by
  unfold encodeChar
  split
  · rename_i h
    rw [h]
    rfl
  · split
    · rename_i h
      rw [h]
      rfl
    · rfl

theorem guards_encodeChar_iff {d : Depth} {c : Char} :
    d.Guards (encodeChar c) ↔ (c = ':' → d ≠ {}) := by
  have hplain : ∀ name : List Char, name.any isCut = false → c ≠ ':' →
      (d.Guards name ↔ (c = ':' → d ≠ {})) := by
    intro name hname hc
    have hguards := d.guards_of_not_isCut fun x hx =>
      Bool.eq_false_iff.mpr (List.any_eq_false.mp hname x hx)
    exact iff_of_true hguards fun heq => absurd heq hc
  unfold encodeChar
  split
  · rename_i h
    exact hplain _ (by decide) (h ▸ by decide)
  · split
    · rename_i h
      exact hplain _ (by decide) (h ▸ by decide)
    · exact Depth.guards_singleton

/-- The colons of a value are guarded after encoding if they were before. -/
theorem guards_encode_iff {d : Depth} {cs : List Char} : d.Guards (encode cs) ↔ d.Guards cs := by
  induction cs generalizing d with
  | nil => exact Iff.rfl
  | cons c cs ih =>
      rw [encode_cons, Depth.guards_append, guards_encodeChar_iff, through_encodeChar, ih,
        Depth.guards_cons]

end Arbitrary

namespace Utility

open Chain

/-- The class of a utility that has a value in brackets. -/
def bracketClass (u : Utility) (value : List Char) : List Char :=
  u.stem.toList ++ '-' :: '[' :: (Arbitrary.encode value ++ [']'])

/-- A class with a value in brackets has no modifiers if the value does not close the brackets. -/
theorem split_bracketClass (u : Utility) {value : List Char}
    (h : ∀ front, front <+: value → front.count ']' ≤ front.count '[') :
    Chain.split (u.bracketClass value) = ([], u.bracketClass value) := by
  have hall : ∀ u ∈ all, (u.stem.toList ++ ['-']).any isCut = false := by decide
  have hstem : ∀ c ∈ u.stem.toList ++ ['-'], isCut c = false := fun c hc =>
    Bool.eq_false_iff.mpr (List.any_eq_false.mp (hall u (mem_all u)) c hc)
  have hone : (Depth.through {} ['[']).brackets = 1 := by decide
  have hvalue : (Depth.through {} ['[']).Guards value :=
    Depth.guards_of_count fun front hfront => by
      have := h front hfront
      omega
  have hinside : (Depth.through {} ['[']).Guards (Arbitrary.encode value ++ [']']) :=
    Depth.guards_append.mpr
      ⟨Arbitrary.guards_encode_iff.mpr hvalue,
        Depth.guards_singleton.mpr fun h => absurd h (by decide)⟩
  have hbrackets : Depth.Guards {} (['['] ++ (Arbitrary.encode value ++ [']'])) :=
    Depth.guards_append.mpr ⟨Depth.guards_singleton.mpr (by decide), hinside⟩
  have hclass : u.bracketClass value =
      (u.stem.toList ++ ['-']) ++ (['['] ++ (Arbitrary.encode value ++ [']'])) := by
    simp [bracketClass]
  rw [hclass]
  refine split_of_guards (Depth.guards_append.mpr ⟨Depth.guards_of_not_isCut _ hstem, ?_⟩)
  rwa [Depth.through_of_not_isCut _ hstem]

theorem ofClass?_eq_ofValue {theme : Theme} (u : Utility) {value : String}
    (h : Arbitrary.value? (Arbitrary.encode value.toList) = some value) :
    BaseRule.ofClass? theme (u.bracketClass value.toList) =
      some (.ofValue theme u (.arbitrary value) value) := by
  have hshows : ¬ u.Hides ('[' :: (Arbitrary.encode value.toList ++ [']'])) := by
    rintro ⟨-, axis, haxis, heq | hprefix⟩
    · obtain rfl := (List.cons.inj heq).1
      exact absurd haxis (by decide)
    · obtain rfl := (List.cons_prefix_cons.mp hprefix).1
      exact absurd haxis (by decide)
  refine (BaseRule.ofClass?_unmarked_iff (u.unmarked_stem_append _)).mpr
    ⟨u, _, .arbitrary value, value, find?_append hshows, ?_, rfl⟩
  exact tokenValue?_eq_some_iff.mpr
    (.inr ⟨_, _, rfl, Arbitrary.bracketed?_brackets _, h, rfl⟩)

/--
**Every value can be written in brackets.**  Behind every stem and under every theme, a value that
is not blank, cannot end its declaration and has no backslash right before a space is what its
utility's own properties get, unchanged.  If no beginning of the value closes more brackets than it
opens, the class stands for itself among those with modifiers, whatever colons the value has.
-/
theorem ofClass?_bracketClass (theme : Theme) (u : Utility) {value : String}
    (hblank : Text.isBlankText value = false) (hfree : BraceFree value.toList)
    (hescape : ¬ ['\\', ' '] <:+: value.toList) :
    ∃ rule, BaseRule.ofClass? theme (u.bracketClass value.toList) = some rule ∧
      rule.token = .arbitrary value ∧
      rule.declarations = u.declarations theme value ∧
      u.ownProperties.map (Declaration.mk · value) <+: rule.declarations ∧
      ((∀ front, front <+: value.toList → front.count ']' ≤ front.count '[') →
        ∀ ctx : VariantContext, ∃ r : ClassRule,
          ClassRule.ofLiteral? theme ctx (String.ofList (u.bracketClass value.toList)) = some r ∧
            r.modifiers = [] ∧ r.token = rule.token ∧ r.declarations = rule.declarations) := by
  let rule := BaseRule.ofValue theme u (.arbitrary value) value
  have hrule : BaseRule.ofClass? theme (u.bracketClass value.toList) = some rule :=
    ofClass?_eq_ofValue u (Arbitrary.value?_encode hblank hfree hescape)
  refine ⟨rule, hrule, rfl, rfl, u.ownProperties_isPrefix theme value, fun hcount ctx => ?_⟩
  let literal := String.ofList (u.bracketClass value.toList)
  have hsplit : Chain.split literal.toList = ([], u.bracketClass value.toList) := by
    rw [String.toList_ofList, u.split_bracketClass hcount]
  have hmodifiers : (Chain.split literal.toList).1.map String.ofList = [] := by
    rw [hsplit, List.map_nil]
  have hliteral : ClassRule.ofLiteral? theme ctx literal = some (.ofParts literal rule []) := by
    rw [ClassRule.ofLiteral?_eq_some_iff, hmodifiers, hsplit]
    exact ⟨List.forall_mem_nil _, rule, [], hrule, rfl, rfl⟩
  have hbare : (ClassRule.ofParts literal rule []).modifiers = [] := by
    rw [ClassRule.ofParts, hmodifiers]
  exact ⟨_, hliteral, hbare, rfl, rfl⟩

/-- A value with underscores, spaces, brackets and colons, behind the stem that writes more than its
value. -/
theorem ofClass?_bracketClass_crowded :
    let value := "a_b [c:d] \\_(e: "
    let theme : Theme := ⟨Theme.defaults⟩
    Text.isBlankText value = false ∧ BraceFree value.toList ∧ ¬ ['\\', ' '] <:+: value.toList ∧
      (∀ front, front <+: value.toList → front.count ']' ≤ front.count '[') ∧
      transition.bracketClass value.toList = "transition-[a\\_b_[c:d]_\\\\_(e:_]".toList ∧
      ∀ ctx, ∃ r, ClassRule.ofLiteral? theme ctx
          (String.ofList (transition.bracketClass value.toList)) = some r ∧
        r.modifiers = [] ∧ r.token = .arbitrary value := by
  intro value theme
  have hblank : Text.isBlankText value = false := by decide +kernel
  have hfree : BraceFree value.toList := by decide +kernel
  have hescape : ¬ ['\\', ' '] <:+: value.toList := by decide +kernel
  have hcount : ∀ front, front <+: value.toList → front.count ']' ≤ front.count '[' := by
    have hall : ∀ front ∈ value.toList.inits, front.count ']' ≤ front.count '[' := by decide +kernel
    exact fun front hfront => hall front ((List.mem_inits _ _).mpr hfront)
  obtain ⟨rule, -, htoken, -, -, hliteral⟩ :=
    ofClass?_bracketClass theme transition hblank hfree hescape
  refine ⟨hblank, hfree, hescape, hcount, by decide +kernel, fun ctx => ?_⟩
  obtain ⟨r, hr, hmodifiers, hsame, -⟩ := hliteral hcount ctx
  exact ⟨r, hr, hmodifiers, hsame.trans htoken⟩

end Utility

end AtomicCss
