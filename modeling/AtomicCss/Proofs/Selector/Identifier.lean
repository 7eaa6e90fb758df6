/-
Escaped classes as identifiers.

An identifier of a style sheet is read part by part.  A backslash begins an escape: with
hexadecimal digits after it, up to six of them and closed by a space, it stands for the
character of that code point, else for the character that follows.  Every other character
stands for itself, and has to be a letter, a digit, a hyphen, an underscore or beyond ASCII.

Read in this way an escaped class always gives back the class.  Whether it is an identifier
that may be written is another matter: the table of escapes is a list, and a class may have
characters in brackets that are not on it, or begin with a hyphen and a digit.  The main
statement says that nothing else can go wrong.
-/
import AtomicCss.Proofs.Engine.Ruleset
import AtomicCss.Proofs.Source.Candidate
import AtomicCss.Proofs.Text.Ascii
import AtomicCss.Selector

namespace AtomicCss

namespace Selector

open Text

/-! ### Reading an identifier -/

/-- One character of an identifier, as it is written. -/
inductive Part
  | plain (c : Char)
  | escaped (c : Char)
  deriving DecidableEq

/-- The character that a part stands for. -/
def Part.char : Part → Char
  | .plain c | .escaped c => c

/-- The value of a hexadecimal digit. -/
def hexDigit? (c : Char) : Option Nat :=
  if c.isDigit then some (c.toNat - '0'.toNat)
  else if 'a' ≤ c && c ≤ 'f' then some (c.toNat - 'a'.toNat + 10)
  else if 'A' ≤ c && c ≤ 'F' then some (c.toNat - 'A'.toNat + 10)
  else none

/-- The character of a code point; for what is none of a text it is the replacement
character. -/
def ofCodePoint (n : Nat) : Char :=
  if n = 0 || !decide n.isValidChar then '\ufffd' else Char.ofNat n

/-- A text without one space at its beginning. -/
def dropSpace : List Char → List Char
  | ' ' :: cs => cs
  | cs => cs

/-- Reads an escape after its backslash.  Gives the character and what follows; there is
none at the end of a line. -/
def escape? (cs : List Char) : Option (Char × List Char) :=
  let digits := (cs.take 6).takeWhile fun c => (hexDigit? c).isSome
  if digits.isEmpty then
    match cs with
    | [] => none
    | c :: rest => if c = '\n' then none else some (c, rest)
  else
    let value := (digits.filterMap hexDigit?).foldl (16 * · + ·) 0
    some (ofCodePoint value, dropSpace (cs.drop digits.length))

theorem dropSpace_length_le (cs : List Char) : (dropSpace cs).length ≤ cs.length := by
  unfold dropSpace
  split
  · simp
  · exact Nat.le_refl _

theorem escape?_length_lt {cs rest : List Char} {c : Char} (h : escape? cs = some (c, rest)) :
    rest.length < cs.length := by
  simp only [escape?] at h
  split at h
  · split at h
    · cases h
    · split at h
      · cases h
      · cases h
        simp
  · rename_i hdigits
    cases h
    have hdrop := dropSpace_length_le
      (cs.drop ((cs.take 6).takeWhile fun c => (hexDigit? c).isSome).length)
    have hpos := List.length_pos_iff.mpr fun h => hdigits (List.isEmpty_iff.mpr h)
    have hle : ((cs.take 6).takeWhile fun c => (hexDigit? c).isSome).length ≤ (cs.take 6).length :=
      (List.takeWhile_sublist _).length_le
    simp only [List.length_drop, List.length_take] at hdrop hle
    omega

/-- The parts of an identifier. -/
def parts (cs : List Char) : List Part :=
  match cs with
  | [] => []
  | c :: cs =>
    if c = '\\' then
      match h : escape? cs with
      | some (c, rest) =>
        have := escape?_length_lt h
        .escaped c :: parts rest
      | none => .plain c :: parts cs
    else .plain c :: parts cs
termination_by cs.length
decreasing_by all_goals simp_wf; try omega

/-- The text that an identifier stands for. -/
def unescape (cs : List Char) : List Char :=
  (parts cs).map Part.char

/-- A character that may stand for itself in an identifier. -/
def isNameChar (c : Char) : Bool :=
  c.isAlphanum || c == '-' || c == '_' || 0x80 ≤ c.toNat

/-- Whether a text may be written as an identifier: what is not escaped belongs to names,
and it does not begin like a number. -/
structure IsIdentifier (cs : List Char) : Prop where
  names : ∀ c, .plain c ∈ parts cs → isNameChar c = true
  no_digit : ∀ c rest, parts cs = .plain c :: rest → c.isDigit = false
  no_signed_digit : ∀ c rest, parts cs = .plain '-' :: .plain c :: rest → c.isDigit = false

/-! ### Reading what was escaped -/

theorem parts_cons {c : Char} (h : c ≠ '\\') (cs : List Char) :
    parts (c :: cs) = .plain c :: parts cs := by
  rw [parts, if_neg h]

theorem parts_of_escape?_eq_some {cs rest : List Char} {c : Char}
    (h : escape? cs = some (c, rest)) : parts ('\\' :: cs) = .escaped c :: parts rest := by
  rw [parts, if_pos rfl]
  split
  · rename_i h'
    cases h'.symm.trans h
    rfl
  · rename_i h'
    cases h'.symm.trans h

theorem forall_special {p : Char → Bool}
    (h : ['\\', ':', '/', '[', ']', '(', ')', '%', '!', '#', ',', '+', '*', '.'].all p = true)
    {c : Char} (hc : isSpecial c = true) : p c = true :=
  List.all_eq_true.mp h c (List.contains_iff_mem.mp hc)

/-- What is escaped by a backslash alone is neither a digit nor the end of a line. -/
theorem escape?_of_isSpecial {c : Char} (h : isSpecial c = true) (rest : List Char) :
    escape? (c :: rest) = some (c, rest) := by
  have hplain := forall_special (p := fun c => (hexDigit? c).isNone && c != '\n') (by decide) h
  simp only [Bool.and_eq_true, Option.isNone_iff_eq_none, bne_iff_ne] at hplain
  simp [escape?, hplain.1, hplain.2]

theorem escapeDigit_eq {c : Char} (h : c.isDigit = true) : escapeDigit c = ['\\', '3', c, ' '] := by
  have hc : c.toNat < 128 := toNat_lt_of_isAlphanum (by simp [Char.isAlphanum, h])
  revert h
  exact forall_ascii (P := fun c => c.isDigit = true → escapeDigit c = ['\\', '3', c, ' '])
    (by decide +kernel) hc

/-- A digit that is written by its code point is read back, and the space with it. -/
theorem escape?_of_isDigit {c : Char} (h : c.isDigit = true) (rest : List Char) :
    escape? ('3' :: c :: ' ' :: rest) = some (c, rest) := by
  have hc : c.toNat < 128 := toNat_lt_of_isAlphanum (by simp [Char.isAlphanum, h])
  have hvalue : ∃ n, hexDigit? c = some n ∧ ofCodePoint (16 * 3 + n) = c := by
    refine ⟨c.toNat - '0'.toNat, by rw [hexDigit?, if_pos h], ?_⟩
    revert h
    exact forall_ascii
      (P := fun c => c.isDigit = true → ofCodePoint (16 * 3 + (c.toNat - '0'.toNat)) = c)
      (by decide +kernel) hc
  obtain ⟨n, hn, hchar⟩ := hvalue
  have hthree : hexDigit? '3' = some 3 := by decide
  have hspace : hexDigit? ' ' = none := by decide
  simp [escape?, hn, hthree, hspace, hchar, dropSpace]

/-- How a character is written behind the first. -/
def partOf (c : Char) : Part :=
  if isSpecial c then .escaped c else .plain c

theorem parts_escapeChar_append (c : Char) (cs : List Char) :
    parts (escapeChar c ++ cs) = partOf c :: parts cs := by
  unfold escapeChar partOf
  by_cases h : isSpecial c = true
  · rw [if_pos h, if_pos h]
    exact parts_of_escape?_eq_some (escape?_of_isSpecial h cs)
  · rw [if_neg h, if_neg h]
    apply parts_cons
    intro heq
    subst heq
    exact h (by decide)

theorem parts_flatMap_escapeChar (cs : List Char) :
    parts (cs.flatMap escapeChar) = cs.map partOf := by
  induction cs with
  | nil => rw [List.flatMap_nil, parts]; rfl
  | cons c cs ih => rw [List.flatMap_cons, parts_escapeChar_append, ih, List.map_cons]

/-- The parts of an escaped text: one for each character, and a leading digit by an
escape. -/
theorem parts_escape_cons (c : Char) (cs : List Char) :
    parts (escape (c :: cs)) =
      (if c.isDigit then .escaped c else partOf c) :: cs.map partOf := by
  rw [escape]
  by_cases h : c.isDigit = true
  · rw [if_pos h, if_pos h, escapeDigit_eq h, ← parts_flatMap_escapeChar]
    exact parts_of_escape?_eq_some (escape?_of_isDigit h _)
  · rw [if_neg h, if_neg h, parts_escapeChar_append, parts_flatMap_escapeChar]

@[simp] theorem char_partOf (c : Char) : (partOf c).char = c := by
  unfold partOf
  split <;> rfl

/-- **Reading an escaped text gives back the text.** -/
theorem unescape_escape (cs : List Char) : unescape (escape cs) = cs := by
  cases cs with
  | nil =>
      rw [unescape, escape, parts]
      rfl
  | cons c cs =>
      have htail : (cs.map partOf).map Part.char = cs := by
        rw [List.map_map]
        exact (List.map_congr_left fun c _ => char_partOf c).trans (List.map_id cs)
      rw [unescape, parts_escape_cons, List.map_cons, htail]
      split
      · rfl
      · rw [char_partOf]

/-- Texts can be told apart by their escaped forms. -/
theorem escape_injective : Function.Injective escape :=
  Function.LeftInverse.injective unescape_escape

/-! ### When an escaped text is an identifier -/

theorem plain_eq_partOf {c d : Char} : .plain c = partOf d ↔ c = d ∧ isSpecial d = false := by
  unfold partOf
  by_cases h : isSpecial d = true
  · simp [h]
  · simp [h]

theorem isNameChar_of_isDigit {c : Char} (h : c.isDigit = true) : isNameChar c = true := by
  simp [isNameChar, Char.isAlphanum, h]

theorem not_isSpecial_of_isDigit {c : Char} (h : c.isDigit = true) : isSpecial c = false := by
  refine Bool.eq_false_iff.mpr fun hspecial => ?_
  have hdigit := forall_special (p := fun c => !c.isDigit) (by decide) hspecial
  simp [h] at hdigit

/-- **An escaped text is an identifier** exactly if every character is one of names or one
that is escaped, and it does not begin with a hyphen and a digit. -/
theorem isIdentifier_escape_iff (cs : List Char) :
    IsIdentifier (escape cs) ↔
      (∀ c ∈ cs, isNameChar c = true ∨ isSpecial c = true) ∧
        ∀ c rest, cs = '-' :: c :: rest → c.isDigit = false := by
  cases cs with
  | nil =>
      have hparts : parts (escape []) = [] := by rw [escape, parts]
      refine ⟨fun _ => ⟨by simp, by simp⟩, fun _ => ⟨?_, ?_, ?_⟩⟩
      all_goals simp [hparts]
  | cons x xs =>
      have hparts := parts_escape_cons x xs
      constructor
      · intro h
        refine ⟨fun c hc => ?_, fun c rest heq => ?_⟩
        · by_cases hspecial : isSpecial c = true
          · exact .inr hspecial
          have hplain : .plain c = partOf c :=
            plain_eq_partOf.mpr ⟨rfl, Bool.eq_false_iff.mpr hspecial⟩
          by_cases hdigit : c.isDigit = true
          · exact .inl (isNameChar_of_isDigit hdigit)
          refine .inl (h.names c ?_)
          rw [hparts, hplain]
          rcases List.mem_cons.mp hc with rfl | hc
          · rw [if_neg hdigit]
            exact List.mem_cons_self
          · exact List.mem_cons_of_mem _ (List.mem_map_of_mem hc)
        · obtain ⟨rfl, rfl⟩ := List.cons.inj heq
          by_contra hdigit
          rw [Bool.not_eq_false] at hdigit
          have hplain : .plain c = partOf c :=
            plain_eq_partOf.mpr ⟨rfl, not_isSpecial_of_isDigit hdigit⟩
          have hfalse := h.no_signed_digit c (rest.map partOf) (by
            rw [hparts, List.map_cons, hplain]
            rfl)
          rw [hdigit] at hfalse
          cases hfalse
      · rintro ⟨hall, hhyphen⟩
        refine ⟨fun c hc => ?_, fun c rest heq => ?_, fun c rest heq => ?_⟩
        · have hmem : .plain c ∈ (x :: xs).map partOf := by
            rw [hparts] at hc
            split at hc
            · rcases List.mem_cons.mp hc with hc | hc
              · cases hc
              · exact List.mem_cons_of_mem _ hc
            · exact hc
          obtain ⟨d, hd, heq⟩ := List.mem_map.mp hmem
          obtain ⟨rfl, hspecial⟩ := plain_eq_partOf.mp heq.symm
          exact (hall c hd).resolve_right (Bool.eq_false_iff.mp hspecial)
        · rw [hparts] at heq
          obtain ⟨hfirst, -⟩ := List.cons.inj heq
          split at hfirst
          · cases hfirst
          · rename_i hdigit
            obtain ⟨rfl, -⟩ := plain_eq_partOf.mp hfirst.symm
            exact Bool.eq_false_iff.mpr hdigit
        · rw [hparts] at heq
          obtain ⟨hfirst, hrest⟩ := List.cons.inj heq
          split at hfirst
          · cases hfirst
          · obtain ⟨rfl, -⟩ := plain_eq_partOf.mp hfirst.symm
            cases xs with
            | nil => cases hrest
            | cons y ys =>
                obtain ⟨hsecond, -⟩ := List.cons.inj hrest
                obtain ⟨rfl, -⟩ := plain_eq_partOf.mp hsecond.symm
                exact hhyphen c ys rfl

/-! ### Classes that come from a source -/

/-- The ASCII characters that belong to no name and are missing from the table of escapes,
those aside that end a class. -/
def isOverlooked (c : Char) : Bool :=
  ['$', '&', ';', '=', '?', '@', '^', '|', '~'].contains c || c.toNat < 0x20 || c.toNat == 0x7F

theorem isOverlooked_eq_false_iff {c : Char} (h : Source.isBarrier c = false) :
    isOverlooked c = false ↔ isNameChar c = true ∨ isSpecial c = true := by
  by_cases hc : c.toNat < 128
  · revert h
    exact forall_ascii
      (P := fun c => Source.isBarrier c = false →
        (isOverlooked c = false ↔ isNameChar c = true ∨ isSpecial c = true))
      (by decide +kernel) hc
  · have hname : isNameChar c = true := by
      simp only [isNameChar, Bool.or_eq_true, decide_eq_true_eq]
      exact .inr (Nat.le_of_not_lt hc)
    refine ⟨fun _ => .inl hname, fun _ => ?_⟩
    have hlisted : c ∉ ['$', '&', ';', '=', '?', '@', '^', '|', '~'] := by
      intro hmem
      have hall : ['$', '&', ';', '=', '?', '@', '^', '|', '~'].all (·.toNat < 128) = true := rfl
      exact hc (of_decide_eq_true (List.all_eq_true.mp hall c hmem))
    simp only [isOverlooked, Bool.or_eq_false_iff, List.contains_eq_mem, decide_eq_false_iff_not,
      beq_eq_false_iff_ne]
    exact ⟨⟨hlisted, by omega⟩, by omega⟩

/--
**The selector of a candidate selects what it was found as**, and it is an identifier
exactly if no character was overlooked and the candidate does not begin with a hyphen and a
digit.
-/
theorem isIdentifier_escape_of_mem_candidates {text : List Char} {candidate : Source.Candidate}
    (h : candidate ∈ Source.candidates text) :
    unescape (escape candidate.text.toList) = candidate.text.toList ∧
      (IsIdentifier (escape candidate.text.toList) ↔
        (∀ c ∈ candidate.text.toList, isOverlooked c = false) ∧
          ∀ c rest, candidate.text.toList = '-' :: c :: rest → c.isDigit = false) := by
  refine ⟨unescape_escape _, ?_⟩
  rw [isIdentifier_escape_iff]
  refine and_congr_left fun _ => forall₂_congr fun c hc => ?_
  exact (isOverlooked_eq_false_iff (Source.not_isBarrier_of_mem_candidates h c hc)).symm

/-- A leading digit and all the punctuation of a class are escaped as they should be. -/
theorem isIdentifier_escape_of_mem_candidates_digit :
    ⟨"2xl:-z-[calc(1*2)]", 2⟩ ∈ Source.candidates "\n2xl:-z-[calc(1*2)]".toList ∧
      IsIdentifier (escape "2xl:-z-[calc(1*2)]".toList) := by
  have hmem : ⟨"2xl:-z-[calc(1*2)]", 2⟩ ∈ Source.candidates "\n2xl:-z-[calc(1*2)]".toList := by
    decide +kernel
  have hseen : "2xl:-z-[calc(1*2)]".toList.all (!isOverlooked ·) = true := by decide
  refine ⟨hmem, (isIdentifier_escape_of_mem_candidates hmem).2.mpr ⟨fun c hc => ?_, ?_⟩⟩
  · simpa using List.all_eq_true.mp hseen c hc
  · intro c rest h
    cases h

/-- Classes that have a rule and whose selector is no identifier: one with an equals sign in
its brackets, and one behind a screen whose name is a negative number. -/
theorem not_isIdentifier_overlooked :
    let screens : Config :=
      { content := ["a"], theme := { extend := .ofList [(.screens, .ofList [("-5", "5px")])] } }
    (∃ r, Ruleset.ofConfig { content := ["a"] } = .ok r ∧ (r.rule? "z-[a=b]").isSome = true ∧
      ⟨"z-[a=b]", 1⟩ ∈ Source.candidates "z-[a=b]".toList ∧
      ¬ IsIdentifier (escape "z-[a=b]".toList)) ∧
    ∃ r, Ruleset.ofConfig screens = .ok r ∧ (r.rule? "-5:z-10").isSome = true ∧
      ⟨"-5:z-10", 1⟩ ∈ Source.candidates "-5:z-10".toList ∧
      ¬ IsIdentifier (escape "-5:z-10".toList) := by
  intro screens
  refine ⟨⟨.plain ["a"], Ruleset.ofConfig_plain (by decide), by decide +kernel,
    by decide +kernel, ?_⟩, ?_⟩
  · rw [isIdentifier_escape_iff]
    exact fun h => absurd (h.1 '=' (by decide)) (by decide)
  · have hrule : ((Ruleset.ofConfig screens).toOption.map fun r =>
        (r.rule? "-5:z-10").isSome) = some true := by
      decide +kernel
    obtain ⟨r, hr, hrule⟩ := Option.map_eq_some_iff.mp hrule
    refine ⟨r, toOption_eq_some_iff.mp hr, hrule, by decide +kernel, ?_⟩
    rw [isIdentifier_escape_iff]
    exact fun h => absurd (h.2 '5' _ rfl) (by decide)

end Selector

end AtomicCss
