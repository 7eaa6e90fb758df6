/-
Patterns that do not see what a path is written from.

The path of a file can be written from its directory, or with a directory in front: the dot
for the current one, or one that is written from the root.  Patterns of two kinds do not
tell these apart.  Some begin with something that no directory in front begins with, so they
match at most the path itself.  Others look at the end of a path only, at less than its last
step, which is the same in every spelling.
-/
import AtomicCss.Ignore.Patterns
import AtomicCss.Proofs.Glob.Match
import AtomicCss.Proofs.Project.Path

namespace AtomicCss

namespace Glob

open AtomicCss.Path

/-! ### The two kinds -/

/-- The characters that a directory in front of a path begins with. -/
def isOutside (c : Char) : Bool :=
  c == '.' || c == '/'

mutual

/-- Whether a token takes something first, and not what a directory in front begins with. -/
def Token.startsInside : Token → Bool
  | .literal c => !isOutside c
  | .oneOf negated ranges =>
    (ranges.any (·.hasByte 0x2E) == negated) && (ranges.any (·.hasByte slash) == negated)
  | .alternates branches => !allVoid branches && allStartInside branches
  | _ => false

/-- Whether a branch takes something first, and not what a directory in front begins with. -/
def startsInside : List Token → Bool
  | [] => false
  | t :: ts => t.startsInside || (t.isVoid && startsInside ts)

/-- Whether all branches that are not void do so. -/
def allStartInside : List (List Token) → Bool
  | [] => true
  | ts :: branches => (isVoid ts || startsInside ts) && allStartInside branches

end

/-- Whether a pattern looks at the end of a path, at no more than its last step. -/
def looksAtName (tokens : List Token) : Bool :=
  match tokens with
  | .leading :: .anyRun :: rest | .leading :: rest | .anyRun :: rest => rest.all Token.isNameChar
  | _ => false

/-- Whether a pattern does not see what a path is written from. -/
def isUnanchored (g : Glob) : Bool :=
  startsInside g.tokens || looksAtName g.tokens

/-! ### Patterns that start inside -/

variable {separated : Bool} {d : Char} {s : Bytes}

theorem sequenceRests_nil (ts : List Token) : sequenceRests separated ts [] = [] := by
  induction ts with
  | nil => rfl
  | cons t ts ih => simpa [sequenceRests] using ih

theorem Token.rests_of_isVoid {t : Token} (h : t.isVoid = true) : t.rests separated s = [s] := by
  cases t with
  | alternates branches =>
      have hvoid : allVoid branches = true := by simpa [Token.isVoid] using h
      rw [Token.rests, if_pos hvoid]
  | literal | any | anyRun | leading | trailing | between | oneOf => cases h

theorem Token.rests_literal_of_ne {c : Char} (h : c ≠ d) :
    (Token.literal c).rests separated (String.utf8EncodeChar d ++ s) = [] := by
  refine List.eq_nil_iff_forall_not_mem.mpr fun r hr => ?_
  exact h (utf8EncodeChar_append_inj (mem_rests_literal.mp hr)).1.symm

theorem Token.rests_oneOf_of_eq {negated : Bool} {ranges : List Range} {b : UInt8}
    (h : ranges.any (·.hasByte b) = negated) :
    (Token.oneOf negated ranges).rests separated (b :: s) = [] := by
  simp [Token.rests, h]

mutual

theorem Token.rests_of_startsInside (hd : isOutside d = true) :
    ∀ {t : Token}, t.startsInside = true →
      t.rests separated (String.utf8EncodeChar d ++ s) = []
  | .literal c, h => by
      refine Token.rests_literal_of_ne ?_
      rintro rfl
      simp [Token.startsInside, hd] at h
  | .oneOf negated ranges, h => by
      simp only [Token.startsInside, Bool.and_eq_true, beq_iff_eq] at h
      simp only [isOutside, Bool.or_eq_true, beq_iff_eq] at hd
      rcases hd with rfl | rfl
      · exact Token.rests_oneOf_of_eq h.1
      · exact Token.rests_oneOf_of_eq h.2
  | .alternates branches, h => by
      simp only [Token.startsInside, Bool.and_eq_true, Bool.not_eq_true'] at h
      rw [Token.rests, if_neg (by simp [h.1])]
      exact branchRests_of_allStartInside hd h.2

theorem sequenceRests_of_startsInside (hd : isOutside d = true) :
    ∀ {ts : List Token}, startsInside ts = true →
      sequenceRests separated ts [String.utf8EncodeChar d ++ s] = []
  | t :: ts, h => by
      rw [startsInside, Bool.or_eq_true, Bool.and_eq_true] at h
      rcases h with h | ⟨hvoid, h⟩
      · simp [sequenceRests, Token.rests_of_startsInside hd h, sequenceRests_nil]
      · have ih := sequenceRests_of_startsInside hd h
        simpa [sequenceRests, Token.rests_of_isVoid hvoid, List.eraseDups_cons] using ih

theorem branchRests_of_allStartInside (hd : isOutside d = true) :
    ∀ {branches : List (List Token)}, allStartInside branches = true →
      branchRests separated branches (String.utf8EncodeChar d ++ s) = []
  | [], _ => by rw [branchRests]
  | ts :: branches, h => by
      rw [allStartInside, Bool.and_eq_true, Bool.or_eq_true] at h
      rw [branchRests, branchRests_of_allStartInside hd h.2]
      rcases h.1 with hvoid | hstart
      · simp [hvoid]
      · simp [sequenceRests_of_startsInside hd hstart]

end

variable {g : Glob} {dir path : List Char}

theorem not_isMatch_of_startsInside (h : startsInside g.tokens = true)
    (hpath : path.head?.any isOutside = true) : g.isMatch path = false := by
  obtain ⟨d, hhead, hd⟩ := (Option.any_eq_true _ _).mp hpath
  obtain ⟨rest, rfl⟩ := List.head?_eq_some_iff.mp hhead
  have hne : g.tokens ≠ [.leading] := by
    intro hleading
    rw [hleading] at h
    cases h
  rw [isMatch, Bool.eq_false_iff, Ne, matchesBytes_iff hne, bytes_cons,
    sequenceRests_of_startsInside hd h]
  simp

/-! ### Ends of paths -/

/-- A character of one byte is its byte; longer ones have large bytes. -/
theorem toNat_of_mem_utf8EncodeChar {c : Char} {b : UInt8} (h : b ∈ String.utf8EncodeChar c) :
    b.toNat = c.val.toNat ∨ 128 ≤ b.toNat := by
  unfold String.utf8EncodeChar at h
  dsimp only at h
  split at h
  · left
    rw [List.mem_singleton.mp h, UInt8.toNat_ofNat']
    omega
  · right
    split at h
    · simp only [List.mem_cons, List.not_mem_nil, or_false] at h
      rcases h with rfl | rfl <;> rw [UInt8.toNat_ofNat'] <;> omega
    · split at h
      · simp only [List.mem_cons, List.not_mem_nil, or_false] at h
        rcases h with rfl | rfl | rfl <;> rw [UInt8.toNat_ofNat'] <;> omega
      · simp only [List.mem_cons, List.not_mem_nil, or_false] at h
        rcases h with rfl | rfl | rfl | rfl <;> rw [UInt8.toNat_ofNat'] <;> omega

theorem slash_notMem_utf8EncodeChar {c : Char} (h : c ≠ '/') :
    slash ∉ String.utf8EncodeChar c := by
  intro hmem
  have hbyte : slash.toNat = 47 := rfl
  rcases toNat_of_mem_utf8EncodeChar hmem with heq | hlarge
  · exact h (Char.ext (UInt32.toNat_inj.mp (heq.symm.trans hbyte)))
  · omega

theorem slash_notMem_bytes {cs : List Char} (h : '/' ∉ cs) : slash ∉ bytes cs := by
  intro hmem
  obtain ⟨c, hc, hslash⟩ := List.mem_flatMap.mp hmem
  exact slash_notMem_utf8EncodeChar (fun heq => h (heq ▸ hc)) hslash

theorem bytes_append_slash (dir path : List Char) :
    bytes (dir ++ '/' :: path) = bytes dir ++ slash :: bytes path := by
  rw [bytes_append, bytes_cons]
  rfl

variable {t u front : Bytes}

theorem mem_afterRun_true : t ∈ afterRun (fun _ => true) s ↔ t <:+ s := by
  induction s with
  | nil => simp [afterRun]
  | cons b s ih => simp [afterRun, ih, List.suffix_cons_iff]

theorem mem_afterSlashes : t ∈ afterSlashes s ↔ slash :: t <:+ s := by
  induction s with
  | nil => simp [afterSlashes]
  | cons b s ih =>
      rw [afterSlashes, List.suffix_cons_iff]
      split
      · rename_i hb
        simp [hb, ih]
      · rename_i hb
        simp [Ne.symm hb, ih]

theorem suffix_of_suffix_append_slash (hu : slash ∉ u) (h : u <:+ front ++ slash :: s) :
    u <:+ s := by
  rcases List.suffix_or_suffix_of_suffix h (List.suffix_append front _) with hshort | hlong
  · rcases List.suffix_cons_iff.mp hshort with rfl | hs
    · simp at hu
    · exact hs
  · exact absurd (hlong.subset List.mem_cons_self) hu

/-- An end that begins with its only slash is an end of what follows any slash, or all of it
with the slash. -/
theorem suffix_of_slash_suffix (hu : slash ∉ u) (h : slash :: u <:+ front ++ slash :: s) :
    u = s ∨ slash :: u <:+ s := by
  rcases List.suffix_or_suffix_of_suffix h (List.suffix_append front _) with hshort | hlong
  · rcases List.suffix_cons_iff.mp hshort with heq | hs
    · exact .inl (List.cons.inj heq).2
    · exact .inr hs
  · rcases List.suffix_cons_iff.mp hlong with heq | hs
    · exact .inl (List.cons.inj heq).2.symm
    · exact absurd (hs.subset List.mem_cons_self) hu

/-! ### Patterns that look at the name -/

theorem exists_literals_of_all {ts : List Token} (h : ts.all Token.isNameChar = true) :
    ∃ cs : List Char, ts = cs.map .literal ∧ '/' ∉ cs := by
  induction ts with
  | nil => exact ⟨[], rfl, by simp⟩
  | cons t ts ih =>
      obtain ⟨ht, hts⟩ := Bool.and_eq_true_iff.mp h
      obtain ⟨cs, rfl, hcs⟩ := ih hts
      cases t with
      | literal c =>
          have hc : c ≠ '/' := by simpa [Token.isNameChar] using ht
          exact ⟨c :: cs, rfl, by simp [Ne.symm hc, hcs]⟩
      | any | anyRun | leading | trailing | between | oneOf | alternates => cases ht

theorem nil_mem_anyRun {cs : List Char} :
    [] ∈ sequenceRests false (.anyRun :: cs.map .literal) [s] ↔ bytes cs <:+ s := by
  simp [mem_sequenceRests_cons, Token.rests, mem_afterRun_true, nil_mem_literals]

theorem nil_mem_leading_anyRun {cs : List Char} :
    [] ∈ sequenceRests false (.leading :: .anyRun :: cs.map .literal) [s] ↔ bytes cs <:+ s := by
  rw [mem_sequenceRests_cons]
  simp only [nil_mem_anyRun, Token.rests, List.mem_cons, mem_afterSlashes]
  constructor
  · intro h
    obtain ⟨r, rfl | hr, hend⟩ := h
    · exact hend
    · exact hend.trans ((List.suffix_cons slash r).trans hr)
  · intro h
    exact ⟨s, .inl rfl, h⟩

theorem nil_mem_leading {cs : List Char} :
    [] ∈ sequenceRests false (.leading :: cs.map .literal) [s] ↔
      s = bytes cs ∨ slash :: bytes cs <:+ s := by
  simp [mem_sequenceRests_cons, Token.rests, mem_afterSlashes, nil_mem_literals, or_and_right,
    exists_or]

/-- What such a pattern matches with a directory in front it matches without. -/
theorem isMatch_of_looksAtName (hg : g.separated = false) (h : looksAtName g.tokens = true)
    (hmatch : g.isMatch (dir ++ '/' :: path) = true) : g.isMatch path = true := by
  obtain ⟨tokens, separated⟩ := g
  obtain rfl : separated = false := hg
  simp only at h
  unfold looksAtName at h
  split at h
  · obtain ⟨cs, rfl, hcs⟩ := exists_literals_of_all h
    rw [isMatch, matchesBytes_iff (by simp), nil_mem_leading_anyRun] at hmatch ⊢
    rw [bytes_append_slash] at hmatch
    exact suffix_of_suffix_append_slash (slash_notMem_bytes hcs) hmatch
  · obtain ⟨cs, rfl, hcs⟩ := exists_literals_of_all h
    cases cs with
    | nil => rfl
    | cons c cs =>
        have hslash := slash_notMem_bytes hcs
        rw [isMatch, matchesBytes_iff (by simp), nil_mem_leading] at hmatch ⊢
        rw [bytes_append_slash] at hmatch
        rcases hmatch with hwhole | hend
        · rw [← hwhole] at hslash
          simp at hslash
        · exact (suffix_of_slash_suffix hslash hend).imp Eq.symm id
  · obtain ⟨cs, rfl, hcs⟩ := exists_literals_of_all h
    rw [isMatch, matchesBytes_iff (by simp), nil_mem_anyRun] at hmatch ⊢
    rw [bytes_append_slash] at hmatch
    exact suffix_of_suffix_append_slash (slash_notMem_bytes hcs) hmatch
  · cases h

theorem namesFile_append_slash (h : path ≠ []) :
    namesFile (dir ++ '/' :: path) = namesFile path := by
  have hreverse : (dir ++ '/' :: path).reverse = path.reverse ++ '/' :: dir.reverse := by simp
  have hlong : (dir ++ '/' :: path).isEmpty = false := by simp
  have hshort : path.isEmpty = false := by simpa using h
  simp only [namesFile, hreverse, takeWhile_append_slash, hlong, hshort]

end Glob

namespace IgnorePatterns

variable {globs : List Glob} {dir path : List Char}

/-- Patterns that do not see what a path is written from leave it out with a directory in front
only if they do without. -/
theorem isMatch_of_isUnanchored (hglobs : ∀ g ∈ globs, g.separated = false ∧ g.isUnanchored = true)
    (hpath : path ≠ []) (houtside : (dir ++ '/' :: path).head?.any Glob.isOutside = true)
    (hmatch : isMatch ⟨globs⟩ (dir ++ '/' :: path) = true) : isMatch ⟨globs⟩ path = true := by
  simp only [isMatch, List.any_eq_true, Bool.and_eq_true, Glob.namesFile_append_slash hpath]
    at hmatch ⊢
  obtain ⟨g, hg, hglob, hname⟩ := hmatch
  obtain ⟨hseparated, hunanchored⟩ := hglobs g hg
  refine ⟨g, hg, ?_, hname⟩
  rcases Bool.or_eq_true_iff.mp hunanchored with hstart | hlooks
  · rw [Glob.not_isMatch_of_startsInside hstart houtside] at hglob
    cases hglob
  · exact Glob.isMatch_of_looksAtName hseparated hlooks hglob

end IgnorePatterns

end AtomicCss
