/-
How the reader takes the beginning of a pattern.

Before its first wildcard a pattern stands for itself, so the draft begins with literals.
What is read later is put behind them or into groups; two stars may take the place of the
last token outside of groups, and only of a slash.  So a draft that has begun with a
directory and its slash keeps the directory, whatever follows.
-/
import AtomicCss.Glob.Root
import AtomicCss.Proofs.Fallible
import AtomicCss.Proofs.Glob.Match

namespace AtomicCss.Glob

/-- The part of a pattern before its first wildcard. -/
def plainPart (pattern : List Char) : List Char :=
  pattern.takeWhile (!isWildcard ·)

/-! ### Plain text -/

namespace Draft

/-- Adds characters that stand for themselves. -/
def pushAll (d : Draft) (cs : List Char) : Draft :=
  cs.foldl (fun d c => d.push c (.literal c)) d

theorem tokens_pushAll (d : Draft) (cs : List Char) :
    (d.pushAll cs).tokens = (cs.map Token.literal).reverse ++ d.tokens := by
  induction cs generalizing d with
  | nil => rfl
  | cons c cs ih =>
    rw [pushAll, List.foldl_cons, ← pushAll, ih]
    simp [push]

theorem groups_pushAll (d : Draft) (cs : List Char) : (d.pushAll cs).groups = d.groups := by
  induction cs generalizing d with
  | nil => rfl
  | cons c cs ih => exact ih _

end Draft

variable {lenient classes : Bool} {d r : Draft} {cs rest : List Char}

theorem readTokens_cons_plain {c : Char} (hgroups : d.groups = []) (hwild : isWildcard c = false)
    (hescape : c ≠ '\\') (h : readTokens lenient classes d (c :: rest) = .ok r) :
    readTokens lenient classes (d.push c (.literal c)) rest = .ok r := by
  rw [readTokens.eq_def] at h
  split at h <;> rename_i heq <;> cases heq
  case h_2 | h_3 | h_4 | h_5 | h_10 => simp [isWildcard] at hwild
  case h_6 =>
    simp only [Draft.closeGroup, hgroups] at h
    cases h
  case h_7 =>
    simpa only [Draft.nextBranch, hgroups] using h
  case h_8 | h_9 => exact absurd rfl hescape
  case h_11 => exact h

theorem readTokens_append_plain (hgroups : d.groups = []) (hwild : ∀ c ∈ cs, isWildcard c = false)
    (hescape : '\\' ∉ cs) (h : readTokens lenient classes d (cs ++ rest) = .ok r) :
    readTokens lenient classes (d.pushAll cs) rest = .ok r := by
  induction cs generalizing d with
  | nil => exact h
  | cons c cs ih =>
    obtain ⟨hc, hcs⟩ := List.forall_mem_cons.mp hwild
    have hne : c ≠ '\\' := fun hc => hescape (hc ▸ List.mem_cons_self)
    exact ih hgroups hcs (fun hmem => hescape (List.mem_cons_of_mem _ hmem))
      (readTokens_cons_plain hgroups hc hne h)

/-! ### What stays at the beginning -/

/-- The tokens outside of groups, the last one first, if `tokens` are those of the current
branch. -/
def outermost (tokens : List Token) : List OpenGroup → List Token
  | [] => tokens
  | group :: groups => outermost group.before groups

theorem outermost_suffix_cons (token : Token) (tokens : List Token) (groups : List OpenGroup) :
    outermost tokens groups <:+ outermost (token :: tokens) groups := by
  cases groups with
  | nil => exact List.suffix_cons token tokens
  | cons group groups => exact List.suffix_refl _

namespace Draft

/-- The draft begins with a directory and a token for the slash behind it. -/
def BeginsIn (dir : List Char) (d : Draft) : Prop :=
  ∃ t, t.takesSlash = true ∧
    t :: (dir.map Token.literal).reverse <:+ Glob.outermost d.tokens d.groups

variable {dir : List Char}

theorem BeginsIn.push (h : d.BeginsIn dir) (last : Char) (token : Token) :
    (d.push last token).BeginsIn dir := by
  obtain ⟨t, ht, hd⟩ := h
  exact ⟨t, ht, hd.trans (outermost_suffix_cons token d.tokens d.groups)⟩

theorem BeginsIn.openGroup (h : d.BeginsIn dir) : d.openGroup.BeginsIn dir :=
  h

theorem BeginsIn.nextBranch (h : d.BeginsIn dir) : d.nextBranch.BeginsIn dir := by
  unfold Draft.nextBranch
  split
  · exact h.push ',' (.literal ',')
  · rename_i group groups hgroups
    obtain ⟨t, ht, hd⟩ := h
    rw [hgroups] at hd
    exact ⟨t, ht, hd⟩

theorem BeginsIn.closeGroup (h : d.BeginsIn dir) (hr : d.closeGroup = .ok r) :
    r.BeginsIn dir := by
  unfold Draft.closeGroup at hr
  split at hr
  · cases hr
  · rename_i group groups hgroups
    cases hr
    obtain ⟨t, ht, hd⟩ := h
    rw [hgroups] at hd
    exact ⟨t, ht, hd.trans (outermost_suffix_cons _ group.before groups)⟩

/-- Two stars take the place of the last token, and take its slash over. -/
theorem BeginsIn.pushDescent (h : d.BeginsIn dir) (last : Char) {token : Token}
    (htoken : token.takesSlash = true) : (d.pushDescent last token).BeginsIn dir := by
  obtain ⟨tokens, groups, before⟩ := d
  obtain ⟨t, ht, hd⟩ := h
  cases groups with
  | cons group groups => exact ⟨t, ht, hd⟩
  | nil =>
    cases tokens with
    | nil => simp [Glob.outermost] at hd
    | cons head tokens =>
      rcases List.suffix_cons_iff.mp hd with hwhole | htail
      · obtain ⟨rfl, rfl⟩ := List.cons.inj hwhole
        refine ⟨_, ?_, List.suffix_refl _⟩
        cases t with
        | trailing => rfl
        | literal | between => exact htoken
        | any | anyRun | leading | oneOf | alternates => cases ht
      · exact ⟨t, ht, htail.trans (List.suffix_cons _ tokens)⟩

theorem BeginsIn.pushStars (h : d.BeginsIn dir) (next : Option Char) :
    (d.pushStars next).1.BeginsIn dir := by
  have hplain := (h.push '*' .anyRun).push '*' .anyRun
  simp only [Draft.pushStars]
  split
  · split
    · exact h.push '/' .leading
    · split
      · exact h.push '*' .leading
      · exact hplain
  · split
    · exact hplain
    · split
      · exact h.pushDescent '/' rfl
      · split
        · exact h.pushDescent '*' rfl
        · exact hplain

end Draft

/-- Whatever is read later, a draft keeps the directory that it begins with. -/
theorem beginsIn_readTokens {dir : List Char} (h : readTokens lenient classes d cs = .ok r)
    (hd : d.BeginsIn dir) : r.BeginsIn dir := by
  fun_induction readTokens lenient classes d cs with
  | case1 =>
    cases h
    exact hd
  | case2 | case5 | case10 | case11 | case13 | case14 | case16 =>
    rename_i ih
    exact ih h (hd.push _ _)
  | case3 _ _ cs next hstars ih | case4 _ _ cs next hstars ih =>
    have hnext := hd.pushStars cs.head?
    rw [hstars] at hnext
    exact ih h hnext
  | case6 _ _ _ ih => exact ih h hd.openGroup
  | case7 _ _ _ ih =>
    obtain ⟨next, hnext, h⟩ := bind_eq_ok.mp h
    exact ih next h (hd.closeGroup hnext)
  | case8 _ _ _ ih => exact ih h hd.nextBranch
  | case9 | case12 | case15 => cases h

/-! ### Patterns -/

variable {pattern : String} {g : Glob}

theorem parse_eq_ok : parse pattern = .ok g ↔
    ∃ r, readTokens false true {} pattern.toList = .ok r ∧ r.groups = [] ∧
      g = { tokens := r.tokens.reverse } := by
  simp only [parse, readPattern, bind_eq_ok, pure_eq_ok]
  constructor
  · intro h
    obtain ⟨tokens, ⟨r, hr, htokens⟩, rfl⟩ := h
    split at htokens
    · rename_i hgroups
      cases htokens
      exact ⟨r, hr, List.isEmpty_iff.mp hgroups, rfl⟩
    · cases htokens
  · intro h
    obtain ⟨r, hr, hgroups, rfl⟩ := h
    exact ⟨_, ⟨r, hr, by rw [hgroups]; rfl⟩, rfl⟩

theorem isWildcard_of_mem_plainPart {c : Char} (h : c ∈ plainPart cs) : isWildcard c = false := by
  simpa using List.all_eq_true.mp List.all_takeWhile c h

theorem tokens_of_parse_plain (h : parse pattern = .ok g)
    (hplain : plainPart pattern.toList = pattern.toList) (hescape : '\\' ∉ pattern.toList) :
    g.tokens = pattern.toList.map .literal := by
  obtain ⟨r, hr, -, rfl⟩ := parse_eq_ok.mp h
  have hwild : ∀ c ∈ pattern.toList, isWildcard c = false := by
    intro c hc
    rw [← hplain] at hc
    exact isWildcard_of_mem_plainPart hc
  rw [← List.append_nil pattern.toList] at hr
  have hread := readTokens_append_plain rfl hwild hescape hr
  rw [readTokens] at hread
  cases hread
  simp [Draft.tokens_pushAll]

/-- A pattern that has a slash before its first wildcard and its first escape begins with
what stands before the slash. -/
theorem tokens_of_parse_directory {dir : List Char} (h : parse pattern = .ok g)
    (hpattern : pattern.toList = dir ++ '/' :: rest) (hwild : ∀ c ∈ dir, isWildcard c = false)
    (hescape : '\\' ∉ dir) :
    ∃ t later, t.takesSlash = true ∧ g.tokens = dir.map .literal ++ t :: later := by
  obtain ⟨r, hr, hgroups, rfl⟩ := parse_eq_ok.mp h
  rw [hpattern] at hr
  have hdir := readTokens_append_plain rfl hwild hescape hr
  have hslash := readTokens_cons_plain (Draft.groups_pushAll _ _) (by decide) (by decide) hdir
  have hbegin : (((({} : Draft).pushAll dir).push '/' (.literal '/')).BeginsIn dir) := by
    refine ⟨.literal '/', rfl, ?_⟩
    simp [Draft.push, Draft.groups_pushAll, Draft.tokens_pushAll, outermost]
  obtain ⟨t, ht, later, hlater⟩ := beginsIn_readTokens hslash hbegin
  refine ⟨t, later.reverse, ht, ?_⟩
  rw [hgroups, outermost] at hlater
  show r.tokens.reverse = _
  rw [← hlater]
  simp

end AtomicCss.Glob
