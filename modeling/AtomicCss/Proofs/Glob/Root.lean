/-
The directory of a pattern is above all matches.

The directory is taken from the text of a pattern, without reading the pattern.  Where
nothing is escaped before the first wildcard, the pattern that is read does begin with that
directory and a slash, so every text it matches does.  A pattern without wildcards matches
its own text only, and lies in its directory because a path lies in its parent.

The directories to watch are those of the patterns, each once, and the current directory
where a pattern has none.
-/
import AtomicCss.Proofs.Glob.Reader
import AtomicCss.Proofs.Project.Path

namespace AtomicCss.Glob

open AtomicCss.Path

/-! ### The directory of a pattern -/

variable {pattern : String} {g : Glob} {text : List Char}

/-- The part before the first wildcard, if it has a separator that is no escape. -/
theorem exists_append_of_separator {cs dir : List Char} {c : Char} (hescape : '\\' ∉ plainPart cs)
    (h : (plainPart cs).reverse.dropWhile (!isSeparator ·) = c :: dir) :
    c = '/' ∧ ∃ between, plainPart cs = dir.reverse ++ '/' :: between := by
  have hwhole := List.takeWhile_append_dropWhile (p := (!isSeparator ·))
    (l := (plainPart cs).reverse)
  rw [h] at hwhole
  have hsplit : plainPart cs = dir.reverse ++
      c :: ((plainPart cs).reverse.takeWhile (!isSeparator ·)).reverse := by
    have hreverse := congrArg List.reverse hwhole
    simpa using hreverse.symm
  have hc : isSeparator c = true := by
    have hhead := List.head?_dropWhile_not (!isSeparator ·) (plainPart cs).reverse
    rw [h] at hhead
    simpa using hhead
  have hslash : c = '/' := by
    simp only [isSeparator, Bool.or_eq_true, beq_iff_eq] at hc
    refine hc.resolve_right fun hc => hescape ?_
    rw [hsplit, hc]
    simp
  exact ⟨hslash, _, hslash ▸ hsplit⟩

theorem plainPart_eq_self {cs : List Char} (h : (plainPart cs).length = cs.length) :
    plainPart cs = cs :=
  (List.takeWhile_prefix _).eq_of_length h

/-- A pattern that begins with a directory matches only what lies in it. -/
theorem exists_append_of_isMatch {dir between : List Char} (hparse : parse pattern = .ok g)
    (hescape : '\\' ∉ plainPart pattern.toList)
    (hplain : plainPart pattern.toList = dir ++ '/' :: between) (hmatch : g.isMatch text = true) :
    ∃ rest, text = dir ++ '/' :: rest := by
  have hdir : ∀ c ∈ dir, c ∈ plainPart pattern.toList := by
    intro c hc
    rw [hplain]
    exact List.mem_append_left _ hc
  obtain ⟨rest, hrest⟩ := List.takeWhile_prefix (l := pattern.toList) (!isWildcard ·)
  have hpattern : pattern.toList = dir ++ '/' :: (between ++ rest) := by
    rw [← hrest, ← plainPart, hplain, List.append_assoc, List.cons_append]
  obtain ⟨t, later, ht, htokens⟩ := tokens_of_parse_directory hparse hpattern
    (fun c hc => isWildcard_of_mem_plainPart (hdir c hc)) (fun hc => hescape (hdir _ hc))
  exact exists_of_isMatch_directory htokens ht hmatch

/-- **What a pattern matches lies in the directory of the pattern**, if nothing is escaped
before its first wildcard. -/
theorem liesIn_root (hparse : parse pattern = .ok g) (hescape : '\\' ∉ plainPart pattern.toList)
    (hroot : rootStep text = []) (hmatch : g.isMatch text = true) :
    LiesIn (root pattern.toList) text := by
  unfold root
  rw [← plainPart]
  by_cases hlength : (plainPart pattern.toList).length = pattern.toList.length
  · rw [if_pos hlength]
    have hplain := plainPart_eq_self hlength
    rw [hplain] at hescape
    obtain rfl := (isMatch_literals_iff (tokens_of_parse_plain hparse hplain hescape)).mp hmatch
    split
    · exact List.prefix_refl _
    · split
      · cases hparent : parent? pattern.toList with
        | none => exact liesIn_current _
        | some dir => exact liesIn_of_parent? hparent
      · exact List.prefix_refl _
  · rw [if_neg hlength]
    cases hbefore : (plainPart pattern.toList).reverse.dropWhile (!isSeparator ·) with
    | nil => exact liesIn_current _
    | cons c dir =>
      obtain ⟨rfl, between, hplain⟩ := exists_append_of_separator hescape hbefore
      obtain ⟨rest, rfl⟩ := exists_append_of_isMatch hparse hescape hplain hmatch
      cases dir with
      | nil => cases hroot
      | cons d dir => exact liesIn_append_slash _ rest

/-! ### The directories to watch -/

theorem liesIn_watchRoot {p path : List Char} (h : LiesIn (root p) path) :
    LiesIn (watchRoot p) path := by
  simp only [watchRoot]
  split
  · exact liesIn_current path
  · exact h

/-- A directory that is added is there, if under another spelling. -/
theorem exists_mem_addRoot (roots : List (List Char)) (dir : List Char) :
    ∃ r ∈ addRoot roots dir, components r = components dir := by
  unfold addRoot
  split
  · rename_i hany
    obtain ⟨r, hr, heq⟩ := List.any_eq_true.mp hany
    exact ⟨r, hr, of_decide_eq_true heq⟩
  · exact ⟨dir, by simp, rfl⟩

theorem subset_addRoot (roots : List (List Char)) (dir : List Char) :
    roots ⊆ addRoot roots dir := by
  unfold addRoot
  split
  · exact List.Subset.refl _
  · exact List.subset_append_left _ _

theorem subset_foldl_addRoot (patterns roots : List (List Char)) :
    roots ⊆ patterns.foldl (fun roots p => addRoot roots (watchRoot p)) roots := by
  induction patterns generalizing roots with
  | nil => exact List.Subset.refl _
  | cons p patterns ih => exact List.Subset.trans (subset_addRoot _ _) (ih _)

theorem exists_mem_watchRoots {patterns : List (List Char)} {p : List Char} (h : p ∈ patterns) :
    ∃ r ∈ watchRoots patterns, components r = components (watchRoot p) := by
  unfold watchRoots
  generalize ([] : List (List Char)) = roots
  induction patterns generalizing roots with
  | nil => cases h
  | cons q patterns ih =>
    rcases List.mem_cons.mp h with rfl | h
    · obtain ⟨r, hr, heq⟩ := exists_mem_addRoot roots (watchRoot p)
      exact ⟨r, subset_foldl_addRoot patterns _ hr, heq⟩
    · exact ih h _

end AtomicCss.Glob
