/-
Where paths lead.

Single dots and doubled slashes lead nowhere, so what counts of a path are its components
without the dot that it may begin with: its steps.  They can be read off the text between
any two slashes, each half on its own.  Hence taking redundant slashes and dots off either
end keeps the steps, and the parent of a path has the steps of the path but the last.
-/
import AtomicCss.Project.Path

namespace AtomicCss.Path

/-- The components of a path that lead somewhere. -/
def trail (cs : List Char) : List Component :=
  (components cs).filter (· ≠ .current)

/-- A path is a directory's or lies below it. -/
def LiesIn (dir path : List Char) : Prop :=
  trail dir <+: trail path

instance (dir path : List Char) : Decidable (LiesIn dir path) :=
  inferInstanceAs (Decidable (_ <+: _))

/-! ### Redundant beginnings -/

theorem trimStart_trimStart (cs : List Char) : trimStart (trimStart cs) = trimStart cs := by
  fun_induction trimStart cs with
  | case1 | case3 => rfl
  | case2 rest ih | case4 rest ih => exact ih
  | case5 cs hnil hslash hdot hdots => exact trimStart.eq_5 cs hnil hslash hdot hdots

theorem exists_ofSegment?_trimStart {cs : List Char} (h : trimStart cs ≠ []) :
    ∃ c, ofSegment? ((trimStart cs).takeWhile (· != '/')) = some c := by
  fun_induction trimStart cs with
  | case1 | case3 => exact absurd rfl h
  | case2 rest ih | case4 rest ih => exact ih h
  | case5 cs hnil hslash hdot hdots =>
    cases cs with
    | nil => exact absurd rfl h
    | cons c cs =>
      have hc : c ≠ '/' := by
        rintro rfl
        exact hslash cs rfl
      have hname : c :: cs.takeWhile (· != '/') ≠ ['.'] := by
        intro hname
        obtain ⟨rfl, hcs⟩ := List.cons.inj hname
        cases cs with
        | nil => exact hdot rfl
        | cons d cs =>
          have hd : d ≠ '/' := by
            rintro rfl
            exact hdots cs rfl
          simp [hd] at hcs
      simp only [List.takeWhile_cons, bne_iff_ne.mpr hc, if_true, ofSegment?]
      simp only [reduceCtorEq, decide_false, hname, Bool.or_false, Bool.false_eq_true, if_false]
      split <;> exact ⟨_, rfl⟩

theorem trimStart_append (a b : List Char) :
    trimStart (a ++ '/' :: b) =
      if trimStart a = [] then trimStart b else trimStart a ++ '/' :: b := by
  fun_induction trimStart a with
  | case1 => simp [trimStart]
  | case2 rest ih => simpa [trimStart] using ih
  | case3 => simp [trimStart]
  | case4 rest ih => simpa [trimStart] using ih
  | case5 cs hnil hslash hdot hdots =>
    rw [if_neg hnil]
    obtain _ | ⟨c, cs⟩ := cs
    · exact absurd rfl hnil
    · refine trimStart.eq_5 _ (by simp) ?_ (by simp) ?_
      · intro rest h
        exact hslash cs (by rw [(List.cons.inj h).1])
      · intro rest h
        obtain ⟨rfl, htail⟩ := List.cons.inj h
        cases cs with
        | nil => exact hdot rfl
        | cons d cs =>
          obtain ⟨rfl, -⟩ := List.cons.inj htail
          exact hdots cs rfl

/-! ### Steps between slashes -/

theorem bodyComponents_of_trimStart_nil {cs : List Char} (h : trimStart cs = []) :
    bodyComponents cs = [] := by
  have hnext : next? cs = none := by simp [next?, h, ofSegment?]
  rw [bodyComponents]
  split
  · rfl
  · rename_i hsome
    rw [hnext] at hsome
    cases hsome

@[simp] theorem bodyComponents_nil : bodyComponents [] = [] :=
  bodyComponents_of_trimStart_nil rfl

@[simp] theorem bodyComponents_current : bodyComponents ['.'] = [] :=
  bodyComponents_of_trimStart_nil rfl

theorem bodyComponents_of_ofSegment? {cs : List Char} {c : Component}
    (h : ofSegment? ((trimStart cs).takeWhile (· != '/')) = some c) :
    bodyComponents cs = c :: bodyComponents ((trimStart cs).dropWhile (· != '/')) := by
  have hnext : next? cs = some (c, (trimStart cs).dropWhile (· != '/')) := by simp [next?, h]
  rw [bodyComponents]
  split
  · rename_i hnone
    rw [hnext] at hnone
    cases hnone
  · rename_i hsome
    rw [hnext] at hsome
    cases hsome
    rfl

theorem bodyComponents_trimStart (cs : List Char) :
    bodyComponents (trimStart cs) = bodyComponents cs := by
  by_cases h : trimStart cs = []
  · rw [bodyComponents_of_trimStart_nil h, bodyComponents_of_trimStart_nil]
    rw [trimStart_trimStart, h]
  · obtain ⟨c, hc⟩ := exists_ofSegment?_trimStart h
    rw [bodyComponents_of_ofSegment? hc, bodyComponents_of_ofSegment? (c := c),
      trimStart_trimStart]
    rw [trimStart_trimStart, hc]

theorem takeWhile_append_slash (a b : List Char) :
    (a ++ '/' :: b).takeWhile (· != '/') = a.takeWhile (· != '/') := by
  induction a with
  | nil => rfl
  | cons c a ih => simp [List.takeWhile_cons, ih]

theorem dropWhile_append_slash (a b : List Char) :
    (a ++ '/' :: b).dropWhile (· != '/') = a.dropWhile (· != '/') ++ '/' :: b := by
  induction a with
  | nil => rfl
  | cons c a ih =>
    simp only [List.cons_append, List.dropWhile_cons, ih]
    split <;> rfl

/-- Both halves of a path can be read on their own. -/
theorem bodyComponents_append (a b : List Char) :
    bodyComponents (a ++ '/' :: b) = bodyComponents a ++ bodyComponents b := by
  by_cases h : trimStart a = []
  · have htrim : trimStart (a ++ '/' :: b) = trimStart b := by rw [trimStart_append, if_pos h]
    rw [← bodyComponents_trimStart, htrim, bodyComponents_trimStart,
      bodyComponents_of_trimStart_nil h, List.nil_append]
  · obtain ⟨c, hc⟩ := exists_ofSegment?_trimStart h
    have htrim : trimStart (a ++ '/' :: b) = trimStart a ++ '/' :: b := by
      rw [trimStart_append, if_neg h]
    have hshorter : ((trimStart a).dropWhile (· != '/')).length < a.length :=
      next?_length_lt (c := c) (by simp [next?, hc])
    rw [bodyComponents_of_ofSegment? (by rw [htrim, takeWhile_append_slash, hc]), htrim,
      dropWhile_append_slash, bodyComponents_append, bodyComponents_of_ofSegment? hc,
      List.cons_append]
termination_by a.length

theorem bodyComponents_slash (cs : List Char) : bodyComponents ('/' :: cs) = bodyComponents cs := by
  have happend := bodyComponents_append [] cs
  rwa [bodyComponents_nil, List.nil_append, List.nil_append] at happend

theorem bodyComponents_trimReversed (cs : List Char) :
    bodyComponents (trimEnd.trimReversed cs).reverse = bodyComponents cs.reverse := by
  fun_induction trimEnd.trimReversed cs with
  | case1 => rfl
  | case2 rest ih =>
    rw [ih, List.reverse_cons, bodyComponents_append, bodyComponents_nil, List.append_nil]
  | case3 => exact bodyComponents_nil.trans bodyComponents_current.symm
  | case4 rest ih =>
    rw [ih, List.reverse_cons, List.reverse_cons, List.append_assoc, List.singleton_append,
      bodyComponents_append, bodyComponents_current, List.append_nil]
  | case5 => rfl

theorem trimReversed_suffix (cs : List Char) : trimEnd.trimReversed cs <:+ cs := by
  fun_induction trimEnd.trimReversed cs with
  | case1 | case5 => exact List.suffix_refl _
  | case2 rest ih => exact ih.trans (List.suffix_cons _ _)
  | case3 => exact List.nil_suffix
  | case4 rest ih => exact (ih.trans (List.suffix_cons _ _)).trans (List.suffix_cons _ _)

theorem trimReversed_isPrefix (cs : List Char) :
    (trimEnd.trimReversed cs.reverse).reverse <+: cs := by
  have h := trimReversed_suffix cs.reverse
  rwa [← List.reverse_prefix, List.reverse_reverse] at h

/-! ### Steps -/

/-- The step that a path from the root begins with. -/
def rootStep (cs : List Char) : List Component :=
  if cs.head? = some '/' then [.root] else []

theorem ne_current_of_next? {cs rest : List Char} {c : Component}
    (h : next? cs = some (c, rest)) : c ≠ .current := by
  obtain ⟨c', hc, hpair⟩ := Option.map_eq_some_iff.mp h
  cases hpair
  unfold ofSegment? at hc
  split at hc
  · cases hc
  · split at hc <;> cases hc <;> simp

theorem current_notMem_bodyComponents (cs : List Char) : .current ∉ bodyComponents cs := by
  rw [bodyComponents]
  split
  · simp
  · rename_i c rest hnext
    have hlength := next?_length_lt hnext
    have hne := ne_current_of_next? hnext
    have ih := current_notMem_bodyComponents rest
    simp [Ne.symm hne, ih]
termination_by cs.length

theorem filter_bodyComponents (cs : List Char) :
    (bodyComponents cs).filter (· ≠ .current) = bodyComponents cs := by
  rw [List.filter_eq_self]
  intro c hc
  simp only [ne_eq, decide_not, Bool.not_eq_true', decide_eq_false_iff_not]
  rintro rfl
  exact current_notMem_bodyComponents cs hc

/-- A dot before a slash, or alone, leads nowhere. -/
theorem bodyComponents_dot {cs : List Char} (h : cs = [] ∨ ∃ rest, cs = '/' :: rest) :
    bodyComponents ('.' :: cs) = bodyComponents cs := by
  rcases h with rfl | ⟨rest, rfl⟩
  · rw [bodyComponents_current, bodyComponents_nil]
  · have happend := bodyComponents_append ['.'] rest
    rwa [bodyComponents_current, List.nil_append, ← bodyComponents_slash rest] at happend

theorem head?_cases (cs : List Char) :
    (∃ rest, cs = '/' :: rest ∧ head? cs = some (.root, rest)) ∨
      (∃ rest, cs = '.' :: rest ∧ (rest = [] ∨ ∃ more, rest = '/' :: more) ∧
        head? cs = some (.current, rest)) ∨
      (rootStep cs = [] ∧ head? cs = none) := by
  by_cases hslash : ∃ rest, cs = '/' :: rest
  · obtain ⟨rest, rfl⟩ := hslash
    exact .inl ⟨rest, rfl, rfl⟩
  · right
    have hroot : rootStep cs = [] := by
      rw [rootStep, if_neg]
      intro h
      obtain ⟨rest, hrest⟩ := List.head?_eq_some_iff.mp h
      exact hslash ⟨rest, hrest⟩
    have hhead : head? cs = if startsWithCurrent cs then some (.current, cs.drop 1) else none := by
      unfold head?
      split
      · rename_i rest
        exact absurd ⟨rest, rfl⟩ hslash
      · rfl
    by_cases hdot : startsWithCurrent cs = true
    · left
      rw [if_pos hdot] at hhead
      unfold startsWithCurrent at hdot
      split at hdot
      · exact ⟨[], rfl, .inl rfl, hhead⟩
      · rename_i rest
        exact ⟨'/' :: rest, rfl, .inr ⟨rest, rfl⟩, hhead⟩
      · cases hdot
    · exact .inr ⟨hroot, by rw [hhead, if_neg hdot]⟩

theorem trail_eq (cs : List Char) : trail cs = rootStep cs ++ bodyComponents cs := by
  rcases head?_cases cs with ⟨rest, rfl, h⟩ | ⟨rest, rfl, hrest, h⟩ | ⟨hroot, h⟩
  · rw [trail, components, h, bodyComponents_slash]
    simp only [List.filter_cons, filter_bodyComponents]
    rfl
  · rw [trail, components, h, bodyComponents_dot hrest]
    simp only [List.filter_cons, filter_bodyComponents]
    rfl
  · rw [trail, components, h, hroot, List.nil_append]
    exact filter_bodyComponents cs

theorem rootStep_of_isPrefix {cs ds : List Char} (h : cs <+: ds) (hds : rootStep ds = []) :
    rootStep cs = [] := by
  obtain ⟨rest, rfl⟩ := h
  cases cs with
  | nil => rfl
  | cons c cs => exact hds

/-- Nothing, or a slash and more, begins with nothing, or with a slash and more. -/
theorem opensWithSlash_of_isPrefix {cs ds : List Char} (h : cs <+: ds)
    (hds : ds = [] ∨ ∃ rest, ds = '/' :: rest) : cs = [] ∨ ∃ rest, cs = '/' :: rest := by
  obtain ⟨tail, htail⟩ := h
  cases cs with
  | nil => exact .inl rfl
  | cons c cs =>
    rcases hds with rfl | ⟨rest, rfl⟩
    · cases htail
    · obtain ⟨rfl, -⟩ := List.cons.inj htail
      exact .inr ⟨cs, rfl⟩

/-! ### Parents -/

/-- Taking what is redundant off the end keeps the steps. -/
theorem trail_trimEnd (cs : List Char) : trail (trimEnd (headLength cs) cs) = trail cs := by
  rcases head?_cases cs with ⟨rest, rfl, h⟩ | ⟨rest, rfl, hrest, h⟩ | ⟨hroot, h⟩
  · have hlength : headLength ('/' :: rest) = 1 := by simp [headLength, h]
    have htrim : trimEnd 1 ('/' :: rest) = '/' :: (trimEnd.trimReversed rest.reverse).reverse := rfl
    rw [hlength, htrim, trail_eq, trail_eq, bodyComponents_slash, bodyComponents_slash,
      bodyComponents_trimReversed, List.reverse_reverse]
    rfl
  · have hlength : headLength ('.' :: rest) = 1 := by simp [headLength, h]
    have htrim : trimEnd 1 ('.' :: rest) = '.' :: (trimEnd.trimReversed rest.reverse).reverse := rfl
    have hkept := opensWithSlash_of_isPrefix (trimReversed_isPrefix rest) hrest
    rw [hlength, htrim, trail_eq, trail_eq, bodyComponents_dot hkept, bodyComponents_dot hrest,
      bodyComponents_trimReversed, List.reverse_reverse]
    rfl
  · have hlength : headLength cs = 0 := by simp [headLength, h]
    have htrim : trimEnd 0 cs = (trimEnd.trimReversed cs.reverse).reverse := rfl
    rw [hlength, htrim, trail_eq, trail_eq, bodyComponents_trimReversed, List.reverse_reverse,
      hroot, rootStep_of_isPrefix (trimReversed_isPrefix cs) hroot]

/-- A text that ends with a slash, or at the beginning of a path, keeps its steps whatever
name follows. -/
theorem liesIn_append {dir name : List Char}
    (h : dir = [] ∨ dir = ['.'] ∨ ∃ before, dir = before ++ ['/']) : LiesIn dir (dir ++ name) := by
  unfold LiesIn
  rw [trail_eq, trail_eq]
  rcases h with rfl | rfl | ⟨before, rfl⟩
  · rw [bodyComponents_nil]
    exact List.nil_prefix
  · rw [bodyComponents_current]
    exact List.nil_prefix
  · have hroot : rootStep (before ++ ['/']) = rootStep (before ++ ['/'] ++ name) := by
      cases before <;> rfl
    rw [hroot, List.append_assoc, List.singleton_append, bodyComponents_append,
      bodyComponents_append, bodyComponents_nil, List.append_nil]
    exact ⟨bodyComponents name, by rw [List.append_assoc]⟩

/-- What a slash follows is a directory of all that comes behind the slash. -/
theorem liesIn_append_slash (dir rest : List Char) : LiesIn dir (dir ++ '/' :: rest) := by
  cases dir with
  | nil => exact liesIn_append (.inl rfl)
  | cons c dir =>
    have hroot : rootStep (c :: dir) = rootStep (c :: dir ++ '/' :: rest) := rfl
    unfold LiesIn
    rw [trail_eq, trail_eq, ← hroot, bodyComponents_append]
    exact ⟨bodyComponents rest, by rw [List.append_assoc]⟩

theorem liesIn_current (path : List Char) : LiesIn ['.'] path := by
  unfold LiesIn
  rw [trail_eq ['.'], bodyComponents_current]
  exact List.nil_prefix

/-- What comes before the last step ends with a slash, or is at the beginning of the path. -/
theorem exists_append_of_last? {cs before : List Char} {c : Component}
    (h : last? cs = some (c, before)) :
    ∃ name, trimEnd (headLength cs) cs = before ++ name ∧
      (before = [] ∨ before = ['.'] ∨ ∃ dir, before = dir ++ ['/']) := by
  simp only [last?] at h
  generalize hkept : headLength cs = kept at h
  generalize htrimmed : trimEnd kept cs = trimmed at h
  have hhead : trimmed.take kept = [] ∨ trimmed.take kept = ['.'] ∨ trimmed.take kept = ['/'] := by
    rw [← htrimmed, ← hkept]
    rcases head?_cases cs with ⟨rest, rfl, h⟩ | ⟨rest, rfl, -, h⟩ | ⟨-, h⟩
    · simp [headLength, h, trimEnd]
    · simp [headLength, h, trimEnd]
    · simp [headLength, h]
  split at h
  · obtain ⟨head, -, hpair⟩ := Option.map_eq_some_iff.mp h
    cases hpair
    exact ⟨trimmed, rfl, .inl rfl⟩
  · obtain ⟨last, -, hpair⟩ := Option.map_eq_some_iff.mp h
    obtain ⟨rfl, rfl⟩ := Prod.mk.inj hpair
    generalize hsegment : ((trimmed.drop kept).reverse.takeWhile (· != '/')).reverse = segment
    generalize hfront : ((trimmed.drop kept).reverse.dropWhile (· != '/')).reverse = front
    have hbody : trimmed.drop kept = front ++ segment := by
      rw [← hsegment, ← hfront, ← List.reverse_append, List.takeWhile_append_dropWhile,
        List.reverse_reverse]
    have hwhole : trimmed = trimmed.take kept ++ front ++ segment := by
      rw [List.append_assoc, ← hbody, List.take_append_drop]
    have hlength : (trimmed.take kept ++ front).length = trimmed.length - segment.length := by
      have hlength := congrArg List.length hwhole
      rw [List.length_append] at hlength
      omega
    have hbefore : trimmed.take (trimmed.length - segment.length) = trimmed.take kept ++ front :=
      (congrArg (List.take _) hwhole).trans (List.take_left' hlength)
    rw [hbefore]
    refine ⟨segment, hwhole, ?_⟩
    cases hdrop : (trimmed.drop kept).reverse.dropWhile (· != '/') with
    | nil =>
      obtain rfl : front = [] := by rw [← hfront, hdrop, List.reverse_nil]
      rw [List.append_nil]
      exact hhead.imp_right (Or.imp_right fun hslash => ⟨[], hslash⟩)
    | cons d rest =>
      have hd := List.head?_dropWhile_not (· != '/') (trimmed.drop kept).reverse
      rw [hdrop] at hd
      obtain rfl : d = '/' := by simpa using hd
      refine .inr (.inr ⟨trimmed.take kept ++ rest.reverse, ?_⟩)
      rw [← hfront, hdrop, List.reverse_cons, List.append_assoc]

theorem liesIn_of_parent? {cs dir : List Char} (h : parent? cs = some dir) : LiesIn dir cs := by
  unfold parent? at h
  split at h
  · cases h
  · cases h
  · rename_i c before hroot hlast
    cases h
    obtain ⟨name, htrim, hbefore⟩ := exists_append_of_last? hlast
    unfold LiesIn
    rw [trail_trimEnd, ← trail_trimEnd cs, htrim]
    exact liesIn_append hbefore

/-! ### Relative paths -/

theorem rootStep_trimStart (cs : List Char) : rootStep (trimStart cs) = [] := by
  fun_induction trimStart cs with
  | case1 | case3 => rfl
  | case2 rest ih | case4 rest ih => exact ih
  | case5 cs hnil hslash hdot hdots =>
    rw [rootStep, if_neg]
    intro h
    obtain ⟨rest, hrest⟩ := List.head?_eq_some_iff.mp h
    exact hslash rest hrest

/-- Seen from the current directory a path has the same steps. -/
theorem relativeTo_current {path : List Char} (h : rootStep path = []) :
    rootStep (relativeTo ['.'] path) = [] ∧
      bodyComponents (relativeTo ['.'] path) = bodyComponents path := by
  have hbase : components ['.'] = [.current] := by
    simp [components, head?, startsWithCurrent]
  unfold relativeTo relative?
  rw [hbase]
  rcases head?_cases path with ⟨rest, rfl, hhead⟩ | ⟨rest, rfl, hrest, hhead⟩ | ⟨-, hhead⟩
  · cases h
  · simp only [hhead, if_true, bodyAfter?, Option.getD_some]
    have htrim : trimEnd 0 (trimStart rest) =
      (trimEnd.trimReversed (trimStart rest).reverse).reverse := rfl
    rw [htrim, bodyComponents_trimReversed, List.reverse_reverse, bodyComponents_trimStart,
      bodyComponents_dot hrest]
    exact ⟨rootStep_of_isPrefix (trimReversed_isPrefix _) (rootStep_trimStart rest), rfl⟩
  · have hnone : bodyAfter? [.current] path = none := by
      unfold bodyAfter?
      split
      · rename_i c rest hnext
        rw [if_neg (Ne.symm (ne_current_of_next? hnext))]
      · rfl
    simp only [hhead, hnone, Option.getD_none, and_true]
    exact h

end AtomicCss.Path
