/-
What the patterns of files to leave out do to a selection.

Leaving files out commutes with everything a selection does: whether a file is left out
depends on its path only, so it makes no difference whether the walk, the files of one
pattern or the selection as a whole is thinned out.  Hence a selection is the selection
without such patterns, less the files that they match (`Selection.files_eq_filter`).

Which of the patterns count is decided for the list as a whole.  If all can be read and none
is too deep, all count.  If some cannot be read, only the first of these is reported and none
of the list counts, so one bad pattern lets all the files in that the others would keep out
(`Selection.paths_of_parse_eq_error`).
-/
import AtomicCss.Project.Edit
import AtomicCss.Proofs.Distinct
import AtomicCss.Proofs.Fallible
import AtomicCss.Proofs.Ignore.Patterns
import AtomicCss.Source.Selection

namespace AtomicCss

/-- Whether a warning is about a pattern that cannot be read. -/
def Warning.isUnreadablePattern : Warning → Bool
  | .invalidGlob _ _ => true
  | _ => false

namespace Source

/-! ### Which patterns count -/

section Patterns

variable {p : String} {patterns : List String} {g : Glob} {fault : Glob.Fault}

theorem readable_cons_of_ok (h : Glob.parse p = .ok g) :
    readable (p :: patterns) = (p, g) :: readable patterns := by
  simp [readable, h, Except.toOption]

theorem unreadable_cons_of_ok (h : Glob.parse p = .ok g) :
    unreadable (p :: patterns) = unreadable patterns := by
  simp [unreadable, h]

theorem unreadable_cons_of_error (h : Glob.parse p = .error fault) :
    unreadable (p :: patterns) = .invalidGlob p fault :: unreadable patterns := by
  simp [unreadable, h]

/-- A list is read up to the first pattern that cannot be read. -/
theorem mapM_parse (patterns : List String) :
    patterns.mapM (fun p => (Glob.parse p).mapError (IgnorePatterns.Fault.unreadable p)) =
      match unreadable patterns with
      | .invalidGlob p fault :: _ => .error (.unreadable p fault)
      | _ => .ok ((readable patterns).map (·.2)) := by
  induction patterns with
  | nil => rfl
  | cons p patterns ih =>
      rw [List.mapM_cons, ih]
      cases hparse : Glob.parse p with
      | error fault =>
          rw [unreadable_cons_of_error hparse]
          rfl
      | ok g =>
          rw [unreadable_cons_of_ok hparse, readable_cons_of_ok hparse]
          split <;> rfl

/-- The patterns of a list that can be read. -/
def readablePatterns (patterns : List String) : List String :=
  (readable patterns).map (·.1)

theorem readablePatterns_eq_self (h : unreadable patterns = []) :
    readablePatterns patterns = patterns := by
  induction patterns with
  | nil => rfl
  | cons p patterns ih =>
      cases hparse : Glob.parse p with
      | error fault =>
          rw [unreadable_cons_of_error hparse] at h
          cases h
      | ok g =>
          rw [unreadable_cons_of_ok hparse] at h
          rw [readablePatterns, readable_cons_of_ok hparse, List.map_cons, ← readablePatterns, ih h]

theorem mem_readable : (p, g) ∈ readable patterns ↔ p ∈ patterns ∧ Glob.parse p = .ok g := by
  unfold readable
  rw [List.mem_filterMap]
  constructor
  · intro h
    obtain ⟨q, hq, hread⟩ := h
    cases hparse : Glob.parse q with
    | error fault =>
      rw [hparse] at hread
      cases hread
    | ok g' =>
      rw [hparse] at hread
      cases hread
      exact ⟨hq, hparse⟩
  · intro h
    exact ⟨p, h.1, by rw [h.2]; rfl⟩

theorem exists_of_mem_unreadable {w : Warning} (h : w ∈ unreadable patterns) :
    ∃ p fault, p ∈ patterns ∧ w = .invalidGlob p fault := by
  obtain ⟨p, hp, hw⟩ := List.mem_filterMap.mp h
  split at hw
  · cases hw
  · rename_i fault _
    cases hw
    exact ⟨p, fault, hp, rfl⟩

/-- A list that can be read is used as a whole, or not at all. -/
theorem parse_of_readable (h : unreadable patterns = []) :
    IgnorePatterns.parse patterns = IgnorePatterns.ofGlobs ((readable patterns).map (·.2)) := by
  rw [IgnorePatterns.parse, mapM_parse, h]
  rfl

theorem parse_eq_ok {usable : IgnorePatterns} : IgnorePatterns.parse patterns = .ok usable ↔
    unreadable patterns = [] ∧ Glob.depthFault? ((readable patterns).map (·.2)) = none ∧
      usable = ⟨(readable patterns).map (·.2)⟩ := by
  rw [IgnorePatterns.parse, bind_eq_ok, mapM_parse]
  constructor
  · intro h
    obtain ⟨globs, hglobs, husable⟩ := h
    split at hglobs
    · cases hglobs
    · rename_i hread
      cases hglobs
      refine ⟨?_, IgnorePatterns.ofGlobs_eq_ok.mp husable⟩
      cases hall : unreadable patterns with
      | nil => rfl
      | cons w rest =>
          obtain ⟨p, fault, -, rfl⟩ := exists_of_mem_unreadable (hall ▸ List.mem_cons_self)
          exact absurd hall (hread p fault rest)
  · intro h
    rw [h.1]
    exact ⟨_, rfl, IgnorePatterns.ofGlobs_eq_ok.mpr h.2⟩

theorem exists_parse_eq_error (h : unreadable patterns ≠ []) :
    ∃ fault, IgnorePatterns.parse patterns = .error fault := by
  cases hparse : IgnorePatterns.parse patterns with
  | error fault => exact ⟨fault, rfl⟩
  | ok usable => exact absurd (parse_eq_ok.mp hparse).1 h

/-! ### What is reported -/

theorem filter_unreadable (patterns : List String) :
    (unreadable patterns).filter Warning.isUnreadablePattern = unreadable patterns := by
  rw [List.filter_eq_self]
  intro w hw
  obtain ⟨p, fault, -, rfl⟩ := exists_of_mem_unreadable hw
  rfl

/-- Of the patterns of a list that cannot be read the first is reported. -/
theorem filter_ignorePatterns (patterns : List String) :
    (ignorePatterns patterns).2.filter Warning.isUnreadablePattern =
      (unreadable patterns).take 1 := by
  cases hbad : unreadable patterns with
  | cons w rest =>
      obtain ⟨p, fault, -, rfl⟩ := exists_of_mem_unreadable (hbad ▸ List.mem_cons_self)
      simp only [ignorePatterns, IgnorePatterns.parse, mapM_parse, hbad]
      rfl
  | nil =>
      rw [ignorePatterns, parse_of_readable hbad, IgnorePatterns.ofGlobs]
      cases Glob.depthFault? ((readable patterns).map (·.2)) <;> rfl

end Patterns

/-! ### The files that are left -/

/-- Whether the patterns of files to leave out leave out the file at a path. -/
def leavesOut (ignore : List String) (base path : List Char) : Bool :=
  eitherPath (ignorePatterns ignore).1.isMatch base path

theorem leavesOut_of_parse_eq_error {ignore : List String} {fault : IgnorePatterns.Fault}
    (h : IgnorePatterns.parse ignore = .error fault) (base path : List Char) :
    leavesOut ignore base path = false := by
  unfold leavesOut ignorePatterns
  rw [h]
  cases fault <;> rfl

/-- Whether a pattern by itself leaves out the file at a path. -/
def leavesOutAlone (g : Glob) (base path : List Char) : Bool :=
  eitherPath (IgnorePatterns.isMatch ⟨[g]⟩) base path

theorem ignorePatterns_of_parse {ignore : List String} {usable : IgnorePatterns}
    (h : IgnorePatterns.parse ignore = .ok usable) : ignorePatterns ignore = (usable, []) := by
  rw [ignorePatterns, h]

theorem leavesOut_eq_true_iff {ignore : List String} {usable : IgnorePatterns}
    {base path : List Char} (h : IgnorePatterns.parse ignore = .ok usable) :
    leavesOut ignore base path = true ↔
      ∃ p ∈ ignore, ∃ g, Glob.parse p = .ok g ∧ leavesOutAlone g base path = true := by
  have hmatch (cs : List Char) : usable.isMatch cs = true ↔
      ∃ p ∈ ignore, ∃ g, Glob.parse p = .ok g ∧ IgnorePatterns.isMatch ⟨[g]⟩ cs = true := by
    rw [(parse_eq_ok.mp h).2.2, IgnorePatterns.isMatch_eq_true_iff]
    simp only [List.mem_map, Prod.exists, mem_readable]
    grind
  simp only [leavesOut, leavesOutAlone, ignorePatterns_of_parse h, eitherPath, Bool.or_eq_true,
    hmatch]
  grind

theorem readable_append (patterns others : List String) :
    readable (patterns ++ others) = readable patterns ++ readable others :=
  List.filterMap_append

theorem unreadable_append (patterns others : List String) :
    unreadable (patterns ++ others) = unreadable patterns ++ unreadable others :=
  List.filterMap_append

theorem exists_parse_of_append {ignore others : List String} {both : IgnorePatterns}
    (h : IgnorePatterns.parse (ignore ++ others) = .ok both) :
    ∃ usable, IgnorePatterns.parse ignore = .ok usable := by
  obtain ⟨hread, hdepth, -⟩ := parse_eq_ok.mp h
  rw [unreadable_append] at hread
  rw [readable_append, List.map_append] at hdepth
  refine ⟨_, parse_eq_ok.mpr ⟨(List.append_eq_nil_iff.mp hread).1, ?_, rfl⟩⟩
  refine Glob.depthFault?_eq_none_iff.mpr fun g hg => ?_
  exact Glob.depthFault?_eq_none_iff.mp hdepth g (List.mem_append_left _ hg)

/-- A pattern that is added to a list leaves out what it leaves out by itself. -/
theorem leavesOut_append {ignore : List String} {p : String} {g : Glob} {both : IgnorePatterns}
    (h : IgnorePatterns.parse (ignore ++ [p]) = .ok both) (hparse : Glob.parse p = .ok g)
    (base path : List Char) :
    leavesOut (ignore ++ [p]) base path =
      (leavesOut ignore base path || leavesOutAlone g base path) := by
  obtain ⟨usable, husable⟩ := exists_parse_of_append h
  rw [Bool.eq_iff_iff, Bool.or_eq_true, leavesOut_eq_true_iff husable, leavesOut_eq_true_iff h]
  constructor
  · intro hout
    obtain ⟨q, hq, g', hread, hmatch⟩ := hout
    rcases List.mem_append.mp hq with hq | hq
    · exact .inl ⟨q, hq, g', hread, hmatch⟩
    · obtain rfl := List.mem_singleton.mp hq
      obtain rfl : g' = g := Except.ok.inj (hread.symm.trans hparse)
      exact .inr hmatch
  · intro hout
    rcases hout with ⟨q, hq, hout⟩ | hmatch
    · exact ⟨q, List.mem_append_left _ hq, hout⟩
    · exact ⟨p, by simp, g, hparse, hmatch⟩

variable {project : Project} {options : ScanOptions} {patterns : List String}

theorem files_eq_filter (ignored : IgnorePatterns) :
    (files project options ignored).1 = (files project options .empty).1.filter fun f =>
      !eitherPath ignored.isMatch options.base.toList f.path := by
  simp only [files]
  split
  · rfl
  · simp [eitherPath, IgnorePatterns.isMatch, IgnorePatterns.empty, List.filter_filter]

theorem selectedBy_filter (g : Glob) (base : List Char) (keep : FoundFile → Bool)
    (found : List FoundFile) :
    selectedBy g base (found.filter keep) = (selectedBy g base found).filter keep := by
  simp only [selectedBy, List.filter_filter, Bool.and_comm]

end Source

namespace Selection

open Source

variable (project : Project) (options : ScanOptions) (patterns : List String)

/-- What patterns select one after the other, repetitions included. -/
def inTurn : List FoundFile :=
  (readable patterns).flatMap fun (_, g) =>
    selectedBy g options.base.toList
      (Source.files project options (ignorePatterns options.ignore).1).1

theorem files_of : (of project options patterns).files =
    distinctOn (fun f => String.ofList f.path) (inTurn project options patterns) := by
  simp only [of, inTurn, List.flatMap_map]

theorem paths_of_nodup
    (h : ((inTurn project options patterns).map fun f => String.ofList f.path).Nodup) :
    (of project options patterns).paths =
      (inTurn project options patterns).map fun f => String.ofList f.path := by
  rw [paths, files_of, distinctOn_eq_self h]

/-- **A selection is the selection of everything, less what is left out.** -/
theorem files_eq_filter : (of project options patterns).files =
    (of project { options with ignore := [] } patterns).files.filter fun f =>
      !leavesOut options.ignore options.base.toList f.path := by
  have hwalk : Source.files project { options with ignore := [] } (ignorePatterns []).1 =
      Source.files project options .empty := rfl
  rw [files_of, files_of, inTurn, inTurn, hwalk, Source.files_eq_filter]
  simp only [selectedBy_filter, ← List.filter_flatMap]
  have hdistinct := distinctOn_filter (fun f : FoundFile => String.ofList f.path)
    fun path => !leavesOut options.ignore options.base.toList path.toList
  simp only [String.toList_ofList] at hdistinct
  exact hdistinct _

theorem paths_eq_filter : (of project options patterns).paths =
    (of project { options with ignore := [] } patterns).paths.filter fun path =>
      !leavesOut options.ignore options.base.toList path.toList := by
  rw [paths, files_eq_filter, paths, List.filter_map]
  simp only [Function.comp_def, String.toList_ofList]

variable {project options patterns}

/-- A file that is selected matches no pattern of a list that can be used. -/
theorem leavesOutAlone_of_mem_files {usable : IgnorePatterns}
    (h : IgnorePatterns.parse options.ignore = .ok usable) {f : FoundFile}
    (hf : f ∈ (of project options patterns).files) {p : String} (hp : p ∈ options.ignore)
    {g : Glob} (hparse : Glob.parse p = .ok g) :
    leavesOutAlone g options.base.toList f.path = false := by
  rw [files_eq_filter] at hf
  have hkept := (List.mem_filter.mp hf).2
  by_contra hmatch
  rw [Bool.not_eq_false] at hmatch
  rw [(leavesOut_eq_true_iff h).mpr ⟨p, hp, g, hparse, hmatch⟩] at hkept
  cases hkept

theorem paths_of_parse_eq_error {fault : IgnorePatterns.Fault}
    (h : IgnorePatterns.parse options.ignore = .error fault) :
    (of project options patterns).paths =
      (of project { options with ignore := [] } patterns).paths := by
  rw [paths_eq_filter]
  simp [leavesOut_of_parse_eq_error h]

/-- A list with a pattern that cannot be read does the same as its other patterns only where
these leave nothing out. -/
theorem paths_eq_readable_iff :
    (of project options patterns).paths =
        (of project { options with ignore := readablePatterns options.ignore } patterns).paths ↔
      unreadable options.ignore = [] ∨
        ∀ path ∈ (of project { options with ignore := [] } patterns).paths,
          leavesOut (readablePatterns options.ignore) options.base.toList path.toList = false := by
  by_cases hread : unreadable options.ignore = []
  · rw [readablePatterns_eq_self hread]
    simp [hread]
  · obtain ⟨fault, herror⟩ := exists_parse_eq_error hread
    have hreadable := paths_eq_filter project
      { options with ignore := readablePatterns options.ignore } patterns
    rw [paths_of_parse_eq_error herror, hreadable, eq_comm, List.filter_eq_self]
    simp [hread]

/-! ### Warnings -/

/-- The warnings about patterns that cannot be read: those of the selection, and the first of
those of files to leave out. -/
theorem filter_warnings :
    (of project options patterns).warnings.filter Warning.isUnreadablePattern =
      unreadable patterns ++ (unreadable options.ignore).take 1 := by
  have hwalk : (Source.files project options (ignorePatterns options.ignore).1).2.filter
      Warning.isUnreadablePattern = [] := by
    simp only [Source.files]
    split <;> simp [List.filter_map, Function.comp_def, Warning.isUnreadablePattern]
  simp only [of, List.filter_append, filter_unreadable, filter_ignorePatterns, hwalk,
    List.append_nil]
  simp [List.filter_map, Function.comp_def, Warning.isUnreadablePattern]

/--
**Patterns of files to leave out count together or not at all.**  Of a list that can be used
each pattern keeps out what it matches.  A list that cannot be used leaves nothing out; so with
a pattern that cannot be read the selection is the one that the other patterns make only if
these match nothing in it.  The first pattern that cannot be read is reported, and no other.
-/
theorem ignore_all_or_nothing (project : Project) (options : ScanOptions)
    (patterns : List String) :
    (∀ usable, IgnorePatterns.parse options.ignore = .ok usable →
      ∀ f ∈ (of project options patterns).files, ∀ p ∈ options.ignore,
        ∀ g, Glob.parse p = .ok g → leavesOutAlone g options.base.toList f.path = false) ∧
    (∀ fault, IgnorePatterns.parse options.ignore = .error fault →
      (of project options patterns).paths =
        (of project { options with ignore := [] } patterns).paths) ∧
    ((of project options patterns).paths =
        (of project { options with ignore := readablePatterns options.ignore } patterns).paths ↔
      unreadable options.ignore = [] ∨
        ∀ path ∈ (of project { options with ignore := [] } patterns).paths,
          leavesOut (readablePatterns options.ignore) options.base.toList path.toList = false) ∧
    (of project options patterns).warnings.filter Warning.isUnreadablePattern =
      unreadable patterns ++ (unreadable options.ignore).take 1 :=
  ⟨fun _ husable _ hf _ hp _ hparse => leavesOutAlone_of_mem_files husable hf hp hparse,
    fun _ herror => paths_of_parse_eq_error herror, paths_eq_readable_iff, filter_warnings⟩

/-- A class that is not closed, beside a pattern that keeps out a file: the file is selected. -/
theorem paths_ne_readable_unclosed :
    let project := Project.ofEntries [("a.html", .file "z-10".toUTF8)]
    let options : ScanOptions := { ignore := ["[", "a.html"] }
    readablePatterns options.ignore = ["a.html"] ∧
      (of project options ["*.html"]).paths = ["./a.html"] ∧
      (of project { options with ignore := readablePatterns options.ignore } ["*.html"]).paths =
        [] := by
  intro project options
  refine ⟨by decide +kernel, ?_, ?_⟩
  · rw [paths_of_nodup project options ["*.html"] (by decide +kernel)]
    decide +kernel
  · rw [paths_of_nodup project { options with ignore := readablePatterns options.ignore }
      ["*.html"] (by decide +kernel)]
    decide +kernel

end Selection

end AtomicCss
