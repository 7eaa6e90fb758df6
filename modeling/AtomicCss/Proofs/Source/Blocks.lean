/-
What patterns select, block by block.

Each pattern that can be read makes one block of a selection: the sources that it selects and
none before it does.  What lies in a block is picked from one walk, so its paths ascend, whatever
the pattern is, and no file is in two blocks.  Whether a pattern selects anything is another
question than whether its block has anything in it; a pattern is reported for the former only.

A pattern that is added at the end has a block behind the others and takes nothing from them.
-/
import AtomicCss.Proofs.Project.Walk
import AtomicCss.Proofs.Source.Ignored
import Mathlib.Data.List.Pairwise

namespace AtomicCss

/-- The pattern that a warning says is without files. -/
def Warning.emptyPattern? : Warning → Option String
  | .emptyGlob pattern => some pattern
  | _ => none

namespace Source

variable {project : Project} {options : ScanOptions} {globs : List (String × Glob)}
  {walked : List FoundFile} {f : FoundFile}

/-- The files of a walk that may be sources. -/
def sources (options : ScanOptions) (walked : List FoundFile) : List FoundFile :=
  walked.filter fun f =>
    !leavesOut options.ignore options.base.toList f.path && !isExcluded options f.path

/-- Whether a pattern selects a file, by either of its paths. -/
def selects (base : String) (glob : String × Glob) (f : FoundFile) : Bool :=
  eitherPath glob.2.isMatch base.toList f.path

/-- The sources of which the pattern at a place is the first that selects them. -/
def block (options : ScanOptions) (globs : List (String × Glob)) (walked : List FoundFile)
    (n : Nat) : List FoundFile :=
  (sources options walked).filter fun f =>
    globs.findIdx? (selects options.base · f) = some n

theorem files_eq_sources : (files project options (ignorePatterns options.ignore).1).1 =
    sources options (project.walked options.respectGitignore options.base.toList) := by
  simp only [files, Project.walked]
  split
  · rename_i hwalk
    rw [hwalk]
    rfl
  · rename_i hwalk
    rw [hwalk]
    rfl

theorem mem_sources {usable : IgnorePatterns}
    (h : IgnorePatterns.parse options.ignore = .ok usable) :
    f ∈ sources options walked ↔ f ∈ walked ∧
      (∀ p ∈ options.ignore, ∀ g, Glob.parse p = .ok g →
        leavesOutAlone g options.base.toList f.path = false) ∧
      isExcluded options f.path = false := by
  have hout : leavesOut options.ignore options.base.toList f.path = false ↔
      ∀ p ∈ options.ignore, ∀ g, Glob.parse p = .ok g →
        leavesOutAlone g options.base.toList f.path = false := by
    rw [← Bool.not_eq_true, leavesOut_eq_true_iff h]
    simp only [not_exists, not_and, Bool.not_eq_true]
  rw [sources, List.mem_filter, Bool.and_eq_true, Bool.not_eq_true', Bool.not_eq_true', hout]

theorem mem_block {n : Nat} : f ∈ block options globs walked n ↔
    f ∈ sources options walked ∧
      ∃ glob, globs[n]? = some glob ∧ selects options.base glob f = true ∧
        ∀ earlier ∈ globs.take n, selects options.base earlier f = false := by
  rw [block, List.mem_filter, decide_eq_true_iff, List.findIdx?_eq_some_iff_getElem]
  refine and_congr Iff.rfl ?_
  constructor
  · rintro ⟨hn, hselects, hearlier⟩
    refine ⟨globs[n], List.getElem?_eq_getElem hn, hselects, fun earlier hmem => ?_⟩
    obtain ⟨m, hm, rfl⟩ := List.mem_take_iff_getElem.mp hmem
    exact Bool.eq_false_iff.mpr (hearlier m (by omega))
  · rintro ⟨glob, hglob, hselects, hearlier⟩
    obtain ⟨hn, rfl⟩ := List.getElem?_eq_some_iff.mp hglob
    refine ⟨hn, hselects, fun m hm => Bool.eq_false_iff.mp (hearlier _ ?_)⟩
    exact List.mem_take_iff_getElem.mpr ⟨m, by omega, rfl⟩

/-- Paths that ascend are all different, however they are written. -/
theorem components_ne (h : walked.Pairwise fun f g => Path.Before f.path g.path) :
    ∀ f ∈ walked, ∀ g ∈ walked, f ≠ g → Path.components f.path ≠ Path.components g.path := by
  have hsymm : Std.Symm fun f g : FoundFile =>
      Path.components f.path ≠ Path.components g.path := ⟨fun _ _ hne => hne.symm⟩
  intro f hf g hg
  exact (h.imp Path.components_ne_of_before).forall hf hg

theorem nodup_paths (h : walked.Pairwise fun f g => Path.Before f.path g.path) :
    (walked.map fun f => String.ofList f.path).Nodup := by
  rw [List.Nodup, List.pairwise_map]
  refine h.imp fun {f g} hbefore heq => ?_
  exact Path.components_ne_of_before hbefore (congrArg Path.components (String.ofList_inj.mp heq))

end Source

namespace Selection

open Source

variable {project : Project} {options : ScanOptions} {patterns : List String}

/-- **A selection is one block after the other.** -/
theorem files_eq_blocks : (of project options patterns).files =
    (List.range (readable patterns).length).flatMap
      (block options (readable patterns)
        (project.walked options.respectGitignore options.base.toList)) := by
  have hbefore := project.pairwise_walked options.respectGitignore options.base.toList
  have hnodup : ((sources options (project.walked options.respectGitignore
      options.base.toList)).map fun f => String.ofList f.path).Nodup :=
    nodup_paths (hbefore.filter _)
  have hpicked := distinctOn_flatMap_filter hnodup ((readable patterns).map (selects options.base))
  rw [files_of, inTurn, files_eq_sources]
  simp only [List.flatMap_map, List.length_map, List.findIdx?_map, Function.comp_def] at hpicked
  exact hpicked

/-- What all patterns together report of patterns without files. -/
theorem filterMap_emptyPattern? {usable : IgnorePatterns}
    (h : IgnorePatterns.parse options.ignore = .ok usable) :
    (of project options patterns).warnings.filterMap Warning.emptyPattern? =
      ((readable patterns).filter fun glob =>
        (sources options (project.walked options.respectGitignore options.base.toList)).all
          fun f => !selects options.base glob f).map (·.1) := by
  have hunreadable : (unreadable patterns).filterMap Warning.emptyPattern? = [] := by
    rw [List.filterMap_eq_nil_iff]
    intro w hw
    obtain ⟨p, fault, -, rfl⟩ := exists_of_mem_unreadable hw
    rfl
  have hwalk : (Source.files project options (ignorePatterns options.ignore).1).2.filterMap
      Warning.emptyPattern? = [] := by
    simp only [Source.files]
    split <;> simp [Warning.emptyPattern?]
  have hempty : ∀ glob : String × Glob,
      (selectedBy glob.2 options.base.toList
        (Source.files project options (ignorePatterns options.ignore).1).1).isEmpty =
        (sources options (project.walked options.respectGitignore options.base.toList)).all
          fun f => !selects options.base glob f := by
    intro glob
    rw [files_eq_sources, Bool.eq_iff_iff, List.isEmpty_iff, selectedBy, List.filter_eq_nil_iff,
      List.all_eq_true]
    simp [selects]
  have hignored : (ignorePatterns options.ignore).2 = [] := by rw [ignorePatterns_of_parse h]
  simp only [of, List.filterMap_append, hunreadable, hwalk, hignored, List.filterMap_nil,
    List.nil_append, List.filter_map, List.map_map, List.filterMap_map, Function.comp_def, hempty]
  exact congrFun List.filterMap_eq_map _

/-- What a selection is, by what a walk finds. -/
structure Expands (options : ScanOptions) (patterns : List String) (walked : List FoundFile)
    (s : Selection) : Prop where
  /-- There is one block for each pattern that can be read. -/
  files : s.files =
    (List.range (readable patterns).length).flatMap (block options (readable patterns) walked)
  /-- In a block are the sources that its pattern selects and none before it does. -/
  mem_block : ∀ n f, f ∈ block options (readable patterns) walked n ↔
    f ∈ walked ∧
      (∀ p ∈ options.ignore, ∀ g, Glob.parse p = .ok g →
        leavesOutAlone g options.base.toList f.path = false) ∧
      isExcluded options f.path = false ∧
      ∃ glob, (readable patterns)[n]? = some glob ∧ selects options.base glob f = true ∧
        ∀ earlier ∈ (readable patterns).take n, selects options.base earlier f = false
  /-- The paths of a block ascend. -/
  ascending : ∀ n, (block options (readable patterns) walked n).Pairwise fun f g =>
    Path.Before f.path g.path
  /-- No path comes twice, however it is written. -/
  distinct : s.files.Pairwise fun f g => Path.components f.path ≠ Path.components g.path
  /-- A pattern is reported if it selects no source, whichever block the sources are in. -/
  empty : s.warnings.filterMap Warning.emptyPattern? =
    ((readable patterns).filter fun glob =>
      (sources options walked).all fun f => !selects options.base glob f).map (·.1)
  /-- Patterns that cannot be read are reported. -/
  unreadable : s.warnings.filter Warning.isUnreadablePattern = unreadable patterns

theorem files_isPrefix (others : List String) :
    (of project options patterns).files <+: (of project options (patterns ++ others)).files := by
  rw [files_of, files_of, inTurn, inTurn, readable_append, List.flatMap_append, distinctOn_append]
  exact List.prefix_append ..

theorem expands_of {usable : IgnorePatterns}
    (h : IgnorePatterns.parse options.ignore = .ok usable) :
    Expands options patterns (project.walked options.respectGitignore options.base.toList)
      (of project options patterns) where
  files := files_eq_blocks
  mem_block n f := by
    rw [Source.mem_block, mem_sources h, and_assoc, and_assoc]
  ascending n :=
    ((project.pairwise_walked options.respectGitignore options.base.toList).filter _).filter _
  distinct := by
    have hnodup := nodup_distinctOn (fun f : FoundFile => String.ofList f.path)
      (inTurn project options patterns)
    rw [← files_of, List.Nodup, List.pairwise_map] at hnodup
    have hwalked : ∀ f ∈ (of project options patterns).files,
        f ∈ project.walked options.respectGitignore options.base.toList := by
      intro f hf
      rw [files_eq_blocks] at hf
      obtain ⟨n, -, hf⟩ := List.mem_flatMap.mp hf
      exact ((mem_sources h).mp (Source.mem_block.mp hf).1).1
    refine hnodup.imp_of_mem fun {f g} hf hg hne => ?_
    refine components_ne (project.pairwise_walked _ _) f (hwalked f hf) g (hwalked g hg) ?_
    rintro rfl
    exact hne rfl
  empty := filterMap_emptyPattern? h
  unreadable := by
    rw [filter_warnings, (parse_eq_ok.mp h).1, List.take_nil, List.append_nil]

/--
**A selection has every file once, in a fixed order.**  There is one way to walk through a
project, directory by directory with the names in order, and what it finds is all that a
selection depends on.  The files are those of the first pattern, then those of the second that
are not among them, and so on, each time with ascending paths.  A pattern is reported if it
cannot be read or matches no source.  What further patterns select comes behind the rest.
-/
theorem of_expands (project : Project) (options : ScanOptions) (patterns : List String)
    {usable : IgnorePatterns} (h : IgnorePatterns.parse options.ignore = .ok usable) :
    ∃ walked,
      (∀ files, project.WalksFrom options.respectGitignore options.base.toList files ↔
        files = walked) ∧
      Expands options patterns walked (of project options patterns) ∧
      ∀ others,
        (of project options patterns).files <+: (of project options (patterns ++ others)).files :=
  ⟨project.walked options.respectGitignore options.base.toList,
    fun _ => Project.walksFrom_iff, expands_of h, files_isPrefix⟩

/-- A directory whose name begins that of a file, a file that is left out, and patterns of all
kinds: one cannot be read, one finds all its files taken, and one has none. -/
theorem of_expands_nested :
    let project := Project.ofEntries [("a.html", .file "z-10".toUTF8),
      ("a/b.html", .file "z-20".toUTF8), ("skip/c.html", .file "z-30".toUTF8)]
    let options : ScanOptions := { ignore := ["skip/**"] }
    let patterns := ["[", "**/*.html", "a/*.html", "*.vue"]
    ∃ usable walked, IgnorePatterns.parse options.ignore = .ok usable ∧
      project.WalksFrom options.respectGitignore options.base.toList walked ∧
      Expands options patterns walked (of project options patterns) ∧
      (of project options patterns).paths = ["./a/b.html", "./a.html"] ∧
      (of project options patterns).warnings.filterMap Warning.emptyPattern? = ["*.vue"] := by
  intro project options patterns
  have husable : IgnorePatterns.parse options.ignore =
      .ok ⟨(readable options.ignore).map (·.2)⟩ :=
    parse_eq_ok.mpr ⟨by decide +kernel, by decide +kernel, rfl⟩
  obtain ⟨walked, hwalk, hexpands, -⟩ := of_expands project options patterns husable
  refine ⟨_, walked, husable, (hwalk walked).mpr rfl, hexpands, ?_, by decide +kernel⟩
  rw [paths, files_of, distinctOn_eq_firstOccurrences]
  decide +kernel

end Selection

end AtomicCss
