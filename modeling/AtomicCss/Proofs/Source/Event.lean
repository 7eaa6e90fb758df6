/-
What a watch ignores, and what a scan leaves out.

Both compare two paths of a file with the same patterns: its path from the current directory,
and another one.  For a scan of the current directory that has the dot in front; for a watch,
the directory as it is written from the root.  So the two agree on files whose path from the
directory is matched, and on patterns that do not see what a path is written from.  A pattern
that begins with the dot, or that two stars let match the directory itself, is one that only one
of them heeds.
-/
import AtomicCss.Proofs.Glob.Anchor
import AtomicCss.Proofs.Source.Read

namespace AtomicCss

open AtomicCss.Path

namespace IgnorePatterns

theorem exists_of_mem_ofReadable {patterns : List String} {g : Glob}
    (h : g ∈ (ofReadable patterns).globs) : ∃ p ∈ patterns, Glob.parse p = .ok g := by
  unfold ofReadable ofGlobs at h
  split at h
  · cases h
  · obtain ⟨p, hp, hread⟩ := List.mem_filterMap.mp h
    refine ⟨p, hp, ?_⟩
    cases hparse : Glob.parse p with
    | error fault =>
        rw [hparse] at hread
        cases hread
    | ok g' =>
        rw [hparse] at hread
        cases hread
        rfl

end IgnorePatterns

/-- The patterns of this kind let their stars match slashes. -/
theorem Glob.separated_of_parse {p : String} {g : Glob} (h : Glob.parse p = .ok g) :
    g.separated = false := by
  obtain ⟨tokens, -, h⟩ := bind_eq_ok.mp h
  rw [← pure_eq_ok.mp h]

namespace Source

variable {ignore : List String}

theorem map_readable (patterns : List String) :
    (readable patterns).map (·.2) = patterns.filterMap fun p => (Glob.parse p).toOption := by
  rw [readable, List.map_filterMap]
  refine List.filterMap_congr fun p _ => ?_
  cases Glob.parse p <;> rfl

/-- Of patterns that can all be read a scan and a watch use the same. -/
theorem ignorePatterns_eq_ofReadable (h : unreadable ignore = []) :
    (ignorePatterns ignore).1 = IgnorePatterns.ofReadable ignore := by
  rw [ignorePatterns, parse_of_readable h, map_readable, IgnorePatterns.ofReadable]
  cases hglobs : IgnorePatterns.ofGlobs (ignore.filterMap fun p => (Glob.parse p).toOption) with
  | ok usable => rfl
  | error fault =>
      unfold IgnorePatterns.ofGlobs at hglobs
      split at hglobs
      · cases hglobs
        rfl
      · cases hglobs

theorem ignoresEvent_singleton (base path : String) :
    ignoresEvent ignore base [path] =
      eitherPath (IgnorePatterns.ofReadable ignore).isMatch base.toList path.toList := by
  cases ignore with
  | nil => rfl
  | cons p ignore => simp [ignoresEvent]

end Source

namespace Selection

open Source

variable {project : Project} {options : ScanOptions} {patterns : List String} {f : FoundFile}

/-- What is missing from a selection is what is left out. -/
theorem notMem_files_iff (hf : f ∈ (of project { options with ignore := [] } patterns).files) :
    f ∉ (of project options patterns).files ↔
      leavesOut options.ignore options.base.toList f.path = true := by
  rw [files_eq_filter, List.mem_filter]
  simp [hf]

/--
**When a watch ignores what a scan leaves out.**  Take a file that the patterns select in the
current directory, and its path from there.  It is left out if that path is matched, or the one
with the dot in front; its change is ignored if that path is matched, or the one with the
directory in front.  The two are the same if no pattern sees what a path is written from.
-/
theorem ignoresEvent_iff_leftOut (project : Project) (options : ScanOptions)
    (patterns : List String) (dir : String) (hbase : options.base = ".")
    (hread : unreadable options.ignore = []) (hdir : dir.toList.head? = some '/') {f : FoundFile}
    (hf : f ∈ (of project { options with ignore := [] } patterns).files) :
    let matched := (IgnorePatterns.ofReadable options.ignore).isMatch
    let path := relativeTo ['.'] f.path
    let leftOut := f ∉ (of project options patterns).files
    let event := ignoresEvent options.ignore dir [String.ofList (join dir.toList path)]
    (leftOut ↔ matched path = true ∨ matched (join ['.'] path) = true) ∧
      (event = true ↔ matched path = true ∨ matched (join dir.toList path) = true) ∧
      ((∀ p ∈ options.ignore, ∀ g, Glob.parse p = .ok g → g.isUnanchored = true) →
        (leftOut ↔ event = true)) := by
  intro matched path leftOut event
  have hsame : ({ options with ignore := [] } : ScanOptions).base = "." := hbase
  obtain ⟨loc, hfinds⟩ := exists_findsAt hsame hf
  have hleft : leftOut ↔ matched path = true ∨ matched (join ['.'] path) = true := by
    show f ∉ _ ↔ _
    rw [notMem_files_iff hf, leavesOut, ignorePatterns_eq_ofReadable hread, eitherPath,
      Bool.or_eq_true, hbase, ← hfinds.path_eq_join_relativeTo]
    rfl
  have hevent : event = true ↔ matched path = true ∨ matched (join dir.toList path) = true := by
    have hrelative : relativeTo dir.toList (join dir.toList path) = path := by
      show relativeTo _ (join _ (relativeTo ['.'] f.path)) = relativeTo ['.'] f.path
      rw [hfinds.relativeTo_eq, relativeTo_join hdir hfinds.isStep]
    show ignoresEvent _ _ _ = true ↔ _
    rw [ignoresEvent_singleton, eitherPath, Bool.or_eq_true, String.toList_ofList, hrelative]
  refine ⟨hleft, hevent, fun hunanchored => ?_⟩
  have hglobs : ∀ g ∈ (IgnorePatterns.ofReadable options.ignore).globs,
      g.separated = false ∧ g.isUnanchored = true := by
    intro g hg
    obtain ⟨p, hp, hparse⟩ := IgnorePatterns.exists_of_mem_ofReadable hg
    exact ⟨Glob.separated_of_parse hparse, hunanchored p hp g hparse⟩
  have hne : path ≠ [] := hfinds.relativeTo_ne_nil
  obtain ⟨front, hjoin, hfront⟩ := exists_join_of_root hdir path
  have hdot : matched (join ['.'] path) = true → matched path = true :=
    IgnorePatterns.isMatch_of_isUnanchored hglobs hne rfl
  have hroot : matched (join dir.toList path) = true → matched path = true := by
    rw [hjoin]
    exact IgnorePatterns.isMatch_of_isUnanchored hglobs hne (by rw [hfront]; rfl)
  rw [hleft, hevent, or_iff_left_of_imp hdot, or_iff_left_of_imp hroot]

/-- A file in a directory that a pattern names, among patterns of both kinds. -/
theorem ignoresEvent_iff_leftOut_nested :
    let project := Project.ofEntries [("dist/app.html", .file "z-10".toUTF8)]
    let options : ScanOptions := { ignore := ["*.min.html", "\x7bdist,build\x7d/**"] }
    ∃ f ∈ (of project { options with ignore := [] } ["**/*.html"]).files,
      f.path = "./dist/app.html".toList ∧ f ∉ (of project options ["**/*.html"]).files ∧
      ignoresEvent options.ignore "/w" ["/w/dist/app.html"] = true := by
  intro project options
  have hselected : "./dist/app.html" ∈
      (of project { options with ignore := [] } ["**/*.html"]).paths := by
    rw [paths_of_nodup _ _ _ (by decide +kernel)]
    decide +kernel
  obtain ⟨f, hf, hpath⟩ := List.mem_map.mp hselected
  have hpath : f.path = "./dist/app.html".toList := by rw [← hpath, String.toList_ofList]
  have hunanchored : ∀ p ∈ options.ignore, ∀ g, Glob.parse p = .ok g → g.isUnanchored = true := by
    have hall : ∀ p ∈ options.ignore, (Glob.parse p).toOption.all Glob.isUnanchored = true := by
      decide +kernel
    intro p hp g hparse
    simpa [hparse, Except.toOption] using hall p hp
  have hagree := (ignoresEvent_iff_leftOut project options ["**/*.html"] "/w" rfl
    (by decide +kernel) (by decide +kernel) hf).2.2 hunanchored
  refine ⟨f, hf, hpath, hagree.mpr ?_, by decide +kernel⟩
  rw [hpath]
  decide +kernel

/-- A pattern that is written with the dot leaves out a file whose changes are not ignored. -/
theorem not_ignoresEvent_of_leftOut_dot :
    let project := Project.ofEntries [("dist/app.html", .file "z-10".toUTF8)]
    let options : ScanOptions := { ignore := ["./dist/app.html"] }
    unreadable options.ignore = [] ∧
      "./dist/app.html" ∈ (of project { options with ignore := [] } ["**/*.html"]).paths ∧
      "./dist/app.html" ∉ (of project options ["**/*.html"]).paths ∧
      ignoresEvent options.ignore "/w" ["/w/dist/app.html"] = false := by
  intro project options
  refine ⟨by decide +kernel, ?_, ?_, by decide +kernel⟩
  · rw [paths_of_nodup _ _ _ (by decide +kernel)]
    decide +kernel
  · rw [paths_of_nodup _ _ _ (by decide +kernel)]
    decide +kernel

end Selection

end AtomicCss
