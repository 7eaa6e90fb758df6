/-
What a watch sees of what a scan reads.

A scan walks from the current directory, so the paths that it compares with a pattern are
not paths from the root, with or without the dot in front.  What a pattern selects there
lies in the directory of the pattern, and that directory, or one with the same components,
is watched.

This needs a pattern that has nothing escaped before its first wildcard.  The directory of a
pattern takes the escape for a separator, and what it escapes for a wildcard, so it can be
one that the selected files do not lie in.
-/
import AtomicCss.Proofs.Glob.Root
import AtomicCss.Proofs.Source.Ignored

namespace AtomicCss

open AtomicCss.Path

/-! ### The files of a scan -/

theorem IgnoreTable.rootStep_pathFrom {start : List Char} (h : start ≠ []) (names : List String) :
    rootStep (pathFrom start names) = rootStep start := by
  unfold pathFrom
  split
  · rfl
  · obtain ⟨c, cs, rfl⟩ := List.exists_cons_of_ne_nil h
    unfold join
    split <;> rfl

theorem Project.rootStep_of_mem_walk {project : Project} {gitignore : Bool} {start : List Char}
    {found : Found} (hstart : start ≠ []) (h : project.walk gitignore start = .ok found)
    {f : FoundFile} (hf : f ∈ found.files) : rootStep f.path = rootStep start := by
  unfold walk at h
  obtain ⟨place, -, h⟩ := bind_eq_ok.mp h
  cases place with
  | outside =>
    cases h
    cases hf
  | inside base =>
    simp only at h
    split at h
    · cases h
      obtain rfl := List.mem_singleton.mp hf
      rfl
    · cases h
      obtain ⟨below, -, rfl⟩ := List.mem_map.mp hf
      exact IgnoreTable.rootStep_pathFrom hstart below.1

namespace Source

theorem rootStep_of_mem_files {project : Project} {options : ScanOptions} {ignored : IgnorePatterns}
    (hbase : options.base = ".") {f : FoundFile} (hf : f ∈ (files project options ignored).1) :
    rootStep f.path = [] := by
  unfold files at hf
  rw [hbase] at hf
  simp only at hf
  split at hf
  · cases hf
  · rename_i found hwalk
    exact Project.rootStep_of_mem_walk (by simp) hwalk (List.mem_of_mem_filter hf)

/-- The paths of the files that a pattern selects by itself, none if it cannot be read. -/
def selectedPaths (project : Project) (options : ScanOptions) (pattern : String) :
    List (List Char) :=
  match Glob.parse pattern with
  | .error _ => []
  | .ok g =>
    (selectedBy g options.base.toList
      (files project options (ignorePatterns options.ignore).1).1).map (·.path)

variable {project : Project} {options : ScanOptions}

theorem mem_selectedPaths {pattern : String} {path : List Char} :
    path ∈ selectedPaths project options pattern ↔
      ∃ g, Glob.parse pattern = .ok g ∧
        ∃ f ∈ selectedBy g options.base.toList
          (files project options (ignorePatterns options.ignore).1).1, f.path = path := by
  unfold selectedPaths
  cases Glob.parse pattern with
  | error fault => simp
  | ok g => simp

theorem mem_paths_iff {patterns : List String} {path : List Char} :
    String.ofList path ∈ (Selection.of project options patterns).paths ↔
      ∃ p ∈ patterns, path ∈ selectedPaths project options p := by
  unfold Selection.paths Selection.of
  rw [mem_keys_distinctOn]
  simp only [List.mem_map, List.mem_flatMap, mem_selectedPaths]
  constructor
  · intro h
    obtain ⟨f, ⟨_, ⟨⟨p, g⟩, hread, rfl⟩, hf⟩, hpath⟩ := h
    obtain ⟨hp, hparse⟩ := mem_readable.mp hread
    exact ⟨p, hp, g, hparse, f, hf, String.ofList_injective hpath⟩
  · intro h
    obtain ⟨p, hp, g, hparse, f, hf, rfl⟩ := h
    exact ⟨f, ⟨_, ⟨(p, g), mem_readable.mpr ⟨hp, hparse⟩, rfl⟩, hf⟩, rfl⟩

/-- It does not matter by which of its paths a pattern selects a file. -/
theorem liesIn_root_of_mem_selectedPaths {pattern : String} {path : List Char}
    (hbase : options.base = ".") (hescape : '\\' ∉ Glob.plainPart pattern.toList)
    (h : path ∈ selectedPaths project options pattern) :
    LiesIn (Glob.root pattern.toList) path := by
  obtain ⟨g, hparse, f, hf, rfl⟩ := mem_selectedPaths.mp h
  obtain ⟨hfile, hmatch⟩ := List.mem_filter.mp hf
  have hroot := rootStep_of_mem_files hbase hfile
  rw [hbase] at hmatch
  rcases Bool.or_eq_true_iff.mp hmatch with hrelative | hwhole
  · obtain ⟨hrelativeRoot, hbody⟩ := relativeTo_current hroot
    have hlies := Glob.liesIn_root hparse hescape hrelativeRoot hrelative
    rw [LiesIn, trail_eq (relativeTo _ _), hrelativeRoot, hbody] at hlies
    rwa [LiesIn, trail_eq f.path, hroot]
  · exact Glob.liesIn_root hparse hescape hroot hwhole

/--
**The watched directories hold all that a scan of the current directory selects.**  A file is
selected exactly if one of the patterns selects it; and if a pattern has nothing escaped before
its first wildcard, the files that it selects lie in its directory, which is watched.
-/
theorem selectedPaths_liesIn_watchRoots (project : Project) (options : ScanOptions)
    (patterns : List String) (hbase : options.base = ".") :
    (∀ path, String.ofList path ∈ (Selection.of project options patterns).paths ↔
      ∃ p ∈ patterns, path ∈ selectedPaths project options p) ∧
    ∀ p ∈ patterns, '\\' ∉ Glob.plainPart p.toList →
      ∀ path ∈ selectedPaths project options p,
        LiesIn (Glob.root p.toList) path ∧
          ∃ r ∈ Glob.watchRoots (patterns.map String.toList),
            components r = components (Glob.watchRoot p.toList) ∧ LiesIn r path := by
  refine ⟨fun path => mem_paths_iff, fun p hp hescape path hpath => ?_⟩
  have hlies := liesIn_root_of_mem_selectedPaths hbase hescape hpath
  obtain ⟨r, hr, heq⟩ := Glob.exists_mem_watchRoots (List.mem_map_of_mem hp)
  refine ⟨hlies, r, hr, heq, ?_⟩
  have hwatched := Glob.liesIn_watchRoot hlies
  rwa [LiesIn, trail, ← heq] at hwatched

/-- Two stars, a group and a class behind a directory that is written with dots. -/
theorem selectedPaths_liesIn_watchRoots_nested :
    let project := Project.ofEntries [("src/a/b.html", .file "z-10".toUTF8)]
    let pattern := "./src/**/*.{html,[jt]s}"
    let path := "./src/a/b.html".toList
    ({} : ScanOptions).base = "." ∧ '\\' ∉ Glob.plainPart pattern.toList ∧
      path ∈ selectedPaths project {} pattern ∧
      ∃ r ∈ Glob.watchRoots ["README".toList, pattern.toList], LiesIn r path := by
  intro project pattern path
  have hescape : '\\' ∉ Glob.plainPart pattern.toList := by decide +kernel
  have hpath : path ∈ selectedPaths project {} pattern := by decide +kernel
  obtain ⟨-, hall⟩ := selectedPaths_liesIn_watchRoots project {} ["README", pattern] rfl
  obtain ⟨-, r, hr, -, hlies⟩ := hall pattern (by simp) hescape path hpath
  exact ⟨rfl, hescape, hpath, r, hr, hlies⟩

/-- A directory whose name has brackets, which have to be escaped: the watched directory is
none that the selected file lies in. -/
theorem not_liesIn_watchRoots_escaped :
    let project := Project.ofEntries [("pages/user-[id]/a.html", .file "z-10".toUTF8)]
    let pattern := "pages/user-\\[id\\]/*.html"
    let path := "./pages/user-[id]/a.html".toList
    path ∈ selectedPaths project {} pattern ∧ ¬ LiesIn (Glob.root pattern.toList) path ∧
      ∀ r ∈ Glob.watchRoots [pattern.toList], ¬ LiesIn r path := by
  decide +kernel

end Source

end AtomicCss
