/-
The output file of a build.

The path of the output file is put behind the patterns of files to leave out, as a pattern
itself.  Where that pattern can be used with the others, it leaves out what it matches; a path
without syntax matches itself only, in the spelling that a scan uses for files.  So a build
does not read its output file again if the path is plain and has no syntax.  A path with syntax
matches other files, or none; one that cannot be read makes the whole list useless.
-/
import AtomicCss.Command.Run
import AtomicCss.Project.Edit
import AtomicCss.Proofs.Engine.Build
import AtomicCss.Proofs.Glob.Literal
import AtomicCss.Proofs.Source.Read

namespace AtomicCss

open AtomicCss.Path

/-! ### One more pattern -/

namespace Source

variable {ignore : List String} {usable : IgnorePatterns} {out : String}

/-- A pattern without syntax can be added to every list. -/
theorem exists_parse_append_literal (h : IgnorePatterns.parse ignore = .ok usable)
    (hout : Glob.isLiteral out.toList = true) :
    ∃ both, IgnorePatterns.parse (ignore ++ [out]) = .ok both := by
  obtain ⟨hread, hdepth, -⟩ := parse_eq_ok.mp h
  have hparse := Glob.parse_of_isLiteral hout
  refine ⟨_, parse_eq_ok.mpr ⟨?_, Glob.depthFault?_eq_none_iff.mpr ?_, rfl⟩⟩
  · rw [unreadable_append, hread, unreadable_cons_of_ok hparse]
    rfl
  · intro g hg hexpression
    rw [readable_append, readable_cons_of_ok hparse, List.map_append, List.mem_append] at hg
    rcases hg with hg | hg
    · exact Glob.depthFault?_eq_none_iff.mp hdepth g hg hexpression
    · obtain rfl := List.mem_singleton.mp hg
      exact Glob.isTooDeep_ofLiterals _

/-- From the current directory a pattern without syntax leaves out the file whose location it
spells. -/
theorem leavesOutAlone_ofLiterals {project : Project} {loc : Location} {f : FoundFile}
    (h : project.FindsAt loc f) {cs : List Char} :
    leavesOutAlone (.ofLiterals cs) ['.'] f.path = true ↔ Spells (loc.map String.toList) cs := by
  rw [leavesOutAlone, eitherPath, Bool.or_eq_true, IgnorePatterns.isMatch_ofLiterals,
    IgnorePatterns.isMatch_ofLiterals, h.spells_iff]
  simp only [eq_comm]

end Source

/-! ### Builds -/

namespace Command

open Source

variable (project : Project) (flags : Flags)

/-- The files that a command reads. -/
def scanned : Except CommandError (List FoundFile) :=
  (engine project flags).map fun e => (e.selection project).read

/-- The ruleset of a command. -/
def ruleset : Except CommandError Ruleset := do
  let config ← loadConfig project flags
  (Ruleset.ofConfig config).mapError .config

/-- The engine of a command, made of its ruleset. -/
def engineOf (r : Ruleset) : Engine where
  options := {
    scan := { ignore := ignored flags }
    style := if flags.minify then .minified else .pretty }
  ruleset := r
  memo := { enabled := true }

theorem engine_eq : engine project flags = (ruleset project flags).map (engineOf flags) := by
  unfold engine ruleset Engine.ofConfig
  cases loadConfig project flags with
  | error error => rfl
  | ok config =>
      show (Ruleset.ofConfig config >>= _).mapError _ =
        ((Ruleset.ofConfig config).mapError _).map _
      cases Ruleset.ofConfig config <;> rfl

theorem scanned_eq : scanned project flags =
    (ruleset project flags).map fun r =>
      (Selection.of project { ignore := ignored flags } r.config.content).read := by
  rw [scanned, engine_eq]
  cases ruleset project flags <;> rfl

variable {project flags} {out : String} {usable : IgnorePatterns}

theorem exists_findsAt_of_mem_scanned {files : List FoundFile}
    (h : scanned project flags = .ok files) {f : FoundFile} (hf : f ∈ files) :
    isPathLength f.path = true ∧ ∃ loc, project.FindsAt loc f := by
  rw [scanned_eq] at h
  obtain ⟨r, -, rfl⟩ := map_eq_ok.mp h
  obtain ⟨hfile, hreadable⟩ := List.mem_filter.mp hf
  exact ⟨FoundFile.isPathLength_of_isReadable hreadable, Selection.exists_findsAt rfl hfile⟩

/-- Commands with one ruleset differ as their selections do. -/
theorem scanned_of_read {others : Flags} {change : List FoundFile → List FoundFile}
    (hruleset : ruleset project flags = ruleset project others)
    (hread : ∀ content, (Selection.of project { ignore := ignored flags } content).read =
      change (Selection.of project { ignore := ignored others } content).read) :
    scanned project flags = (scanned project others).map change := by
  rw [scanned_eq, scanned_eq, hruleset]
  simp only [hread]
  cases ruleset project others <;> rfl

/-- An output file whose path can be used as a pattern is left out by that pattern. -/
theorem scanned_of_parse {g : Glob} {both : IgnorePatterns} (hparse : Glob.parse out = .ok g)
    (hboth : IgnorePatterns.parse (flags.ignore ++ [out]) = .ok both) :
    scanned project { flags with out := some out } =
      (scanned project { flags with out := none }).map fun files =>
        files.filter fun f => !leavesOutAlone g ['.'] f.path := by
  have hnone : ignored { flags with out := none } = flags.ignore := List.append_nil _
  have hsome : ignored { flags with out := some out } = flags.ignore ++ [out] := rfl
  refine scanned_of_read rfl fun content => ?_
  rw [hnone, hsome, @Selection.read_eq_filter project { ignore := flags.ignore ++ [out] },
    @Selection.read_eq_filter project { ignore := flags.ignore }, List.filter_filter]
  simp only [leavesOut_append hboth hparse, Bool.not_or, Bool.and_comm]
  rfl

/-- An output file whose path makes the patterns useless lets all files in. -/
theorem scanned_of_parse_eq_error {fault : IgnorePatterns.Fault}
    (h : IgnorePatterns.parse (flags.ignore ++ [out]) = .error fault) :
    scanned project { flags with out := some out } =
      scanned project { flags with out := none, ignore := [] } := by
  have hnone : ignored { flags with out := none, ignore := [] } = [] := rfl
  have hsome : ignored { flags with out := some out } = flags.ignore ++ [out] := rfl
  have hscanned : scanned project { flags with out := some out } =
      (scanned project { flags with out := none, ignore := [] }).map id := by
    refine scanned_of_read rfl fun content => ?_
    rw [hnone, hsome, Selection.read_eq_filter]
    simp [leavesOut_of_parse_eq_error h]
  rwa [Except.map_id] at hscanned

/-- A path without syntax leaves out the files whose location it spells. -/
theorem scanned_of_isLiteral (husable : IgnorePatterns.parse flags.ignore = .ok usable)
    (hout : Glob.isLiteral out.toList = true) :
    scanned project { flags with out := some out } =
      (scanned project { flags with out := none }).map fun files =>
        files.filter fun f => !leavesOutAlone (.ofLiterals out.toList) ['.'] f.path := by
  obtain ⟨both, hboth⟩ := exists_parse_append_literal husable hout
  exact scanned_of_parse (Glob.parse_of_isLiteral hout) hboth

theorem leadsTo_of_leavesOutAlone {files : List FoundFile}
    (h : scanned project { flags with out := none } = .ok files) {f : FoundFile} (hf : f ∈ files)
    {cs : List Char} (hout : leavesOutAlone (.ofLiterals cs) ['.'] f.path = true) :
    project.leadsTo cs f = true := by
  obtain ⟨hlength, loc, hfinds⟩ := exists_findsAt_of_mem_scanned h hf
  exact hfinds.leadsTo_of_spells hlength ((leavesOutAlone_ofLiterals hfinds).mp hout)

/-- The file that a plain path leads to is left out by it. -/
theorem leavesOutAlone_of_leadsTo {files : List FoundFile}
    (h : scanned project { flags with out := none } = .ok files) {f : FoundFile} (hf : f ∈ files)
    {way : List (List Char)} (hne : way ≠ []) (hway : ∀ step ∈ way, IsStep step) {cs : List Char}
    (hspells : Spells way cs) (hleads : project.leadsTo cs f = true) :
    leavesOutAlone (.ofLiterals cs) ['.'] f.path = true := by
  obtain ⟨-, loc, hfinds⟩ := exists_findsAt_of_mem_scanned h hf
  have hpath := Project.path_eq_of_leadsTo hway hne hspells hleads
  rw [leavesOutAlone_ofLiterals hfinds, hfinds.spells_iff, hpath, relativeTo_current_join hway]
  exact hspells

/--
**What a build with an output file does not read.**  If the path of the output file can be used
as a pattern, with the others, the files that this pattern matches are missing; if not, nothing
is left out, whatever the others match.  A path without syntax can be used with all patterns that
can be used, and then no file is missing but the one it leads to.  That file is missing if the
path is plain.
-/
theorem scanned_output (project : Project) (flags : Flags) (out : String) :
    (∀ g both, Glob.parse out = .ok g →
      IgnorePatterns.parse (flags.ignore ++ [out]) = .ok both →
      scanned project { flags with out := some out } =
        (scanned project { flags with out := none }).map fun files =>
          files.filter fun f => !leavesOutAlone g ['.'] f.path) ∧
    (∀ fault, IgnorePatterns.parse (flags.ignore ++ [out]) = .error fault →
      scanned project { flags with out := some out } =
        scanned project { flags with out := none, ignore := [] }) ∧
    ∀ usable, IgnorePatterns.parse flags.ignore = .ok usable → Glob.isLiteral out.toList = true →
      (∀ files kept, scanned project { flags with out := none } = .ok files →
        scanned project { flags with out := some out } = .ok kept →
        ∀ f ∈ files, f ∉ kept → project.leadsTo out.toList f = true) ∧
      ∀ way, way ≠ [] → (∀ step ∈ way, IsStep step) → Spells way out.toList →
        scanned project { flags with out := some out } =
          (scanned project { flags with out := none }).map fun files =>
            files.filter fun f => !project.leadsTo out.toList f := by
  refine ⟨fun g both => scanned_of_parse, fun fault => scanned_of_parse_eq_error,
    fun usable husable hout => ⟨?_, ?_⟩⟩
  · intro files kept hfiles hkept f hf hmissing
    rw [scanned_of_isLiteral husable hout, hfiles] at hkept
    cases hkept
    refine leadsTo_of_leavesOutAlone hfiles hf ?_
    by_contra hmatch
    exact hmissing (List.mem_filter.mpr ⟨hf, by simpa using hmatch⟩)
  · intro way hne hway hspells
    rw [scanned_of_isLiteral husable hout]
    cases hfiles : scanned project { flags with out := none } with
    | error error => rfl
    | ok files =>
        refine congrArg Except.ok (List.filter_congr fun f hf => congrArg (!·) ?_)
        rw [Bool.eq_iff_iff]
        exact ⟨leadsTo_of_leavesOutAlone hfiles hf,
          leavesOutAlone_of_leadsTo hfiles hf hne hway hspells⟩

/-! ### Two builds -/

theorem ruleset_of_inputs (hconfig : configPath? project flags = none)
    (hinputs : flags.inputs.all Text.isBlankText = false) :
    ruleset project flags = .ok (.plain flags.inputs) := by
  have hnonempty : flags.inputs.isEmpty = false := by
    cases hall : flags.inputs with
    | nil => rw [hall] at hinputs; cases hinputs
    | cons p inputs => rfl
  have hplain := Ruleset.ofConfig_plain hinputs
  have hvalid : ({ content := flags.inputs } : Config).validate = .ok () :=
    (Ruleset.ofConfig_eq_ok.mp hplain).1
  simp only [ruleset, loadConfig, hconfig, hnonempty, hvalid]
  show (Ruleset.ofConfig { content := flags.inputs }).mapError _ = _
  rw [hplain]
  rfl

/-- If no file is selected twice, the files that are read can be listed without sorting out
repetitions. -/
theorem scanned_of_nodup (hconfig : configPath? project flags = none)
    (hinputs : flags.inputs.all Text.isBlankText = false)
    (hnodup : ((Selection.inTurn project { ignore := ignored flags } flags.inputs).map fun f =>
      String.ofList f.path).Nodup) :
    scanned project flags =
      .ok ((Selection.inTurn project { ignore := ignored flags } flags.inputs).filter
        FoundFile.isReadable) := by
  rw [scanned_eq, ruleset_of_inputs hconfig hinputs]
  show Except.ok (Selection.of project { ignore := ignored flags } flags.inputs).read = _
  rw [Selection.read, Selection.files_of, distinctOn_eq_self hnodup]

/-- An output file in a directory, beside a file of the same name elsewhere. -/
theorem scanned_output_nested :
    let project := Project.ofEntries
      [("app.html", .file "z-10".toUTF8), ("dist/app.html", .file "z-20".toUTF8)]
    let flags : Flags := { inputs := ["**/*.html"], ignore := ["old.html"] }
    let out := "./dist/app.html"
    ∃ usable files kept, IgnorePatterns.parse flags.ignore = .ok usable ∧
      scanned project flags = .ok files ∧
      files.map (·.path) = ["./app.html".toList, "./dist/app.html".toList] ∧
      scanned project { flags with out := some out } = .ok kept ∧
      kept.map (·.path) = ["./app.html".toList] := by
  intro project flags out
  obtain ⟨usable, husable⟩ : ∃ usable, IgnorePatterns.parse flags.ignore = .ok usable :=
    exists_parse_append_literal (rfl : IgnorePatterns.parse [] = .ok ⟨[]⟩) (by decide +kernel)
  have hfiles : scanned project flags = _ :=
    scanned_of_nodup (by decide +kernel) (by decide +kernel) (by decide +kernel)
  have hplain := ((scanned_output project flags out).2.2 usable husable (by decide +kernel)).2
    ["dist".toList, "app.html".toList] (by simp) (by decide +kernel) (.inr (by decide +kernel))
  exact ⟨usable, _, _, husable, hfiles, by decide +kernel,
    hplain.trans (congrArg (Except.map _) hfiles), by decide +kernel⟩

/-- The path of the output file is read as a class, which matches the file beside it and not
the output file. -/
theorem scanned_ne_bracketed :
    let project := Project.ofEntries
      [("[a].html", .file "z-10".toUTF8), ("a.html", .file "z-20".toUTF8)]
    let flags : Flags := { inputs := ["*.html"] }
    let out := "[a].html"
    ∃ files kept, scanned project flags = .ok files ∧
      scanned project { flags with out := some out } = .ok kept ∧
      (files.filter fun f => !project.leadsTo out.toList f).map (·.path) = ["./a.html".toList] ∧
      kept.map (·.path) = ["./[a].html".toList] := by
  intro project flags out
  have hfiles : scanned project flags = _ :=
    scanned_of_nodup (by decide +kernel) (by decide +kernel) (by decide +kernel)
  have hkept : scanned project { flags with out := some out } = _ :=
    scanned_of_nodup (by decide +kernel) (by decide +kernel) (by decide +kernel)
  exact ⟨_, _, hfiles, hkept, by decide +kernel, by decide +kernel⟩

end Command

end AtomicCss
