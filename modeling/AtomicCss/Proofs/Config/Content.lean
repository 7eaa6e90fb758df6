/-
What content patterns given with a command change.

Given patterns take the place of the configured ones between two stages that can fail: the names in
the file are resolved before, and the checks come after.  Resolving names reads the configured
patterns only to hand them on, and never fails for want of them; of the checks, the first looks at
the patterns and the others at everything else.  So a file is loaded with given patterns as it is
without them, but for the first check: where the configured patterns do not pass it, the others
decide.
-/
import AtomicCss.Config.Load
import AtomicCss.Project.Edit
import AtomicCss.Proofs.Config.Faults

namespace AtomicCss

namespace ConfigFile

/-- What a text says, if it has the right shape. -/
def ofText? (text : String) : Option ConfigFile :=
  (Toml.parse? text).bind ofEntries?

/-- The other file may have other content patterns. -/
def SameButContent (file other : ConfigFile) : Prop :=
  ∃ patterns, other = { file with content := patterns }

/-! ### Files that differ in their content patterns -/

/-- The content patterns of a document are at `content` or at `purge`. -/
theorem sameButContent_of_agree {es es' : Toml.Entries} {file file' : ConfigFile}
    (h : ∀ key, key ≠ "content" → key ≠ "purge" → es.find? key = es'.find? key)
    (hfile : ofEntries? es = some file) (hfile' : ofEntries? es' = some file') :
    file.SameButContent file' := by
  have hdark : setting? es "darkMode" "dark_mode" = setting? es' "darkMode" "dark_mode" := by
    rw [setting?, setting?, h _ (by decide) (by decide), h _ (by decide) (by decide)]
  simp only [ofEntries?, hdark, h "mode" (by decide) (by decide),
    h "theme" (by decide) (by decide), h "variants" (by decide) (by decide),
    Option.bind_eq_bind, Option.bind_eq_some_iff, Option.pure_def, Option.some.injEq]
    at hfile hfile'
  obtain ⟨mode, hmode, -, -, content, -, setting, hsetting, darkMode, hdarkMode, theme, htheme,
    variants, hvariants, rfl⟩ := hfile
  simp only [hmode, hsetting, hdarkMode, htheme, hvariants, Option.some.injEq,
    exists_eq_left'] at hfile'
  obtain ⟨-, -, content', -, rfl⟩ := hfile'
  exact ⟨content'.getD [], rfl⟩

theorem toConfig_withContent (file : ConfigFile) (patterns : List String) :
    toConfig { file with content := patterns } =
      file.toConfig.map fun c => { c with content := patterns } := by
  simp only [toConfig]
  cases resolveMode file.mode with
  | error => rfl
  | ok mode =>
      cases resolveDarkMode file.darkMode with
      | error => rfl
      | ok darkMode =>
          cases resolveLayers .theme file.theme with
          | error => rfl
          | ok theme => cases resolveLayers .variants file.variants <;> rfl

/-! ### Names that cannot be resolved -/

theorem resolveLayer_ne_emptyContent {α : Type} (part : Section) (layer : SortedMap String α) :
    resolveLayer part layer ≠ .error .emptyContent := by
  intro h
  rw [resolveLayer, bind_pure_eq_error] at h
  obtain ⟨⟨name, v⟩, -, hname⟩ := exists_of_mapM_eq_error h
  cases hcategory : Category.ofKey? name <;> simp [hcategory] at hname

theorem toConfig_ne_emptyContent (file : ConfigFile) :
    file.toConfig ≠ .error .emptyContent := by
  have hmode : resolveMode file.mode ≠ .error .emptyContent := by
    unfold resolveMode
    split <;> nofun
  have hdarkMode : resolveDarkMode file.darkMode ≠ .error .emptyContent := by
    unfold resolveDarkMode
    split <;> nofun
  have hlayers : ∀ {α : Type} (part : Section) (layers : NamedLayers α),
      resolveLayers part layers ≠ .error .emptyContent := by
    intro α part layers h
    rcases bind_eq_error.mp h with hbase | ⟨base, -, hrest⟩
    · exact resolveLayer_ne_emptyContent part layers.base hbase
    · exact resolveLayer_ne_emptyContent part layers.extend (bind_pure_eq_error.mp hrest)
  intro h
  rcases bind_eq_error.mp h with herror | ⟨mode, -, h⟩
  · exact hmode herror
  rcases bind_eq_error.mp h with herror | ⟨darkMode, -, h⟩
  · exact hdarkMode herror
  rcases bind_eq_error.mp h with herror | ⟨theme, -, h⟩
  · exact hlayers .theme file.theme herror
  · exact hlayers .variants file.variants (bind_pure_eq_error.mp h)

end ConfigFile

namespace Config

/-- The configuration that a file in a project describes, before it is checked. -/
def described (project : Project) (path : String) : Except ConfigError Config :=
  match project.readText path.toList with
  | .error fault => .error (.unreadable path fault)
  | .ok text =>
    match ConfigFile.ofText? text with
    | none => .error (.malformed path text)
    | some file => file.toConfig

/-- The checks behind that of the content patterns. -/
def checkRest (c : Config) : Except ConfigError Unit := do
  c.theme.toList.forM checkTokens
  c.variants.toList.forM fun layer =>
    layer.entries.forM fun (category, names) => checkNames c.darkMode category names

/-- A configuration if it passes its checks. -/
def checked (c : Config) : Except ConfigError Config := do
  c.validate
  return c

/-! ### The stages of loading -/

theorem described_ne_emptyContent (project : Project) (path : String) :
    described project path ≠ .error .emptyContent := by
  unfold described
  split
  · nofun
  · split
    · nofun
    · exact ConfigFile.toConfig_ne_emptyContent _

/-- A file is read, its content patterns are replaced, and what that gives is checked. -/
theorem load_eq (project : Project) (path : String) (given : List String) :
    load project path given =
      described project path >>= fun c => (c.withContent given).checked := by
  simp only [load, described, ofText, ConfigFile.ofText?]
  cases project.readText path.toList with
  | error => rfl
  | ok text =>
      dsimp only
      cases (Toml.parse? text).bind ConfigFile.ofEntries? <;> rfl

theorem load_of_ne_nil {given : List String} (hgiven : given ≠ []) (project : Project)
    (path : String) :
    load project path given =
      described project path >>= fun c => { c with content := given }.checked := by
  have hreplaced : ∀ c : Config, c.withContent given = { c with content := given } := by
    intro c
    rw [withContent, if_neg (by simpa using hgiven)]
  simp only [load_eq, hreplaced]

/-- Past the content patterns only the other checks are left. -/
theorem checked_of_some {c : Config}
    (h : ∃ pattern ∈ c.content, Text.isBlankText pattern = false) :
    c.checked = c.checkRest.map fun _ => c := by
  have hcontent : checkContent c.content = .ok () := by
    rw [checkContent_eq, contentFaults_eq_nil_iff.mpr h]
    rfl
  show (checkContent c.content >>= fun _ => c.checkRest) >>= _ = _
  rw [hcontent]
  cases c.checkRest <;> rfl

theorem checked_of_blank {c : Config}
    (h : ∀ pattern ∈ c.content, Text.isBlankText pattern = true) :
    c.checked = .error .emptyContent := by
  have hcontent : checkContent c.content = .error .emptyContent := if_pos (List.all_eq_true.mpr h)
  show (checkContent c.content >>= fun _ => c.checkRest) >>= _ = _
  rw [hcontent]
  rfl

theorem content_of_checked_ne {c : Config} (h : c.checked ≠ .error .emptyContent) :
    ∃ pattern ∈ c.content, Text.isBlankText pattern = false := by
  by_contra hblank
  refine h (checked_of_blank fun pattern hpattern => ?_)
  by_contra hpattern'
  exact hblank ⟨pattern, hpattern, by simpa using hpattern'⟩

/-! ### Loading with given patterns -/

section Given

variable {given : List String}

theorem load_congr (hgiven : given ≠ []) {project project' : Project} {path path' : String}
    {text text' : String} {file file' : ConfigFile}
    (hread : project.readText path.toList = .ok text)
    (hread' : project'.readText path'.toList = .ok text')
    (hfile : ConfigFile.ofText? text = some file) (hfile' : ConfigFile.ofText? text' = some file')
    (h : file.SameButContent file') :
    load project path given = load project' path' given := by
  obtain ⟨patterns, rfl⟩ := h
  rw [load_of_ne_nil hgiven, load_of_ne_nil hgiven, described, described, hread, hread']
  simp only [hfile, hfile', ConfigFile.toConfig_withContent]
  cases file.toConfig <;> rfl

/-- Where the configured content patterns are not the trouble, given ones take their place and
change nothing else. -/
theorem load_of_load_ne (hgiven : given ≠ [])
    (hsome : ∃ pattern ∈ given, Text.isBlankText pattern = false) {project : Project}
    {path : String} (h : load project path [] ≠ .error .emptyContent) :
    load project path given =
      (load project path []).map fun c => { c with content := given } := by
  rw [load_eq] at h
  rw [load_of_ne_nil hgiven, load_eq]
  cases hdescribed : described project path with
  | error => rfl
  | ok c =>
      rw [hdescribed] at h
      have hcontent : ∃ pattern ∈ c.content, Text.isBlankText pattern = false :=
        content_of_checked_ne h
      show { c with content := given }.checked = c.checked.map _
      rw [checked_of_some hsome, checked_of_some hcontent]
      show c.checkRest.map _ = _
      cases c.checkRest <;> rfl

/-- Where the configured content patterns are the trouble, there is a configuration to check. -/
theorem described_of_load_eq {project : Project} {path : String}
    (h : load project path [] = .error .emptyContent) : ∃ c, described project path = .ok c := by
  rw [load_eq] at h
  rcases bind_eq_error.mp h with hdescribed | ⟨c, hdescribed, -⟩
  · exact absurd hdescribed (described_ne_emptyContent project path)
  · exact ⟨c, hdescribed⟩

/--
**Given content patterns take the place of the configured ones, and of nothing else.**  Two files
that differ in their patterns only are loaded alike.  Where a file can be loaded without given
patterns, or fails for anything but its own, it does so with given ones, if these are not all blank;
and where it fails for its own, the other checks decide, or the given ones are all blank too.
-/
theorem load_given (hgiven : given ≠ []) :
    (∀ project project' path path' text text' file file',
      Project.readText project path.toList = .ok text →
      Project.readText project' path'.toList = .ok text' →
      ConfigFile.ofText? text = some file → ConfigFile.ofText? text' = some file' →
      file.SameButContent file' → load project path given = load project' path' given) ∧
    (∀ es es' file file',
      (∀ key, key ≠ "content" → key ≠ "purge" → Toml.Entries.find? es key = es'.find? key) →
      ConfigFile.ofEntries? es = some file → ConfigFile.ofEntries? es' = some file' →
      file.SameButContent file') ∧
    ∀ project path,
      ((∃ pattern ∈ given, Text.isBlankText pattern = false) →
        (∀ c, load project path [] = .ok c →
          load project path given = .ok { c with content := given }) ∧
        ∀ error, error ≠ .emptyContent → load project path [] = .error error →
          load project path given = .error error) ∧
      (load project path [] = .error .emptyContent →
        ∃ c, described project path = .ok c ∧
          ((∃ pattern ∈ given, Text.isBlankText pattern = false) →
            load project path given = c.checkRest.map fun _ => { c with content := given }) ∧
          ((∀ pattern ∈ given, Text.isBlankText pattern = true) →
            load project path given = .error .emptyContent)) := by
  refine ⟨?_, ?_, fun project path => ⟨fun hsome => ⟨?_, ?_⟩, fun h => ?_⟩⟩
  · intro _ _ _ _ _ _ _ _ hread hread' hfile hfile' h
    exact load_congr hgiven hread hread' hfile hfile' h
  · exact fun _ _ _ _ h => ConfigFile.sameButContent_of_agree h
  · intro c h
    rw [load_of_load_ne hgiven hsome (by rw [h]; nofun), h]
    rfl
  · intro error hne h
    rw [load_of_load_ne hgiven hsome (by rw [h]; simpa using hne), h]
    rfl
  · obtain ⟨c, hdescribed⟩ := described_of_load_eq h
    have hload : load project path given = { c with content := given }.checked := by
      rw [load_of_ne_nil hgiven, hdescribed]
      rfl
    exact ⟨c, hdescribed, fun hsome => hload.trans (checked_of_some hsome),
      fun hblank => hload.trans (checked_of_blank hblank)⟩

/-- No patterns at `purge`, one at `content`, and a file that cannot be loaded with any. -/
theorem load_given_purge :
    let given := ["pages/*.html"]
    let project (text : String) := Project.ofEntries [("c", .file text.toUTF8)]
    let purge := "mode = \"aot\"\npurge = []"
    let content := "mode = \"aot\"\ncontent = [\"a\"]"
    let c : Config := { mode := .aot, content := ["a"] }
    load (project purge) "c" [] = .error .emptyContent ∧
      load (project purge) "c" [" "] = .error .emptyContent ∧
      load (project purge) "c" given = load (project content) "c" given ∧
      load (project content) "c" [] = .ok c ∧
      load (project content) "c" given = .ok { c with content := given } ∧
      load (project "mode = \"none\"") "c" given = .error (.unknownMode "none") := by
  intro given project purge content c
  have hgiven : given ≠ [] := by decide
  have hsome : ∃ pattern ∈ given, Text.isBlankText pattern = false := by decide
  have hpurge : load (project purge) "c" [] = .error .emptyContent := by decide +kernel
  have hcontent : load (project content) "c" [] = .ok c := by decide +kernel
  have hmode : load (project "mode = \"none\"") "c" [] = .error (.unknownMode "none") := by
    decide +kernel
  have hpurgeFile : ConfigFile.ofText? purge = some { mode := some "aot" } := by decide +kernel
  have hcontentFile : ConfigFile.ofText? content =
      some { mode := some "aot", content := ["a"] } := by decide +kernel
  obtain ⟨hsame, -, hall⟩ := load_given hgiven
  obtain ⟨hok, -⟩ := (hall (project content) "c").1 hsome
  obtain ⟨-, herror⟩ := (hall (project "mode = \"none\"") "c").1 hsome
  obtain ⟨-, -, hblank⟩ := load_given (List.cons_ne_nil " " [])
  obtain ⟨-, -, -, hempty⟩ := (hblank (project purge) "c").2 hpurge
  refine ⟨hpurge, hempty (by decide), ?_, hcontent, hok c hcontent, herror _ nofun hmode⟩
  exact hsame _ _ _ _ purge content _ _ (by decide +kernel) (by decide +kernel) hpurgeFile
    hcontentFile ⟨_, rfl⟩

end Given

end Config

end AtomicCss
