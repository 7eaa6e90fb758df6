/-
Where files lie, and where plain paths lead.

Whatever a project has lies in directories, one inside the other, and each step on the way
has a name.  So the names of a location can be followed from the project's directory, and
they lead to that location (`follow_names`).  A plain path is followed along its own steps, and
so leads to the location that it spells or nowhere.  A walk from the current directory spells
what it finds in the same way, with a dot in front.
-/
import AtomicCss.Project.Walk
import AtomicCss.Proofs.Fallible
import AtomicCss.Proofs.Project.Plain
import AtomicCss.Proofs.SortedMap

namespace AtomicCss

namespace Path

/-- A path is made of some steps, with the dot for the current directory in front or
without. -/
def Spells (steps : List (List Char)) (path : List Char) : Prop :=
  path = ['/'].intercalate steps ∨ path = join ['.'] (['/'].intercalate steps)

/-! ### Lengths -/

theorem byteLength_append (cs ds : List Char) :
    byteLength (cs ++ ds) = byteLength cs + byteLength ds := by
  induction cs with
  | nil => simp [byteLength]
  | cons c cs ih =>
      simp only [byteLength, List.cons_append, List.foldr_cons] at ih ⊢
      omega

theorem isPathLength_of_spells {steps : List (List Char)} {path : List Char}
    (h : Spells steps path) (hlong : isPathLength (join ['.'] (['/'].intercalate steps)) = true) :
    isPathLength path = true := by
  rcases h with rfl | rfl
  · have hdot : join ['.'] (['/'].intercalate steps) = ['.', '/'] ++ ['/'].intercalate steps := rfl
    simp only [isPathLength, decide_eq_true_eq, hdot, byteLength_append] at hlong ⊢
    omega
  · exact hlong

end Path

open AtomicCss.Path

namespace Project

/-! ### The steps of a path -/

variable {parts : List (List Char)}

/-- What is put between slashes is found there again. -/
theorem steps_intercalate (hne : parts ≠ []) (h : ∀ part ∈ parts, part ≠ [] ∧ '/' ∉ part) :
    steps (['/'].intercalate parts) = parts := by
  have hsplit : (['/'].intercalate parts).splitOnP (· == '/') = parts :=
    List.splitOn_intercalate '/' (fun part hpart => (h part hpart).2) hne
  have hfilter : (parts.filter fun part => !part.isEmpty) = parts := by
    rw [List.filter_eq_self]
    intro part hpart
    simpa using (h part hpart).1
  have hslash : endsWithSlash (['/'].intercalate parts) = false := by
    rcases List.eq_nil_or_concat parts with rfl | ⟨init, last, rfl⟩
    · exact absurd rfl hne
    · rw [List.concat_eq_append] at h ⊢
      obtain ⟨front, hpath, -⟩ := Text.exists_intercalate_append '/' init last
      obtain ⟨hnil, hlast⟩ := h last (by simp)
      obtain ⟨body, c, rfl⟩ := (List.eq_nil_or_concat last).resolve_left hnil
      have hc : c ≠ '/' := fun hc => hlast (by simp [hc])
      rw [hpath]
      simpa [endsWithSlash, ← List.append_assoc] using hc
  simp [steps, stretches, hsplit, hfilter, hslash]

theorem startOf_intercalate (h : ∀ part ∈ parts, part ≠ [] ∧ '/' ∉ part) :
    startOf (['/'].intercalate parts) = .inside [] := by
  cases parts with
  | nil => rfl
  | cons part parts =>
      obtain ⟨rest, hpath⟩ := Text.exists_intercalate_cons '/' parts
      obtain ⟨hnil, hslash⟩ := h part List.mem_cons_self
      obtain ⟨c, more, rfl⟩ := List.exists_cons_of_ne_nil hnil
      have hc : c ≠ '/' := fun hc => hslash (by simp [hc])
      simp [startOf, isAbsolute, hpath, hc]

/-! ### Following plain paths -/

variable {p : Project} {dir loc rest : Location} {place : Place} {entry : Entry} {name : String}
  {path : List Char} {way : List (List Char)}

theorem next_current (hdir : p.isDirectoryAt place = true) : p.next place ['.'] = .ok place := by
  simp [next, hdir]

theorem eq_of_next {step : List Char} (hstep : IsStep step)
    (h : p.next (.inside dir) step = .ok place) :
    place = .inside (dir ++ [String.ofList step]) := by
  simp only [next, hstep.ne_current, hstep.ne_parent, if_false] at h
  split at h
  · cases h
  · split at h
    · cases h
    · split at h
      · cases h
      · cases h
        rfl

/-- Steps lead nowhere else than they say. -/
theorem eq_of_follow (hway : ∀ step ∈ way, IsStep step)
    (h : p.follow (.inside dir) way = .ok place) :
    place = .inside (dir ++ way.map String.ofList) := by
  induction way generalizing dir with
  | nil =>
      cases h
      simp
  | cons step way ih =>
      obtain ⟨hstep, hrest⟩ := List.forall_mem_cons.mp hway
      rw [follow, List.foldlM_cons] at h
      obtain ⟨next, hnext, h⟩ := bind_eq_ok.mp h
      obtain rfl := eq_of_next hstep hnext
      rw [ih hrest h]
      simp

/-- A plain path is followed along the steps that it spells. -/
theorem follow_of_spells (hway : ∀ step ∈ way, IsStep step) (hne : way ≠ [])
    (h : Spells way path) : p.follow (startOf path) (steps path) = p.follow (.inside []) way := by
  have hparts : ∀ part ∈ way, part ≠ [] ∧ '/' ∉ part := fun part hpart =>
    ⟨(hway part hpart).ne_nil, (hway part hpart).slash_notMem⟩
  rcases h with rfl | rfl
  · rw [startOf_intercalate hparts, steps_intercalate hne hparts]
  · have hdot : join ['.'] (['/'].intercalate way) = ['/'].intercalate (['.'] :: way) := by
      obtain ⟨step, rest, rfl⟩ := List.exists_cons_of_ne_nil hne
      rw [List.intercalate_cons_cons]
      rfl
    have hdots : ∀ part ∈ ['.'] :: way, part ≠ [] ∧ '/' ∉ part :=
      List.forall_mem_cons.mpr ⟨by simp, hparts⟩
    rw [hdot, startOf_intercalate hdots, steps_intercalate (List.cons_ne_nil _ _) hdots, follow,
      List.foldlM_cons, next_current rfl]
    rfl

theorem checkPath_of_spells (hway : ∀ step ∈ way, IsStep step) (hne : way ≠ [])
    (hnull : ∀ step ∈ way, '\x00' ∉ step)
    (hlong : isPathLength (join ['.'] (['/'].intercalate way)) = true) (h : Spells way path) :
    checkPath path = .ok () := by
  have hdot : join ['.'] (['/'].intercalate way) = '.' :: '/' :: ['/'].intercalate way := rfl
  have hnull : '\x00' ∉ ['/'].intercalate way := Text.notMem_intercalate (by decide) hnull
  have hnonempty := intercalate_ne_nil hway hne
  have hshort := isPathLength_of_spells h hlong
  rcases h with rfl | rfl
  · simp [checkPath, hnull, hnonempty, hshort]
  · rw [hdot] at hshort ⊢
    simp [checkPath, hnull, hshort]

/-! ### Locations -/

/-- What has an entry has a name, and is in a directory. -/
theorem placed_of_find? (h : p.find? (dir ++ [name]) = some entry) :
    isName name = true ∧ p.find? dir = some .directory := by
  have hentry : p.entries.find? (dir ++ [name]) = some entry := by
    cases dir <;> exact h
  obtain ⟨dir', name', heq, hname, hdir⟩ := p.placed _ _ hentry
  obtain ⟨rfl, hlast⟩ := List.append_inj' heq rfl
  obtain rfl : name = name' := (List.cons.inj hlast).1
  exact ⟨hname, hdir⟩

theorem placed_of_find?_append (h : p.find? (dir ++ name :: rest) = some entry) :
    isName name = true ∧ p.find? dir = some .directory ∧
      (p.find? (dir ++ [name])).isSome = true := by
  induction rest generalizing dir name with
  | nil =>
      obtain ⟨hname, hdir⟩ := placed_of_find? h
      exact ⟨hname, hdir, by rw [h]; rfl⟩
  | cons next rest ih =>
      have hwhole : dir ++ name :: next :: rest = (dir ++ [name]) ++ next :: rest := by simp
      rw [hwhole] at h
      obtain ⟨-, hinner, -⟩ := ih h
      obtain ⟨hname, hdir⟩ := placed_of_find? hinner
      exact ⟨hname, hdir, by rw [hinner]; rfl⟩

theorem isName_of_mem (h : p.find? loc = some entry) (hname : name ∈ loc) : isName name = true := by
  obtain ⟨dir, rest, rfl⟩ := List.append_of_mem hname
  exact (placed_of_find?_append h).1

theorem isStep_of_mem (h : p.find? loc = some entry) :
    ∀ step ∈ loc.map String.toList, IsStep step := by
  intro step hstep
  obtain ⟨name, hname, rfl⟩ := List.mem_map.mp hstep
  exact isStep_of_isName (isName_of_mem h hname)

/-- The names of a location lead there. -/
theorem follow_names (h : p.find? (dir ++ rest) = some entry) :
    p.follow (.inside dir) (rest.map String.toList) = .ok (.inside (dir ++ rest)) := by
  induction rest generalizing dir with
  | nil => rw [List.append_nil]; rfl
  | cons name rest ih =>
      obtain ⟨hname, hdir, hnext⟩ := placed_of_find?_append h
      have hstep := isStep_of_isName hname
      have hlength : isNameLength name.toList = true := (Bool.and_eq_true_iff.mp hname).2
      have hfree : (p.find? (dir ++ [name])).isNone = false := by
        rwa [← Option.not_isSome, Bool.not_eq_false']
      have hstart : p.next (.inside dir) name.toList = .ok (.inside (dir ++ [name])) := by
        simp [next, isDirectoryAt, isDirectory_eq_true_iff.mpr hdir, hstep.ne_current,
          hstep.ne_parent, hlength, hfree]
      have hwhole : dir ++ name :: rest = (dir ++ [name]) ++ rest := by simp
      rw [hwhole] at h ⊢
      rw [List.map_cons, follow, List.foldlM_cons, hstart]
      exact ih h

/-! ### Files of a walk -/

/-- A walk from the current directory finds a file at a location. -/
structure FindsAt (p : Project) (loc : Location) (f : FoundFile) : Prop where
  ne_nil : loc ≠ []
  find?_eq : p.find? loc = some (.file f.content)
  path_eq : f.path = IgnoreTable.pathFrom ['.'] loc

theorem locate_current : p.locate ['.'] = .ok (.inside []) := by
  rfl

theorem exists_findsAt_of_mem_walk {gitignore : Bool} {found : Found} {f : FoundFile}
    (h : p.walk gitignore ['.'] = .ok found) (hf : f ∈ found.files) : ∃ loc, p.FindsAt loc f := by
  simp only [walk, locate_current] at h
  cases h
  obtain ⟨⟨loc, content⟩, hmem, rfl⟩ := List.mem_map.mp hf
  obtain ⟨⟨_, entry⟩, hentry, hfile⟩ := List.mem_filterMap.mp (List.mem_of_mem_filter hmem)
  cases entry with
  | directory => cases hfile
  | file bytes =>
      cases hfile
      have hfind := SortedMap.find?_of_mem hentry
      have hne : loc ≠ [] := by
        rintro rfl
        obtain ⟨dir, name, heq, -⟩ := p.placed [] _ hfind
        simp at heq
      refine ⟨loc, hne, ?_, rfl⟩
      cases loc with
      | nil => exact absurd rfl hne
      | cons name rest => exact hfind

variable {f : FoundFile}

namespace FindsAt

theorem isStep (h : p.FindsAt loc f) : ∀ step ∈ loc.map String.toList, IsStep step :=
  isStep_of_mem h.find?_eq

theorem path_eq_join (h : p.FindsAt loc f) :
    f.path = join ['.'] (['/'].intercalate (loc.map String.toList)) := by
  rw [h.path_eq, IgnoreTable.pathFrom, if_neg h.ne_nil, IgnoreTable.pathOf]

/-- From the current directory the file is known without the dot. -/
theorem relativeTo_eq (h : p.FindsAt loc f) :
    relativeTo ['.'] f.path = ['/'].intercalate (loc.map String.toList) := by
  rw [h.path_eq_join, relativeTo_current_join h.isStep]

theorem path_eq_join_relativeTo (h : p.FindsAt loc f) :
    f.path = join ['.'] (relativeTo ['.'] f.path) := by
  rw [h.relativeTo_eq, ← h.path_eq_join]

theorem relativeTo_ne_nil (h : p.FindsAt loc f) : relativeTo ['.'] f.path ≠ [] := by
  rw [h.relativeTo_eq]
  exact intercalate_ne_nil h.isStep (by simpa using h.ne_nil)

theorem spells_iff (h : p.FindsAt loc f) :
    Spells (loc.map String.toList) path ↔ path = relativeTo ['.'] f.path ∨ path = f.path := by
  rw [h.relativeTo_eq, h.path_eq_join, Spells]

end FindsAt

/-- Whether a path leads to a file that a walk from the current directory finds. -/
def leadsTo (p : Project) (path : List Char) (f : FoundFile) : Bool :=
  match p.locate path with
  | .ok (.inside loc) => f.path = IgnoreTable.pathFrom ['.'] loc
  | _ => false

theorem leadsTo_eq_true_iff : p.leadsTo path f = true ↔
    ∃ loc, p.locate path = .ok (.inside loc) ∧ f.path = IgnoreTable.pathFrom ['.'] loc := by
  unfold leadsTo
  split
  · rename_i loc hlocate
    simp [hlocate]
  · rename_i hother
    simp only [Bool.false_eq_true, false_iff, not_exists, not_and]
    intro loc hlocate
    exact absurd hlocate (hother loc)

/-- What spells the location of a file leads to it, unless it is too long for a path. -/
theorem FindsAt.leadsTo_of_spells (h : p.FindsAt loc f) (hlength : isPathLength f.path = true)
    (hspells : Spells (loc.map String.toList) path) : p.leadsTo path f = true := by
  have hne : loc.map String.toList ≠ [] := by simpa using h.ne_nil
  have hnull : ∀ step ∈ loc.map String.toList, '\x00' ∉ step := by
    intro step hstep
    obtain ⟨name, hname, rfl⟩ := List.mem_map.mp hstep
    have hisName := isName_of_mem h.find?_eq hname
    simp only [isName, Bool.and_eq_true, Bool.not_eq_true', List.contains_eq_mem,
      decide_eq_false_iff_not] at hisName
    exact hisName.1.2
  rw [h.path_eq_join] at hlength
  refine leadsTo_eq_true_iff.mpr ⟨loc, ?_, h.path_eq⟩
  rw [locate, checkPath_of_spells h.isStep hne hnull hlength hspells,
    follow_of_spells h.isStep hne hspells]
  exact follow_names h.find?_eq

/-- A plain path leads to the file whose location it spells, or to none. -/
theorem path_eq_of_leadsTo (hway : ∀ step ∈ way, IsStep step) (hne : way ≠ [])
    (hspells : Spells way path) (h : p.leadsTo path f = true) :
    f.path = join ['.'] (['/'].intercalate way) := by
  obtain ⟨loc, hlocate, hpath⟩ := leadsTo_eq_true_iff.mp h
  obtain ⟨-, -, hfollow⟩ := bind_eq_ok.mp hlocate
  rw [follow_of_spells hway hne hspells] at hfollow
  obtain rfl : loc = way.map String.ofList := by simpa using eq_of_follow hway hfollow
  have hnames : (way.map String.ofList).map String.toList = way := by
    simp [List.map_map, Function.comp_def]
  rw [hpath, IgnoreTable.pathFrom, if_neg (by simpa using hne), IgnoreTable.pathOf, hnames]

end Project

end AtomicCss
