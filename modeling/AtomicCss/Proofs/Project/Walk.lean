/-
Walks go down before they go on.

A walk that is done directory by directory looks at the names in a directory in their order, leaves
out what is ignored, takes a file when it comes to one and walks a directory as soon as it comes to
it (`Walks`).  What a walk finds is defined without going anywhere, as the files below the start
to which the way is open, in the order of their locations.  The two are the same
(`walksFrom_iff`): in that order the files below a directory are those at its first name and
below, then those at the second, and so on.

So the paths of a walk ascend (`pairwise_walked`), and none of them comes twice.
-/
import AtomicCss.Project.Walk
import AtomicCss.Proofs.Project.Location
import AtomicCss.Proofs.Project.Order
import AtomicCss.Proofs.SortedMap
import Mathlib.Algebra.Order.BigOperators.Group.List
import Mathlib.Algebra.Order.Group.Nat
import Mathlib.Data.List.Induction
import Mathlib.Tactic.SplitIfs

namespace AtomicCss

open Text

theorem Location.lt_of_append_lt {base a b : Location} (h : base ++ a < base ++ b) : a < b := by
  induction base with
  | nil => exact h
  | cons name base ih =>
      rcases List.cons_lt_cons_iff.mp h with hlt | ⟨-, hlt⟩
      · exact absurd hlt (String.lt_irrefl name)
      · exact ih hlt

namespace Project

variable {p : Project} {table : IgnoreTable} {start : List Char} {base below dir loc : Location}
  {name : String} {content : ByteArray}

/-! ### What is in a directory -/

/-- The name of what lies in a directory. -/
def nameIn? (dir loc : Location) : Option String :=
  match after? dir loc with
  | some [name] => some name
  | _ => none

theorem nameIn?_eq_some_iff : nameIn? dir loc = some name ↔ loc = dir ++ [name] := by
  unfold nameIn?
  constructor
  · intro h
    split at h
    · rename_i hafter
      cases h
      exact after?_eq_some_iff.mp hafter
    · cases h
  · rintro rfl
    rw [after?_append]

/-- The names in a directory, in their order. -/
def names (p : Project) (dir : Location) : List String :=
  p.entries.keys.filterMap (nameIn? dir)

theorem find?_concat (p : Project) (dir : Location) (name : String) :
    p.find? (dir ++ [name]) = p.entries.find? (dir ++ [name]) := by
  cases dir <;> rfl

theorem mem_names : name ∈ p.names dir ↔ (p.find? (dir ++ [name])).isSome = true := by
  rw [names, List.mem_filterMap]
  simp only [nameIn?_eq_some_iff, exists_eq_right]
  rw [SortedMap.mem_keys_iff, find?_concat]
  rfl

theorem pairwise_keys (p : Project) : p.entries.keys.Pairwise (· < ·) := by
  unfold SortedMap.keys
  rw [List.pairwise_map]
  exact p.entries.sorted.imp Location.compare_eq_lt_iff.mp

theorem pairwise_names (p : Project) (dir : Location) : (p.names dir).Pairwise (· < ·) := by
  refine p.pairwise_keys.filterMap _ fun loc other hlt name hname next hnext => ?_
  rw [nameIn?_eq_some_iff.mp hname, nameIn?_eq_some_iff.mp hnext] at hlt
  rcases List.cons_lt_cons_iff.mp (Location.lt_of_append_lt hlt) with h | ⟨-, h⟩
  · exact h
  · exact absurd h (List.lt_irrefl _)

/-! ### Walking directory by directory -/

/-- The names in a directory of a walk that the walk does not leave out. -/
def entered (p : Project) (table : IgnoreTable) (start : List Char) (base below : Location) :
    List String :=
  (p.names (base ++ below)).filter fun name =>
    !skips table start base (below ++ [name]) (p.isDirectory (base ++ (below ++ [name])))

/-- What a walk finds at a place, from which it goes on to one name after the other. -/
inductive Walks (p : Project) (table : IgnoreTable) (start : List Char) (base : Location) :
    Location → List FoundFile → Prop
  | file {below : Location} {content : ByteArray}
      (h : p.find? (base ++ below) = some (.file content)) :
      Walks p table start base below [⟨IgnoreTable.pathFrom start below, content⟩]
  /-- A directory that lies too far down for a path is not looked into. -/
  | distant {below : Location} (hdir : p.find? (base ++ below) = some .directory)
      (hpath : Path.isPathLength (IgnoreTable.pathFrom start below) = false) :
      Walks p table start base below []
  | directory {below : Location} (hdir : p.find? (base ++ below) = some .directory)
      (hpath : Path.isPathLength (IgnoreTable.pathFrom start below) = true)
      (files : String → List FoundFile)
      (h : ∀ name ∈ p.entered table start base below,
        Walks p table start base (below ++ [name]) (files name)) :
      Walks p table start base below ((p.entered table start base below).flatMap files)

theorem Walks.unique {files others : List FoundFile} (h : p.Walks table start base below files)
    (hother : p.Walks table start base below others) : files = others := by
  induction h generalizing others with
  | file hfile =>
      cases hother with
      | file hsame =>
          cases hfile.symm.trans hsame
          rfl
      | distant hdir | directory hdir =>
          cases hfile.symm.trans hdir
  | distant hdir hpath =>
      cases hother with
      | file hfile =>
          cases hdir.symm.trans hfile
      | distant => rfl
      | directory _ hshort =>
          rw [hshort] at hpath
          cases hpath
  | directory hdir hpath files _ ih =>
      cases hother with
      | file hfile =>
          cases hdir.symm.trans hfile
      | distant _ hlong =>
          rw [hlong] at hpath
          cases hpath
      | directory _ _ others hothers =>
          exact List.flatMap_congr fun name hname => ih name hname (hothers name hname)

/-- What is found at a place lies there or below. -/
theorem Walks.exists_location {files : List FoundFile} (h : p.Walks table start base below files) :
    ∀ f ∈ files, ∃ rest, p.find? (base ++ (below ++ rest)) = some (.file f.content) ∧
      f.path = IgnoreTable.pathFrom start (below ++ rest) := by
  induction h with
  | file hfile =>
      intro f hf
      obtain rfl := List.mem_singleton.mp hf
      exact ⟨[], by rwa [List.append_nil], by rw [List.append_nil]⟩
  | distant =>
      intro f hf
      cases hf
  | directory _ _ files _ ih =>
      intro f hf
      obtain ⟨name, hname, hf⟩ := List.mem_flatMap.mp hf
      obtain ⟨rest, hfile, hpath⟩ := ih name hname f hf
      rw [List.append_assoc] at hfile hpath
      exact ⟨name :: rest, hfile, hpath⟩

/-- **Names in order make paths in order**, since all that lies below one name comes before all
that lies below the next. -/
theorem Walks.pairwise {files : List FoundFile} (hstart : start ≠ [])
    (h : p.Walks table start base below files) :
    files.Pairwise fun f g => Path.Before f.path g.path := by
  induction h with
  | file => exact List.pairwise_singleton ..
  | distant => exact .nil
  | @directory below _ _ files hfiles ih =>
      rw [List.pairwise_flatMap]
      refine ⟨ih, ?_⟩
      refine ((p.pairwise_names (base ++ below)).filter _).imp_of_mem ?_
      intro name next hname hnext hlt f hf g hg
      obtain ⟨rest, hfile, hpath⟩ := (hfiles name hname).exists_location f hf
      obtain ⟨more, hother, hnextPath⟩ := (hfiles next hnext).exists_location g hg
      have hisName {loc : Location} {content : ByteArray}
          (hfile : p.find? (base ++ loc) = some (.file content)) :
          ∀ name ∈ loc, isName name = true := fun name hname =>
        isName_of_mem hfile (List.mem_append_right base hname)
      rw [hpath, hnextPath]
      refine Path.before_pathFrom hstart (hisName hfile) (hisName hother) ?_
      rw [List.append_assoc, List.append_assoc]
      exact List.append_left_lt (List.cons_lt_cons_iff.mpr (.inl hlt))

/-! ### The files below a start -/

theorem mem_filesBelow : (below, content) ∈ p.filesBelow base ↔
    p.find? (base ++ below) = some (.file content) := by
  unfold filesBelow
  rw [List.mem_filterMap]
  constructor
  · rintro ⟨⟨loc, entry⟩, hentry, hfile⟩
    dsimp only at hfile
    split at hfile
    · rename_i hafter
      cases hfile
      have hfind := SortedMap.find?_of_mem hentry
      rw [after?_eq_some_iff.mp hafter] at hfind
      obtain ⟨inner, name, hloc, -⟩ := p.placed _ _ hfind
      rw [hloc, find?_concat, ← hloc, hfind]
    · cases hfile
  · intro hfile
    have hfind : p.entries.find? (base ++ below) = some (.file content) := by
      unfold find? entryAt? at hfile
      split at hfile
      · cases hfile
      · exact hfile
    refine ⟨(base ++ below, .file content), SortedMap.mem_of_find? hfind, ?_⟩
    dsimp only
    rw [after?_append]

theorem pairwise_filesBelow (p : Project) (base : Location) :
    (p.filesBelow base).Pairwise fun a b => a.1 < b.1 := by
  refine p.entries.sorted.filterMap _ ?_
  rintro ⟨loc, entry⟩ ⟨other, next⟩ hcompare ⟨below, content⟩ hfile ⟨beyond, bytes⟩ hnext
  have hlt : loc < other := Location.compare_eq_lt_iff.mp hcompare
  dsimp only at hfile hnext
  split at hfile
  · rename_i hafter
    cases hfile
    split at hnext
    · rename_i hother
      cases hnext
      rw [after?_eq_some_iff.mp hafter, after?_eq_some_iff.mp hother] at hlt
      exact Location.lt_of_append_lt hlt
    · cases hnext
  · cases hfile

/-- Whether nothing is left out on the way of a walk to a place, and neither is the place. -/
def isOpen (table : IgnoreTable) (start : List Char) (base below : Location)
    (isDirectory : Bool) : Bool :=
  (List.range below.length).all fun n =>
    !skips table start base (below.take (n + 1)) (isDirectory || n + 1 < below.length)

theorem isOpen_concat {isDirectory : Bool} :
    isOpen table start base (below ++ [name]) isDirectory = true ↔
      isOpen table start base below true = true ∧
        skips table start base (below ++ [name]) isDirectory = false := by
  have htake : (below ++ [name]).take (below.length + 1) = below ++ [name] :=
    List.take_of_length_le (by simp)
  unfold isOpen
  rw [List.length_append, List.length_singleton, List.range_succ, List.all_append,
    Bool.and_eq_true]
  refine and_congr ?_ (by simp [htake])
  rw [List.all_eq_true, List.all_eq_true]
  refine forall₂_congr fun n hn => ?_
  have hn := List.mem_range.mp hn
  rw [List.take_append_of_le_length hn]
  simp [hn]

theorem isOpen_of_append {rest : Location}
    (h : isOpen table start base (below ++ rest) true = true) :
    isOpen table start base below true = true := by
  induction rest using List.reverseRecOn with
  | nil => rwa [List.append_nil] at h
  | append_singleton rest name ih =>
      rw [← List.append_assoc] at h
      exact ih (isOpen_concat.mp h).1

/-- A walk gets to what lies in a directory to which the way is open, unless it is left out or
the directory lies too far down. -/
theorem reaches_concat {isDirectory : Bool} :
    reaches table start base (below ++ [name]) isDirectory = true ↔
      Path.isPathLength (IgnoreTable.pathFrom start below) = true ∧
        isOpen table start base below true = true ∧
        skips table start base (below ++ [name]) isDirectory = false := by
  rw [← isOpen_concat, reaches, Bool.and_eq_true, List.dropLast_concat]
  rfl

theorem pathFrom_isPrefix (start : List Char) (below rest : Location) :
    IgnoreTable.pathFrom start below <+: IgnoreTable.pathFrom start (below ++ rest) := by
  have hjoin : ∀ names, start <+: Path.join start names := by
    intro names
    unfold Path.join
    split <;> exact List.prefix_append start _
  unfold IgnoreTable.pathFrom
  by_cases hbelow : below = []
  · rw [if_pos hbelow]
    split
    · exact List.prefix_rfl
    · exact hjoin _
  · rw [if_neg hbelow, if_neg (List.append_ne_nil_of_left_ne_nil hbelow rest)]
    have hnames : IgnoreTable.pathOf below <+: IgnoreTable.pathOf (below ++ rest) := by
      rw [IgnoreTable.pathOf, IgnoreTable.pathOf, List.map_append]
      exact intercalate_isPrefix '/' _ _
    unfold Path.join
    split
    · exact (List.prefix_append_right_inj start).mpr hnames
    · exact (List.prefix_append_right_inj start).mpr hnames
    · exact (List.prefix_append_right_inj start).mpr ((List.prefix_cons_inj '/').mpr hnames)

theorem isPathLength_of_append {rest : Location}
    (h : Path.isPathLength (IgnoreTable.pathFrom start (below ++ rest)) = true) :
    Path.isPathLength (IgnoreTable.pathFrom start below) = true := by
  obtain ⟨more, hmore⟩ := pathFrom_isPrefix start below rest
  simp only [Path.isPathLength, decide_eq_true_eq, ← hmore, Path.byteLength_append] at h ⊢
  omega

/-- The way to a file goes through what comes before it. -/
theorem of_reaches_append {rest : Location}
    (h : reaches table start base (below ++ name :: rest) false = true) :
    Path.isPathLength (IgnoreTable.pathFrom start below) = true ∧
      isOpen table start base below true = true ∧
      skips table start base (below ++ [name]) (!rest.isEmpty) = false := by
  rcases List.eq_nil_or_concat rest with rfl | ⟨init, last, rfl⟩
  · exact reaches_concat.mp h
  · have hwhole : below ++ name :: (init ++ [last]) = (below ++ [name] ++ init) ++ [last] := by simp
    rw [List.concat_eq_append, hwhole] at h
    obtain ⟨hpath, hopen, -⟩ := reaches_concat.mp h
    obtain ⟨hopen, hskip⟩ := isOpen_concat.mp (isOpen_of_append hopen)
    rw [List.append_assoc] at hpath
    have hrest : (init.concat last).isEmpty = false := by simp
    refine ⟨isPathLength_of_append hpath, hopen, ?_⟩
    rw [hrest]
    exact hskip

/-! ### The files at a place and below -/

/-- The files to which a walk gets that lie at a place or below, by location. -/
def filesAt (p : Project) (table : IgnoreTable) (start : List Char) (base below : Location) :
    List (Location × ByteArray) :=
  (p.filesBelow base).filter fun e => reaches table start base e.1 false && below.isPrefixOf e.1

theorem mem_filesAt : (loc, content) ∈ p.filesAt table start base below ↔
    p.find? (base ++ loc) = some (.file content) ∧ reaches table start base loc false = true ∧
      below <+: loc := by
  rw [filesAt, List.mem_filter, mem_filesBelow, Bool.and_eq_true, List.isPrefixOf_iff_prefix]

theorem pairwise_filesAt (p : Project) (table : IgnoreTable) (start : List Char)
    (base below : Location) :
    (p.filesAt table start base below).Pairwise fun a b => a.1 < b.1 :=
  (p.pairwise_filesBelow base).filter _

theorem filesAt_of_file (h : p.find? (base ++ below) = some (.file content))
    (hreach : reaches table start base below false = true) :
    p.filesAt table start base below = [(below, content)] := by
  refine eq_of_mem_iff (fun _ _ => List.lt_asymm) (pairwise_filesAt ..)
    (List.pairwise_singleton ..) ?_
  rintro ⟨loc, bytes⟩
  rw [mem_filesAt, List.mem_singleton]
  constructor
  · rintro ⟨hfile, -, rest, rfl⟩
    cases rest with
    | nil =>
        rw [List.append_nil] at hfile ⊢
        cases h.symm.trans hfile
        rfl
    | cons name rest =>
        rw [← List.append_assoc] at hfile
        cases h.symm.trans (placed_of_find?_append hfile).2.1
  · intro heq
    cases heq
    exact ⟨h, hreach, List.prefix_rfl⟩

theorem isDirectory_of_find?_append {rest : Location}
    (h : p.find? (base ++ (below ++ name :: rest)) = some (.file content)) :
    p.isDirectory (base ++ (below ++ [name])) = !rest.isEmpty := by
  cases rest with
  | nil =>
      unfold isDirectory
      rw [h]
      rfl
  | cons next rest =>
      have hwhole : base ++ (below ++ name :: next :: rest) =
          base ++ (below ++ [name]) ++ next :: rest := by simp
      rw [hwhole] at h
      exact isDirectory_eq_true_iff.mpr (placed_of_find?_append h).2.1

/-- In a directory it is names that lead on. -/
theorem exists_cons_of_mem_filesAt (hdir : p.find? (base ++ below) = some .directory)
    (h : (loc, content) ∈ p.filesAt table start base below) :
    ∃ name rest, loc = below ++ name :: rest := by
  obtain ⟨hfile, -, rest, rfl⟩ := mem_filesAt.mp h
  cases rest with
  | nil =>
      rw [List.append_nil] at hfile
      cases hdir.symm.trans hfile
  | cons name rest => exact ⟨name, rest, rfl⟩

theorem filesAt_of_distant (hdir : p.find? (base ++ below) = some .directory)
    (hpath : Path.isPathLength (IgnoreTable.pathFrom start below) = false) :
    p.filesAt table start base below = [] := by
  rw [List.eq_nil_iff_forall_not_mem]
  rintro ⟨loc, content⟩ hmem
  obtain ⟨name, rest, rfl⟩ := exists_cons_of_mem_filesAt hdir hmem
  obtain ⟨-, hreach, -⟩ := mem_filesAt.mp hmem
  rw [(of_reaches_append hreach).1] at hpath
  cases hpath

/-- **What lies below a directory is what lies at its names, one name after the other.** -/
theorem filesAt_of_directory (hdir : p.find? (base ++ below) = some .directory) :
    p.filesAt table start base below =
      (p.entered table start base below).flatMap fun name =>
        p.filesAt table start base (below ++ [name]) := by
  refine eq_of_mem_iff (fun _ _ => List.lt_asymm) (pairwise_filesAt ..) ?_ ?_
  · rw [List.pairwise_flatMap]
    refine ⟨fun name _ => pairwise_filesAt .., ?_⟩
    refine ((p.pairwise_names (base ++ below)).filter _).imp fun {name next} hlt => ?_
    rintro ⟨loc, content⟩ hmem ⟨other, bytes⟩ hother
    obtain ⟨-, -, rest, rfl⟩ := mem_filesAt.mp hmem
    obtain ⟨-, -, more, rfl⟩ := mem_filesAt.mp hother
    rw [List.append_assoc, List.append_assoc]
    exact List.append_left_lt (List.cons_lt_cons_iff.mpr (.inl hlt))
  · rintro ⟨loc, content⟩
    rw [List.mem_flatMap]
    constructor
    · intro hmem
      obtain ⟨name, rest, rfl⟩ := exists_cons_of_mem_filesAt hdir hmem
      obtain ⟨hfile, hreach, -⟩ := mem_filesAt.mp hmem
      have hprefix : below ++ [name] <+: below ++ name :: rest := ⟨rest, by simp⟩
      refine ⟨name, List.mem_filter.mpr ⟨?_, ?_⟩, mem_filesAt.mpr ⟨hfile, hreach, hprefix⟩⟩
      · rw [← List.append_assoc] at hfile
        exact mem_names.mpr (placed_of_find?_append hfile).2.2
      · rw [isDirectory_of_find?_append hfile, (of_reaches_append hreach).2.2]
        rfl
    · rintro ⟨name, -, hmem⟩
      obtain ⟨hfile, hreach, hprefix⟩ := mem_filesAt.mp hmem
      exact mem_filesAt.mpr ⟨hfile, hreach, (List.prefix_append below [name]).trans hprefix⟩

/-! ### Both walks are the same -/

/-- What a walk finds at a place. -/
def foundAt (p : Project) (table : IgnoreTable) (start : List Char) (base below : Location) :
    List FoundFile :=
  (p.filesAt table start base below).map fun e => ⟨IgnoreTable.pathFrom start e.1, e.2⟩

theorem exists_depth (p : Project) :
    ∃ depth, ∀ loc entry, p.find? loc = some entry → loc.length ≤ depth := by
  refine ⟨(p.entries.keys.map List.length).sum, fun loc entry h => ?_⟩
  cases loc with
  | nil => exact Nat.zero_le _
  | cons name loc =>
      have hkey : name :: loc ∈ p.entries.keys := by
        have hfind : p.entries.find? (name :: loc) = some entry := h
        rw [SortedMap.mem_keys_iff, SortedMap.contains, hfind]
        rfl
      exact List.le_sum_of_mem (List.mem_map_of_mem hkey)

/-- In a directory to which the way is open a walk finds what is listed there.  The induction is
on how many names a location can have beyond those of the directory. -/
theorem walks_foundAt (hdir : p.find? (base ++ below) = some .directory)
    (hopen : isOpen table start base below true = true) :
    p.Walks table start base below (p.foundAt table start base below) := by
  obtain ⟨depth, hdepth⟩ := p.exists_depth
  induction hrest : depth + 1 - (base ++ below).length using Nat.strong_induction_on
    generalizing below with
  | _ rest ih =>
      cases hpath : Path.isPathLength (IgnoreTable.pathFrom start below) with
      | false =>
          rw [foundAt, filesAt_of_distant hdir hpath]
          exact .distant hdir hpath
      | true =>
          rw [foundAt, filesAt_of_directory hdir, List.map_flatMap]
          refine .directory hdir hpath (fun name => p.foundAt table start base (below ++ [name]))
            fun name hname => ?_
          obtain ⟨hname, hskip⟩ := List.mem_filter.mp hname
          obtain ⟨entry, hentry⟩ := Option.isSome_iff_exists.mp (mem_names.mp hname)
          rw [List.append_assoc] at hentry
          have hskip : skips table start base (below ++ [name])
              (p.isDirectory (base ++ (below ++ [name]))) = false := by simpa using hskip
          cases entry with
          | file content =>
              have hkind : p.isDirectory (base ++ (below ++ [name])) = false := by
                unfold isDirectory
                rw [hentry]
              rw [hkind] at hskip
              have hreach := reaches_concat.mpr ⟨hpath, hopen, hskip⟩
              rw [foundAt, filesAt_of_file hentry hreach]
              exact .file hentry
          | directory =>
              rw [isDirectory_eq_true_iff.mpr hentry] at hskip
              refine ih _ ?_ hentry (isOpen_concat.mpr ⟨hopen, hskip⟩) rfl
              have hlength := hdepth _ _ hentry
              simp only [List.length_append, List.length_singleton] at hlength hrest ⊢
              omega

/-- A walk, done directory by directory: nothing is found where the path of the start does not
lead to something in the project. -/
def WalksFrom (p : Project) (gitignore : Bool) (start : List Char) (files : List FoundFile) :
    Prop :=
  match p.locate start with
  | .ok (.inside base) => p.Walks (p.ignoreTable gitignore start base) start base [] files
  | .ok .outside | .error _ => files = []

/-- The files that a walk finds, none if it fails. -/
def walked (p : Project) (gitignore : Bool) (start : List Char) : List FoundFile :=
  match p.walk gitignore start with
  | .ok found => found.files
  | .error _ => []

/-- Whether there is something at a place. -/
def existsAt (p : Project) : Place → Prop
  | .inside loc => (p.find? loc).isSome = true
  | .outside => True

theorem existsAt_up {place : Place} (h : p.existsAt place) : p.existsAt place.up := by
  cases place with
  | outside => trivial
  | inside loc =>
      rcases List.eq_nil_or_concat loc with rfl | ⟨dir, name, rfl⟩
      · trivial
      · rw [List.concat_eq_append] at h ⊢
        obtain ⟨entry, hentry⟩ := Option.isSome_iff_exists.mp h
        have hup : (Place.inside (dir ++ [name])).up = .inside dir := by
          cases dir with
          | nil => rfl
          | cons first dir => exact congrArg Place.inside List.dropLast_concat
        rw [hup]
        show (p.find? dir).isSome = true
        rw [(placed_of_find? hentry).2]
        rfl

theorem existsAt_of_next {place other : Place} {step : List Char} (hplace : p.existsAt place)
    (h : p.next place step = .ok other) : p.existsAt other := by
  unfold next at h
  split_ifs at h with hdir hcurrent hparent hlong
  · cases h
    exact hplace
  · cases h
    exact existsAt_up hplace
  · cases place with
    | outside => cases h
    | inside loc =>
        dsimp only at h
        split_ifs at h with hnone
        cases h
        simpa [existsAt, Option.isSome_iff_ne_none] using hnone

/-- **Where a path leads, there is something.** -/
theorem existsAt_of_locate {path : List Char} {place : Place} (h : p.locate path = .ok place) :
    p.existsAt place := by
  have hfollow : ∀ (steps : List (List Char)) (place other : Place), p.existsAt place →
      p.follow place steps = .ok other → p.existsAt other := by
    intro steps
    induction steps with
    | nil =>
        intro place other hplace h
        cases h
        exact hplace
    | cons step steps ih =>
        intro place other hplace h
        rw [follow, List.foldlM_cons] at h
        obtain ⟨between, hnext, h⟩ := bind_eq_ok.mp h
        exact ih between other (existsAt_of_next hplace hnext) h
  obtain ⟨-, -, h⟩ := bind_eq_ok.mp h
  refine hfollow _ _ _ ?_ h
  unfold startOf
  split
  · trivial
  · rfl

theorem ne_nil_of_locate {path : List Char} {place : Place} (h : p.locate path = .ok place) :
    path ≠ [] := by
  rintro rfl
  cases h

/-- **A walk finds what is found directory by directory.** -/
theorem walksFrom_iff {gitignore : Bool} {files : List FoundFile} :
    p.WalksFrom gitignore start files ↔ files = p.walked gitignore start := by
  cases hplace : p.locate start with
  | error fault => simp [WalksFrom, walked, walk, hplace, bind, Except.bind]
  | ok place =>
      cases place with
      | outside => simp [WalksFrom, walked, walk, hplace, bind, Except.bind, pure, Except.pure]
      | inside base =>
          obtain ⟨entry, hentry⟩ := Option.isSome_iff_exists.mp (existsAt_of_locate hplace)
          have hbase : p.find? (base ++ []) = some entry := by rwa [List.append_nil]
          suffices p.Walks (p.ignoreTable gitignore start base) start base []
              (p.walked gitignore start) by
            simp only [WalksFrom, hplace]
            constructor
            · intro h
              exact h.unique this
            · rintro rfl
              exact this
          cases entry with
          | file content =>
              have hwalked : p.walked gitignore start =
                  [⟨IgnoreTable.pathFrom start [], content⟩] := by
                simp [walked, walk, hplace, bind, Except.bind, pure, Except.pure, content?, hentry,
                  IgnoreTable.pathFrom]
              rw [hwalked]
              exact .file hbase
          | directory =>
              have hwalked : p.walked gitignore start =
                  p.foundAt (p.ignoreTable gitignore start base) start base [] := by
                simp [walked, walk, hplace, bind, Except.bind, pure, Except.pure, content?, hentry,
                  found, foundAt, filesAt]
              rw [hwalked]
              exact walks_foundAt hbase rfl

/-- **The paths of a walk ascend.** -/
theorem pairwise_walked (p : Project) (gitignore : Bool) (start : List Char) :
    (p.walked gitignore start).Pairwise fun f g => Path.Before f.path g.path := by
  have hwalk : p.WalksFrom gitignore start (p.walked gitignore start) := walksFrom_iff.mpr rfl
  unfold WalksFrom at hwalk
  split at hwalk
  · rename_i hplace
    exact hwalk.pairwise (ne_nil_of_locate hplace)
  · rw [hwalk]
    exact .nil
  · rw [hwalk]
    exact .nil

end Project

end AtomicCss
