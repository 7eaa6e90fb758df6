/-
Project directories.

Everything below a project's directory is known by its location, the list of names
that leads to it.  The entries are listed in the order of their locations, so a
directory comes directly before what it holds and what it holds is ordered by name.
Every entry lies in a directory of the project; an operation that cannot keep that
changes nothing.
-/
import AtomicCss.Project.Path
import AtomicCss.SortedMap

namespace AtomicCss

/-- Where something lies: the names that lead there from the project's directory. -/
abbrev Location := List String

/-- What can lie at a location. -/
inductive Entry
  | directory
  | file (content : ByteArray)

/-- Whether a text can be the name of an entry. -/
def isName (name : String) : Bool :=
  name != "" && name != "." && name != ".." && !name.toList.contains '/' &&
    !name.toList.contains '\x00' && Path.isNameLength name.toList

/-- The entry at a location among others; the project's directory itself is always
there. -/
def entryAt? (entries : SortedMap Location Entry) : Location → Option Entry
  | [] => some .directory
  | loc => entries.find? loc

/-- The content of a directory, at all depths. -/
structure Project where
  entries : SortedMap Location Entry
  /-- Every entry has a name and lies in a directory. -/
  placed : ∀ loc entry, entries.find? loc = some entry →
    ∃ dir name, loc = dir ++ [name] ∧ isName name = true ∧
      entryAt? entries dir = some .directory

namespace Project

/-- The directory without content. -/
def empty : Project :=
  ⟨∅, by simp⟩

instance : Inhabited Project := ⟨empty⟩

/-- What lies at a location. -/
def find? (p : Project) (loc : Location) : Option Entry :=
  entryAt? p.entries loc

/-- Whether a location is a directory. -/
def isDirectory (p : Project) (loc : Location) : Bool :=
  match p.find? loc with
  | some .directory => true
  | _ => false

theorem isDirectory_eq_true_iff {p : Project} {loc : Location} :
    p.isDirectory loc = true ↔ p.find? loc = some .directory := by
  unfold isDirectory
  split <;> simp_all

/-- The content of the file at a location. -/
def content? (p : Project) (loc : Location) : Option ByteArray :=
  match p.find? loc with
  | some (.file content) => some content
  | _ => none

/-- An entry of its name can be put into `dir`: there is such a directory, and no other
one in the entry's place. -/
def CanPut (p : Project) (dir : Location) (name : String) : Prop :=
  isName name = true ∧ p.isDirectory dir = true ∧ p.isDirectory (dir ++ [name]) = false

instance (p : Project) (dir : Location) (name : String) : Decidable (p.CanPut dir name) :=
  inferInstanceAs (Decidable (_ ∧ _ ∧ _))

theorem entryAt?_insert (entries : SortedMap Location Entry) (dir : Location)
    (name : String) (entry : Entry) (loc : Location) :
    entryAt? (entries.insert (dir ++ [name]) entry) loc =
      if loc = dir ++ [name] then some entry else entryAt? entries loc := by
  cases loc with
  | nil => simp [entryAt?]
  | cons n loc =>
    simp only [entryAt?, SortedMap.find?_insert, Std.LawfulEqCmp.compare_eq_iff_eq]

/-- Puts an entry into a directory, in place of a file of that name. -/
def put (p : Project) (dir : Location) (name : String) (entry : Entry) : Project :=
  if h : p.CanPut dir name then
    ⟨p.entries.insert (dir ++ [name]) entry, by
      obtain ⟨hname, hdir, hfree⟩ := h
      have hdir : entryAt? p.entries dir = some .directory := isDirectory_eq_true_iff.mp hdir
      have hfree : entryAt? p.entries (dir ++ [name]) ≠ some .directory := by
        intro h
        rw [isDirectory_eq_true_iff.mpr h] at hfree
        cases hfree
      have keep : ∀ loc, entryAt? p.entries loc = some .directory →
          entryAt? (p.entries.insert (dir ++ [name]) entry) loc = some .directory := by
        intro loc hloc
        rw [entryAt?_insert, if_neg, hloc]
        rintro rfl
        exact hfree hloc
      intro loc e hloc
      rw [SortedMap.find?_insert] at hloc
      split at hloc
      · rename_i heq
        exact ⟨dir, name, Std.LawfulEqCmp.compare_eq_iff_eq.mp heq, hname, keep dir hdir⟩
      · obtain ⟨dir', name', hl, hn, hd⟩ := p.placed loc e hloc
        exact ⟨dir', name', hl, hn, keep dir' hd⟩⟩
  else p

/-- What lies at a location after an entry was put somewhere. -/
theorem find?_put (p : Project) {dir : Location} {name : String} (h : p.CanPut dir name)
    (entry : Entry) (loc : Location) :
    (p.put dir name entry).find? loc =
      if loc = dir ++ [name] then some entry else p.find? loc := by
  unfold put
  rw [dif_pos h]
  exact entryAt?_insert p.entries dir name entry loc

theorem entryAt?_erase (entries : SortedMap Location Entry) (gone : Location)
    (hgone : gone ≠ []) (loc : Location) :
    entryAt? (entries.erase gone) loc = if loc = gone then none else entryAt? entries loc := by
  cases loc with
  | nil => simp [entryAt?, Ne.symm hgone]
  | cons n loc => simp only [entryAt?, SortedMap.find?_erase, Std.LawfulEqCmp.compare_eq_iff_eq]

/-- Removes the file at a location, if there is one. -/
def removeFile (p : Project) (gone : Location) : Project :=
  if h : (p.content? gone).isSome = true then
    ⟨p.entries.erase gone, by
      have hgone : gone ≠ [] := by
        rintro rfl
        cases h
      have hfile : entryAt? p.entries gone ≠ some .directory := by
        intro hd
        simp [content?, find?, hd] at h
      intro loc e hloc
      rw [SortedMap.find?_erase] at hloc
      split at hloc
      · cases hloc
      · obtain ⟨dir, name, hl, hn, hd⟩ := p.placed loc e hloc
        refine ⟨dir, name, hl, hn, ?_⟩
        rw [entryAt?_erase _ _ hgone, if_neg, hd]
        rintro rfl
        exact hfile hd⟩
  else p

end Project

end AtomicCss
