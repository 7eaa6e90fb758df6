/-
The files that a scan reads.

A scan reads the selected files whose paths are not too long and whose content is text.
From the current directory each of them is found at its location in the project.
-/
import AtomicCss.Proofs.Project.Location
import AtomicCss.Proofs.Source.Ignored
import AtomicCss.Source.Scan

namespace AtomicCss

/-- Whether a file can be read. -/
def FoundFile.isReadable (f : FoundFile) : Bool :=
  f.text.toOption.isSome

theorem FoundFile.isPathLength_of_isReadable {f : FoundFile} (h : f.isReadable = true) :
    Path.isPathLength f.path = true := by
  unfold isReadable text at h
  split at h
  · assumption
  · cases h

namespace Selection

open Source

/-- The files of a selection that are read. -/
def read (s : Selection) : List FoundFile :=
  s.files.filter FoundFile.isReadable

theorem filesScanned_of (s : Selection) : (Scan.of s).filesScanned = s.read.length := by
  have hread (f : FoundFile) : (Scan.candidatesOf f).toOption.isSome = f.isReadable := by
    unfold Scan.candidatesOf FoundFile.isReadable
    cases f.text <;> rfl
  show (s.files.filterMap fun f => (Scan.candidatesOf f).toOption).length = _
  rw [List.length_filterMap_eq_countP, read, ← List.countP_eq_length_filter]
  simp only [hread]

variable {project : Project} {options : ScanOptions} {patterns : List String}

/-- What is left out is not read, and everything else is as before. -/
theorem read_eq_filter : (of project options patterns).read =
    (of project { options with ignore := [] } patterns).read.filter fun f =>
      !leavesOut options.ignore options.base.toList f.path := by
  simp only [read, files_eq_filter project options patterns, List.filter_filter, Bool.and_comm]

theorem exists_findsAt (hbase : options.base = ".") {f : FoundFile}
    (hf : f ∈ (of project options patterns).files) : ∃ loc, project.FindsAt loc f := by
  rw [files_of] at hf
  obtain ⟨⟨p, g⟩, -, hselected⟩ := List.mem_flatMap.mp ((distinctOn_sublist _ _).subset hf)
  have hfile := List.mem_of_mem_filter hselected
  unfold Source.files at hfile
  rw [hbase] at hfile
  simp only at hfile
  split at hfile
  · cases hfile
  · rename_i found hwalk
    exact Project.exists_findsAt_of_mem_walk hwalk (List.mem_of_mem_filter hfile)

end Selection

end AtomicCss
