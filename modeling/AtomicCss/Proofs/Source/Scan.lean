/-
What a scan finds, said without the scan.

The candidates of a selection are those of its readable files, one file after the other and
each in the order of its candidates.  A scan lists exactly their texts, each at its first
occurrence, and warns of exactly the files that are no text.
-/
import AtomicCss.Proofs.Distinct
import AtomicCss.Proofs.Source.Candidate
import AtomicCss.Source.Scan

namespace AtomicCss

namespace FoundFile

/-- The candidates of a file, none if the file cannot be read. -/
def candidates (f : FoundFile) : List FoundCandidate :=
  match f.text with
  | .ok text => (Source.candidates text.toList).map fun c => { c with path := String.ofList f.path }
  | .error _ => []

/-- The texts of a file's candidates, none if the file cannot be read. -/
def texts (f : FoundFile) : List String :=
  match f.text with
  | .ok text => (Source.candidates text.toList).map (·.text)
  | .error _ => []

/-- The warning about a file that cannot be read. -/
def unreadable? (f : FoundFile) : Option Warning :=
  match f.text with
  | .ok _ => none
  | .error fault => some (.unreadable (String.ofList f.path) fault)

theorem map_text_candidates (f : FoundFile) : f.candidates.map (·.text) = f.texts := by
  unfold candidates texts
  cases f.text with
  | error fault => rfl
  | ok text =>
      dsimp only
      rw [List.map_map]
      rfl

theorem path_of_mem_candidates {f : FoundFile} {c : FoundCandidate} (h : c ∈ f.candidates) :
    c.path = String.ofList f.path := by
  unfold candidates at h
  split at h
  · obtain ⟨found, -, rfl⟩ := List.mem_map.mp h
    rfl
  · cases h

theorem mem_texts {f : FoundFile} {t : String} :
    t ∈ f.texts ↔
      ∃ text, f.text = .ok text ∧ t ∈ (Source.candidates text.toList).map (·.text) := by
  unfold texts
  cases f.text with
  | error fault => simp
  | ok text => simp

end FoundFile

/-- The candidates of all files, repetitions included. -/
def Selection.candidates (s : Selection) : List FoundCandidate :=
  s.files.flatMap FoundFile.candidates

/-- The texts of the candidates of all files, repetitions included. -/
def Selection.texts (s : Selection) : List String :=
  s.files.flatMap FoundFile.texts

theorem Selection.map_text_candidates (s : Selection) : s.candidates.map (·.text) = s.texts := by
  rw [candidates, List.map_flatMap, texts]
  exact List.flatMap_congr fun f _ => f.map_text_candidates

/-- No text has white space in it, or another barrier. -/
theorem Selection.not_isBarrier_of_mem_texts {s : Selection} {t : String} (h : t ∈ s.texts) :
    ∀ c ∈ t.toList, Source.isBarrier c = false := by
  obtain ⟨f, -, hf⟩ := List.mem_flatMap.mp h
  obtain ⟨text, -, hmem⟩ := FoundFile.mem_texts.mp hf
  obtain ⟨candidate, hcandidate, rfl⟩ := List.mem_map.mp hmem
  exact Source.not_isBarrier_of_mem_candidates hcandidate

namespace Scan

theorem failure?_eq (f : FoundFile) : failure? f = f.unreadable? := by
  unfold failure? candidatesOf FoundFile.unreadable?
  cases f.text <;> rfl

theorem getD_candidatesOf (f : FoundFile) : ((candidatesOf f).toOption).getD [] = f.candidates := by
  unfold candidatesOf FoundFile.candidates
  cases f.text <;> rfl

/-- **A scan lists the candidates of all files, each text where it stands first.** -/
theorem candidates_of (s : Selection) :
    (Scan.of s).candidates = distinctOn (·.text) s.candidates := by
  have hread : (s.files.filterMap fun f => (candidatesOf f).toOption).flatten = s.candidates := by
    rw [Selection.candidates]
    induction s.files with
    | nil => rfl
    | cons f files ih =>
        rw [List.flatMap_cons, ← ih, ← getD_candidatesOf, List.filterMap_cons]
        cases (candidatesOf f).toOption <;> rfl
  exact congrArg (distinctOn _) hread

theorem ordered_of (s : Selection) :
    ((Scan.of s).candidates.map (·.text)).Pairwise fun a b =>
      s.texts.idxOf a < s.texts.idxOf b := by
  rw [candidates_of, ← s.map_text_candidates]
  exact distinctOn_ordered _ _

theorem nodup_of (s : Selection) : ((Scan.of s).candidates.map (·.text)).Nodup := by
  rw [candidates_of]
  exact nodup_distinctOn _ _

theorem mem_of {s : Selection} {t : String} :
    t ∈ (Scan.of s).candidates.map (·.text) ↔ t ∈ s.texts := by
  rw [candidates_of, mem_keys_distinctOn, s.map_text_candidates]

theorem warnings_of (s : Selection) :
    (Scan.of s).warnings = s.warnings ++ s.files.filterMap FoundFile.unreadable? := by
  show _ ++ s.files.filterMap failure? = _
  rw [funext failure?_eq]

end Scan

end AtomicCss
