/-
What a scan makes of its files.

A scan goes through the selected files in order and passes over those that cannot be read.  What a
file adds are its candidates whose texts no file before it has, each text where it stands first
(`Scan.of_concat`).  So every text belongs to one file, the first that has it, and is listed with
the path of that file and a line of it.

A file that cannot be read adds a warning and nothing else.  The warning says which file it is and
that it is no text, or that its path is too long, so nothing of the bytes is left in it.
-/
import AtomicCss.Proofs.Source.Read
import AtomicCss.Proofs.Source.Scan

namespace AtomicCss

namespace FoundFile

theorem candidates_of_not_isReadable {f : FoundFile} (h : f.isReadable = false) :
    f.candidates = [] := by
  unfold isReadable at h
  unfold candidates
  cases htext : f.text with
  | error fault => rfl
  | ok text =>
      rw [htext] at h
      cases h

theorem isSome_unreadable? (f : FoundFile) : f.unreadable?.isSome = !f.isReadable := by
  unfold unreadable? isReadable
  cases f.text <;> rfl

theorem text_eq_of_not_isReadable {path : List Char} {content other : ByteArray}
    (h : isReadable ⟨path, content⟩ = false) (hother : isReadable ⟨path, other⟩ = false) :
    text ⟨path, content⟩ = text ⟨path, other⟩ := by
  have hfault : ∀ bytes, isReadable ⟨path, bytes⟩ = false → text ⟨path, bytes⟩ =
      .error (if Path.isPathLength path then .notText else .nameTooLong) := by
    intro bytes hbytes
    unfold isReadable at hbytes
    unfold text at hbytes ⊢
    by_cases hpath : Path.isPathLength path = true
    · rw [if_pos hpath] at hbytes
      rw [if_pos hpath, if_pos hpath]
      unfold Project.decodeText at hbytes ⊢
      cases hdecode : String.fromUTF8? bytes with
      | none => rfl
      | some text =>
          rw [hdecode] at hbytes
          cases hbytes
    · rw [if_neg hpath, if_neg hpath]
  rw [hfault content h, hfault other hother]

end FoundFile

theorem Selection.candidates_eq_read (s : Selection) :
    s.candidates = s.read.flatMap FoundFile.candidates := by
  rw [candidates, read]
  induction s.files with
  | nil => rfl
  | cons f files ih =>
      cases h : f.isReadable with
      | true => rw [List.filter_cons_of_pos h, List.flatMap_cons, List.flatMap_cons, ih]
      | false =>
          rw [List.filter_cons_of_neg (by simp [h]), List.flatMap_cons,
            FoundFile.candidates_of_not_isReadable h, List.nil_append, ih]

namespace Scan

/-- **What one more file adds to a scan.** -/
theorem of_concat (files : List FoundFile) (f : FoundFile) (warnings : List Warning) :
    Scan.of ⟨files ++ [f], warnings⟩ =
      let before := Scan.of ⟨files, warnings⟩
      { candidates := before.candidates ++
          (distinctOn (·.text) f.candidates).filter (·.text ∉ files.flatMap FoundFile.texts)
        warnings := before.warnings ++ f.unreadable?.toList
        filesScanned := before.filesScanned + if f.isReadable then 1 else 0 } := by
  have htexts := Selection.map_text_candidates ⟨files, warnings⟩
  have hcandidates : (Scan.of ⟨files ++ [f], warnings⟩).candidates =
      (Scan.of ⟨files, warnings⟩).candidates ++
        (distinctOn (·.text) f.candidates).filter (·.text ∉ files.flatMap FoundFile.texts) := by
    have hbehind : (Selection.mk (files ++ [f]) warnings).candidates =
        (Selection.mk files warnings).candidates ++ f.candidates := by
      simp [Selection.candidates]
    rw [candidates_of, candidates_of, hbehind, distinctOn_append, htexts]
    rfl
  have hwarnings : (Scan.of ⟨files ++ [f], warnings⟩).warnings =
      (Scan.of ⟨files, warnings⟩).warnings ++ f.unreadable?.toList := by
    rw [warnings_of, warnings_of, List.filterMap_append, ← List.append_assoc]
    cases h : f.unreadable? <;> simp [h]
  have hscanned : (Scan.of ⟨files ++ [f], warnings⟩).filesScanned =
      (Scan.of ⟨files, warnings⟩).filesScanned + if f.isReadable then 1 else 0 := by
    rw [Selection.filesScanned_of, Selection.filesScanned_of, Selection.read, Selection.read,
      List.filter_append, List.length_append]
    cases h : f.isReadable <;> simp [h]
  exact (Scan.mk.injEq ..).mpr ⟨hcandidates, hwarnings, hscanned⟩

/-- **Every text belongs to one file.**  A candidate is the first with its text in the first file
that has the text. -/
theorem mem_candidates_of_iff {s : Selection} {c : FoundCandidate} :
    c ∈ (Scan.of s).candidates ↔
      ∃ before f after, s.files = before ++ f :: after ∧ c.path = String.ofList f.path ∧
        (∀ earlier ∈ before, c.text ∉ earlier.texts) ∧
        f.candidates.find? (·.text == c.text) = some c := by
  have hnone (f : FoundFile) :
      f.candidates.find? (·.text == c.text) = none ↔ c.text ∉ f.texts := by
    rw [← f.map_text_candidates]
    simp [List.find?_eq_none]
  rw [candidates_of, mem_distinctOn_iff, Selection.candidates, List.find?_flatMap,
    List.findSome?_eq_some_iff]
  simp only [hnone]
  refine exists_congr fun before => exists_congr fun f => exists_congr fun after =>
    and_congr Iff.rfl ?_
  constructor
  · rintro ⟨hfound, hnew⟩
    exact ⟨FoundFile.path_of_mem_candidates (List.mem_of_find?_eq_some hfound), hnew, hfound⟩
  · rintro ⟨-, hnew, hfound⟩
    exact ⟨hfound, hnew⟩

/-- The bytes of a file that cannot be read make no difference. -/
theorem of_replace {path : List Char} {content other : ByteArray}
    (h : FoundFile.isReadable ⟨path, content⟩ = false)
    (hother : FoundFile.isReadable ⟨path, other⟩ = false) (before after : List FoundFile)
    (warnings : List Warning) :
    Scan.of ⟨before ++ ⟨path, content⟩ :: after, warnings⟩ =
      Scan.of ⟨before ++ ⟨path, other⟩ :: after, warnings⟩ := by
  have hsame : candidatesOf ⟨path, content⟩ = candidatesOf ⟨path, other⟩ := by
    unfold candidatesOf
    rw [FoundFile.text_eq_of_not_isReadable h hother]
  simp only [Scan.of, failure?, List.filterMap_append, List.filterMap_cons, hsame]

/-- What a scan has to be by what is selected. -/
structure Merges (s : Selection) (scan : Scan) : Prop where
  /-- Each text stands there once, with the path and the line of its first occurrence in the
  files that are read. -/
  candidates : scan.candidates =
    firstOccurrences (·.text) (s.read.flatMap FoundFile.candidates)
  /-- The warnings of the selection come first. -/
  warnings : scan.warnings = s.warnings ++ s.files.filterMap FoundFile.unreadable?
  /-- A file is read or reported. -/
  counted :
    scan.filesScanned + (s.files.filterMap FoundFile.unreadable?).length = s.files.length

theorem merges_of (s : Selection) : Merges s (Scan.of s) where
  candidates := by
    rw [candidates_of, distinctOn_eq_firstOccurrences, Selection.candidates_eq_read]
  warnings := warnings_of s
  counted := by
    rw [Selection.filesScanned_of, Selection.read, List.length_filterMap_eq_countP,
      ← List.countP_eq_length_filter]
    simp only [FoundFile.isSome_unreadable?]
    simpa using (List.length_eq_countP_add_countP FoundFile.isReadable (l := s.files)).symm

theorem Merges.unique {s : Selection} {a b : Scan} (ha : Merges s a) (hb : Merges s b) : a = b := by
  have hcounted := ha.counted.trans hb.counted.symm
  exact (Scan.mk.injEq ..).mpr ⟨ha.candidates.trans hb.candidates.symm,
    ha.warnings.trans hb.warnings.symm, Nat.add_right_cancel hcounted⟩

/--
**A scan merges what it reads.**  A scan that nobody cancels gives the one result that what is
selected leaves open: the candidates of the files that are read, file after file, with each text
where it stands first, and a warning for each of the other files.  A text belongs to the first
file that has it.  Which bytes keep a file from being read is of no account.
-/
theorem run_merges :
    (∀ project options patterns c rest,
      c.pass (checks (.of project options patterns)) = .ok rest →
      run project options patterns c = .ok (Scan.of (.of project options patterns), rest)) ∧
    (∀ s scan, Merges s scan ↔ scan = Scan.of s) ∧
    (∀ s c, c ∈ (Scan.of s).candidates ↔
      ∃ before f after, s.files = before ++ f :: after ∧ c.path = String.ofList f.path ∧
        (∀ earlier ∈ before, c.text ∉ earlier.texts) ∧
        f.candidates.find? (·.text == c.text) = some c) ∧
    ∀ before path content other after warnings,
      FoundFile.isReadable ⟨path, content⟩ = false → FoundFile.isReadable ⟨path, other⟩ = false →
      Scan.of ⟨before ++ ⟨path, content⟩ :: after, warnings⟩ =
        Scan.of ⟨before ++ ⟨path, other⟩ :: after, warnings⟩ := by
  refine ⟨fun project options patterns c rest hpass => ?_, fun s scan => ?_,
    fun s c => mem_candidates_of_iff,
    fun before path content other after warnings h hother => of_replace h hother before after _⟩
  · rw [run_eq, hpass]
    rfl
  · constructor
    · intro h
      exact h.unique (merges_of s)
    · rintro rfl
      exact merges_of s

/-- A text in two files, between them one that is no text. -/
theorem run_merges_shared :
    let project := Project.ofEntries [("a.html", .file "z-10\nflex-1".toUTF8),
      ("b.html", .file ⟨#[0xff]⟩), ("c.html", .file "flex-1 opacity-50".toUTF8)]
    let unread (content : ByteArray) : FoundFile := ⟨"./b.html".toList, content⟩
    let scan : Scan := {
      candidates := [⟨⟨"z-10", 1⟩, "./a.html"⟩, ⟨⟨"flex-1", 2⟩, "./a.html"⟩,
        ⟨⟨"opacity-50", 1⟩, "./c.html"⟩]
      warnings := [.unreadable "./b.html" .notText]
      filesScanned := 2 }
    Cancellation.never.pass (checks (.of project {} ["*.html"])) = .ok .never ∧
    run project {} ["*.html"] .never = .ok (scan, .never) ∧
    (unread ⟨#[0xff]⟩).isReadable = false ∧ (unread ⟨#[0xc0, 0x61]⟩).isReadable = false ∧
    Scan.of ⟨[unread ⟨#[0xff]⟩], []⟩ = Scan.of ⟨[unread ⟨#[0xc0, 0x61]⟩], []⟩ := by
  intro project unread scan
  have hbad : (unread ⟨#[0xff]⟩).isReadable = false := by decide +kernel
  have hother : (unread ⟨#[0xc0, 0x61]⟩).isReadable = false := by decide +kernel
  have hfiles : (Selection.of project {} ["*.html"]).files =
      Selection.inTurn project {} ["*.html"] := by
    rw [Selection.files_of, distinctOn_eq_self (by decide +kernel)]
  obtain ⟨hrun, hmerges, -, hreplace⟩ := run_merges
  have hscan : scan = Scan.of (.of project {} ["*.html"]) := by
    refine (hmerges _ _).mp ⟨?_, ?_, ?_⟩
    · rw [Selection.read, hfiles]
      decide +kernel
    · rw [hfiles]
      decide +kernel
    · rw [hfiles]
      decide +kernel
  refine ⟨Cancellation.never_pass _, ?_, hbad, hother, hreplace [] _ _ _ [] [] hbad hother⟩
  rw [hrun project {} ["*.html"] .never .never (Cancellation.never_pass _), hscan]

end Scan

end AtomicCss
