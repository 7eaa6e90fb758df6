/-
Listing the classes and building their stylesheet agree.

Both commands make an engine of the same configuration and scan the same selection, so they
fail alike and start from the same texts.  Then they part: one looks up each text, keeps those
that have a rule and sorts them; the other looks up each text, keeps the rules, and a
stylesheet drops and regroups.  Nothing is lost on either way.  Sorting only changes the order,
and as a scan lists no text twice, the order it gives is strict.  The stylesheet drops
nothing, because no two classes have rules with one selector.
-/
import AtomicCss.Proofs.Command.Output
import AtomicCss.Proofs.Glob.Bytes
import AtomicCss.Proofs.Text.Line

namespace AtomicCss

/-- A stylesheet has the rule of a literal. -/
def Stylesheet.HasRuleOf (sheet : Stylesheet) (ruleset : Ruleset) (literal : String) : Prop :=
  ∃ r, ruleset.rule? literal = some r ∧ r.toRule ∈ sheet.rules

/-- A list of classes is that of a stylesheet. -/
structure Lists (ruleset : Ruleset) (classes : List String) (sheet : Stylesheet) : Prop where
  /-- By bytes, and without repetitions. -/
  ordered : classes.Pairwise fun s t => Glob.bytes s.toList < Glob.bytes t.toList
  /-- Exactly the literals that have a rule there. -/
  mem_iff : ∀ literal, literal ∈ classes ↔ sheet.HasRuleOf ruleset literal
  /-- There is no rule that is not of a class of the list. -/
  of_class : ∀ rule ∈ sheet.rules, ∃ t ∈ classes,
    (ruleset.rule? t).map ClassRule.toRule = some rule
  length_eq : classes.length = sheet.rules.length

/-! ### Sorted classes -/

theorem pairwise_bytes_mergeSort {classes : List String} (h : classes.Nodup) :
    (classes.mergeSort (· ≤ ·)).Pairwise fun s t =>
      Glob.bytes s.toList < Glob.bytes t.toList := by
  have hnodup : (classes.mergeSort (· ≤ ·)).Nodup :=
    (List.mergeSort_perm classes _).nodup_iff.mpr h
  have hsorted : (classes.mergeSort (· ≤ ·)).Pairwise fun s t => decide (s ≤ t) = true := by
    refine List.pairwise_mergeSort ?_ ?_ classes
    · intro a b c hab hbc
      exact decide_eq_true (String.le_trans (of_decide_eq_true hab) (of_decide_eq_true hbc))
    · intro a b
      rcases String.le_total a b with hab | hba
      · simp [hab]
      · simp [hba]
  refine (hsorted.and hnodup).imp fun {s t} hst => Glob.bytes_lt_bytes ?_
  have hle : s ≤ t := of_decide_eq_true hst.1
  by_contra hlt
  exact hst.2 (String.le_antisymm hle hlt)

/-- Printing classes without white space puts each on a line of its own. -/
theorem Command.displayLines_lines {classes : List String}
    (h : ∀ t ∈ classes, ∀ c ∈ t.toList, Source.isBarrier c = false) :
    Text.displayLines (lines classes).toList = classes.map String.toList := by
  have hlines : (lines classes).toList = (classes.map String.toList).flatMap (· ++ ['\n']) := by
    rw [lines, String.toList_join, List.flatMap_map, List.flatMap_map]
    refine List.flatMap_congr fun t _ => ?_
    rw [String.toList_append]
    rfl
  rw [hlines]
  refine Text.displayLines_flatMap_lineFeed fun cs hcs => ?_
  obtain ⟨t, ht, rfl⟩ := List.mem_map.mp hcs
  exact ⟨fun hmem => absurd (h t ht _ hmem) (by decide),
    fun hmem => absurd (h t ht _ hmem) (by decide)⟩

/-! ### The stylesheet of the classes -/

section

variable {ruleset : Ruleset} {found : List String}

/-- The rules of different texts are regrouped, and none is dropped. -/
theorem rules_sheet (style : Style) (h : found.Nodup) :
    (Stylesheet.ofRules style ((found.filterMap ruleset.rule?).map ClassRule.toRule)).rules =
      (ClassRule.byCategory (found.filterMap ruleset.rule?)).map ClassRule.toRule :=
  Stylesheet.rules_ofRules style (pairwise_selector_ne ruleset h)

theorem length_byCategory :
    (ClassRule.byCategory (found.filterMap ruleset.rule?)).length =
      (found.filter fun t => (ruleset.rule? t).isSome).length := by
  rw [(ClassRule.perm_byCategory _).length_eq, List.length_filterMap_eq_countP,
    List.countP_eq_length_filter]

/-- **Sorting the texts that have a rule lists the classes of their stylesheet.** -/
theorem lists_mergeSort (style : Style) (h : found.Nodup) :
    Lists ruleset ((found.filter fun t => (ruleset.rule? t).isSome).mergeSort (· ≤ ·))
      (.ofRules style ((found.filterMap ruleset.rule?).map ClassRule.toRule)) := by
  have hclass : ∀ {t}, t ∈ (found.filter fun t => (ruleset.rule? t).isSome).mergeSort (· ≤ ·) ↔
      t ∈ found ∧ ∃ r, ruleset.rule? t = some r := fun {t} => by
    rw [(List.mergeSort_perm _ _).mem_iff, List.mem_filter, Option.isSome_iff_exists]
  refine ⟨pairwise_bytes_mergeSort (h.filter _), fun t => ?_, fun rule hrule => ?_, ?_⟩
  · rw [hclass, Stylesheet.HasRuleOf, rules_sheet style h]
    constructor
    · rintro ⟨ht, r, hr⟩
      refine ⟨r, hr, List.mem_map_of_mem (ClassRule.mem_byCategory.mpr ?_)⟩
      exact List.mem_filterMap.mpr ⟨t, ht, hr⟩
    · rintro ⟨r, hr, hmem⟩
      obtain ⟨r', hr', heq⟩ := List.mem_map.mp hmem
      obtain ⟨u, hu, hu'⟩ := List.mem_filterMap.mp (ClassRule.mem_byCategory.mp hr')
      obtain rfl : u = t := ClassRule.eq_of_selector_eq hu' hr (congrArg Rule.selector heq)
      exact ⟨hu, r, hr⟩
  · rw [rules_sheet style h] at hrule
    obtain ⟨r, hr, rfl⟩ := List.mem_map.mp hrule
    obtain ⟨t, ht, hr⟩ := List.mem_filterMap.mp (ClassRule.mem_byCategory.mp hr)
    exact ⟨t, hclass.mpr ⟨ht, r, hr⟩, by rw [hr]; rfl⟩
  · rw [List.length_mergeSort, rules_sheet style h, List.length_map, length_byCategory]

end

/-! ### The commands -/

namespace Command

variable (project : Project) (flags : Flags)

/-- The texts that a command finds under a ruleset. -/
def textsOf (r : Ruleset) : List String :=
  (Scan.of (((engineOf flags r).selection project))).candidates.map (·.text)

theorem answer_engineOf (r : Ruleset) : (engineOf flags r).answer = r.rule? :=
  (Memo.agrees_new true).answerOf_eq

theorem runScan_eq (hout : flags.out = none) (hminify : flags.minify = false) :
    runScan project flags = (ruleset project flags).map fun r => {
      project
      stdout := lines (((textsOf project flags r).filter fun t =>
        (r.rule? t).isSome).mergeSort (· ≤ ·)) } := by
  have hflags : { flags with out := none, minify := false } = flags := by
    rw [← hout, ← hminify]
  rw [runScan, hflags, engine_eq]
  cases ruleset project flags with
  | error error => rfl
  | ok r =>
      simp only [Except.map, bind, Except.bind, Engine.scan_eq, Cancellation.never_pass,
        Engine.matching_fst, answer_engineOf]
      rfl

theorem runBuild_eq (hout : flags.out = none) :
    runBuild project flags = (ruleset project flags).map fun r => {
      project
      stdout := ((engineOf flags r).finished project).stylesheet.text } := by
  rw [runBuild, hout, engine_eq]
  cases ruleset project flags with
  | error error => rfl
  | ok r =>
      have hbuild : ((engineOf flags r).build project .never).1 =
          .ok ((engineOf flags r).finished project) := Engine.build_fst _ project .never
      simp only [Except.map, bind, Except.bind]
      generalize (engineOf flags r).build project .never = built at hbuild ⊢
      obtain ⟨result, e⟩ := built
      obtain rfl : result = _ := hbuild
      rfl

theorem stylesheet_finished (r : Ruleset) :
    ((engineOf flags r).finished project).stylesheet =
      .ofRules (engineOf flags r).options.style
        (((textsOf project flags r).filterMap r.rule?).map ClassRule.toRule) := by
  simp only [Engine.finished, Engine.sheetOf, answer_engineOf]
  rfl

/-- No text has white space in it, or another barrier. -/
theorem not_isBarrier_of_mem_textsOf {r : Ruleset} {t : String}
    (h : t ∈ textsOf project flags r) : ∀ c ∈ t.toList, Source.isBarrier c = false :=
  Selection.not_isBarrier_of_mem_texts (Scan.mem_of.mp h)

/--
**The classes that are listed are those of the stylesheet.**  Whatever the project, the
patterns, the configuration and the patterns of files to leave out are, either listing the
classes and building their stylesheet fail with one error, that of making the engine, or both
print what they found: the lines of the one are the literals that have a rule in the stylesheet
of the other, ordered by their bytes and without repetitions, and there are as many lines as
rules.
-/
theorem execute_scan_build (project : Project) (inputs : List String) (config : Option String)
    (ignore : List String) (minify : Bool) :
    let flags : Flags := { inputs, config, ignore }
    let listed := execute project (.run .scan flags)
    let built := execute project (.run .build { flags with minify })
    (∃ error, engine project { flags with minify } = .error error ∧
      listed = .error error ∧ built = .error error) ∨
      ∃ e b out classes,
        engine project { flags with minify } = .ok e ∧
        (e.build project .never).1 = .ok b ∧
        built = .ok { project, stdout := b.stylesheet.text } ∧
        listed = .ok out ∧ out.project = project ∧
        Text.displayLines out.stdout.toList = classes.map String.toList ∧
        Lists e.ruleset classes b.stylesheet := by
  intro flags listed built
  have hlisted : listed = _ := runScan_eq project flags rfl rfl
  have hbuilt : built = _ := runBuild_eq project { flags with minify } rfl
  have hengine := engine_eq project { flags with minify }
  have hruleset : ruleset project { flags with minify } = ruleset project flags := rfl
  rw [hruleset] at hbuilt hengine
  cases hr : ruleset project flags with
  | error error =>
      rw [hr] at hlisted hbuilt hengine
      exact .inl ⟨error, hengine, hlisted, hbuilt⟩
  | ok r =>
      rw [hr] at hlisted hbuilt hengine
      have hnodup : (textsOf project flags r).Nodup := Scan.nodup_of _
      refine .inr ⟨engineOf { flags with minify } r, _, _, _, hengine,
        Engine.build_fst _ project .never, hbuilt, hlisted, rfl, displayLines_lines ?_, ?_⟩
      · intro t ht
        have hmem := (List.mergeSort_perm _ _).mem_iff.mp ht
        exact not_isBarrier_of_mem_textsOf project flags (List.mem_filter.mp hmem).1
      · rw [stylesheet_finished]
        exact lists_mergeSort _ hnodup

end Command

end AtomicCss
