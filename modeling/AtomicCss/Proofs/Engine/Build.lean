/-
A build has one rule for each class in use.

Four stages might lose or merge a class: reading the files, listing each text once,
resolving with a memory, and the stylesheet, which drops a rule whose wrappers and selector
it has seen.  The first two are exact by `Scan.mem_of`, the third by `Engine.build_fst`.
The last drops nothing at all, because no two classes have rules with one selector.

The order comes through the stages in the same way: texts are found by first occurrence,
resolving keeps their order, and the stylesheet only regroups them by category.
-/
import AtomicCss.Proofs.Engine.Sound
import AtomicCss.Proofs.Selector.Rule
import AtomicCss.Proofs.Sheet.Order
import AtomicCss.Proofs.Source.Scan

namespace AtomicCss

/-- One rule for each of the texts that have one, in the order of a stylesheet. -/
structure OnePerClass (rule? : String → Option ClassRule) (texts : List String)
    (rules : List ClassRule) : Prop where
  /-- No class is lost, and nothing else has a rule. -/
  mem_iff : ∀ t r, (r ∈ rules ∧ r.literal = t) ↔ t ∈ texts ∧ rule? t = some r
  /-- No class has two rules. -/
  nodup : (rules.map (·.literal)).Nodup
  /-- Rules are ordered by category, then by the first occurrence of their class. -/
  ordered : rules.Pairwise fun r s =>
    r.category.rank < s.category.rank ∨
      r.category = s.category ∧ texts.idxOf r.literal < texts.idxOf s.literal

variable (ruleset : Ruleset) {texts found : List String}

theorem pairwise_filterMap_rule?
    (hordered : found.Pairwise fun a b => texts.idxOf a < texts.idxOf b) :
    (found.filterMap ruleset.rule?).Pairwise fun r s =>
      texts.idxOf r.literal < texts.idxOf s.literal := by
  refine List.pairwise_filterMap.mpr (hordered.imp fun {a b} hab r hr s hs => ?_)
  rwa [ClassRule.literal_eq hr, ClassRule.literal_eq hs]

theorem onePerClass_byCategory (hmem : ∀ t, t ∈ found ↔ t ∈ texts)
    (hordered : found.Pairwise fun a b => texts.idxOf a < texts.idxOf b) :
    OnePerClass ruleset.rule? texts (ClassRule.byCategory (found.filterMap ruleset.rule?)) := by
  have hpairwise :=
    ClassRule.pairwise_byCategory (pairwise_filterMap_rule? ruleset hordered)
  refine ⟨fun t r => ?_, ?_, hpairwise⟩
  · rw [ClassRule.mem_byCategory, List.mem_filterMap, ← hmem]
    constructor
    · rintro ⟨⟨t', ht', hr⟩, hliteral⟩
      obtain rfl : t' = t := (ClassRule.literal_eq hr).symm.trans hliteral
      exact ⟨ht', hr⟩
    · rintro ⟨ht, hr⟩
      exact ⟨⟨t, ht, hr⟩, ClassRule.literal_eq hr⟩
  · -- Rules of one text would differ in category or in where the text stands first.
    refine List.pairwise_map.mpr ((List.Pairwise.and_mem.mp hpairwise).imp ?_)
    rintro r s ⟨hr, hs, hlt⟩ heq
    obtain ⟨t, -, hr⟩ := List.mem_filterMap.mp (ClassRule.mem_byCategory.mp hr)
    obtain ⟨u, -, hs⟩ := List.mem_filterMap.mp (ClassRule.mem_byCategory.mp hs)
    obtain rfl : t = u := by rw [← ClassRule.literal_eq hr, heq, ClassRule.literal_eq hs]
    obtain rfl : r = s := Option.some.inj (hr.symm.trans hs)
    rcases hlt with hlt | ⟨-, hlt⟩ <;> exact Nat.lt_irrefl _ hlt

theorem pairwise_selector_ne (hnodup : found.Nodup) :
    (found.filterMap ruleset.rule?).Pairwise fun r s => r.selector ≠ s.selector := by
  refine List.pairwise_filterMap.mpr (hnodup.imp fun {t u} hne r hr s hs heq => ?_)
  exact hne (ClassRule.eq_of_selector_eq hr hs heq)

theorem OnePerClass.nodup_selectors {ruleset : Ruleset} {rules : List ClassRule}
    (h : OnePerClass ruleset.rule? texts rules) : (rules.map (·.selector)).Nodup := by
  have hnodup := List.pairwise_map.mp h.nodup
  refine List.pairwise_map.mpr ((List.Pairwise.and_mem.mp hnodup).imp ?_)
  rintro r s ⟨hr, hs, hne⟩ heq
  obtain ⟨-, hr⟩ := (h.mem_iff r.literal r).mp ⟨hr, rfl⟩
  obtain ⟨-, hs⟩ := (h.mem_iff s.literal s).mp ⟨hs, rfl⟩
  exact hne (ClassRule.eq_of_selector_eq hr hs heq)

namespace Engine

variable {options : EngineOptions} {e : Engine}

/-- A build that is not cancelled, in terms of the scan of its selection. -/
theorem build_eq_ok (h : e.Sound options) {project : Project} {c : Cancellation} {b : Build}
    (hbuild : (e.build project c).1 = .ok b) :
    b.stylesheet = e.sheetOf (((Scan.of (e.selection project)).candidates.map (·.text)).filterMap
      e.ruleset.rule?) ∧ b.warnings = (Scan.of (e.selection project)).warnings := by
  rw [build_fst] at hbuild
  obtain ⟨_, -, rfl⟩ := map_eq_ok.mp hbuild
  rw [finished, h.answer_eq]
  exact ⟨rfl, rfl⟩

/--
**A build emits exactly one rule for each class in use.**  The rules of its stylesheet are
those of the texts that the selected readable files hold and that have a rule, one for each
text, by category and then by first occurrence.  No two of them share a selector.  The
warnings are about the selection and the files that cannot be read, whatever the texts are.
-/
theorem build_onePerClass (h : e.Reached options) (project : Project) :
    (∃ b, (e.build project .never).1 = .ok b) ∧
      ∀ c b, (e.build project c).1 = .ok b →
        ∃ rules,
          OnePerClass e.ruleset.rule? (e.selection project).texts rules ∧
          b.stylesheet.rules = rules.map ClassRule.toRule ∧
          (b.stylesheet.rules.map (·.selector)).Nodup ∧
          b.warnings = (e.selection project).warnings ++
            (e.selection project).files.filterMap FoundFile.unreadable? := by
  refine ⟨exists_build_never e project, fun c b hbuild => ?_⟩
  obtain ⟨hsheet, hwarnings⟩ := build_eq_ok h.sound hbuild
  have hordered := Scan.ordered_of (e.selection project)
  have hnodup := Scan.nodup_of (e.selection project)
  have hmem := fun t => Scan.mem_of (s := e.selection project) (t := t)
  generalize (Scan.of (e.selection project)).candidates.map (·.text) = found at *
  have hne := pairwise_selector_ne e.ruleset hnodup
  have hone := onePerClass_byCategory e.ruleset hmem hordered
  have hrules : b.stylesheet.rules = (ClassRule.byCategory (found.filterMap
      e.ruleset.rule?)).map ClassRule.toRule := by
    rw [hsheet]
    exact Stylesheet.rules_ofRules e.options.style hne
  refine ⟨_, hone, hrules, ?_, hwarnings.trans (Scan.warnings_of _)⟩
  rw [hrules, List.map_map]
  exact hone.nodup_selectors

/-- A class stands twice in a file, once with a modifier, beside a word that is none. -/
theorem build_onePerClass_repeated :
    let e := plain ["a"]
    let project := Project.ofEntries [("a", .file "z-10 hover:z-10 other z-10".toUTF8)]
    e.Reached {} ∧
      ∃ b rules, (e.build project .never).1 = .ok b ∧
        OnePerClass e.ruleset.rule? (e.selection project).texts rules ∧
        b.stylesheet.rules = rules.map ClassRule.toRule := by
  intro e project
  have h : e.Reached {} := .start (ofConfig_plain (by decide))
  obtain ⟨⟨b, hbuild⟩, hall⟩ := build_onePerClass h project
  obtain ⟨rules, hone, hrules, -⟩ := hall .never b hbuild
  exact ⟨h, b, rules, hbuild, hone, hrules⟩

end Engine

end AtomicCss
