/-
What a command line asks for.

A command can be written in many ways: each option has its spellings, and its items can stand in
any order, except that the inputs and the patterns to leave out keep theirs.  `Arranges` says which
items these are, and all of them mean the command.  They are items that the subcommand has, so
every way to write the command is read back as this command.
-/
import AtomicCss.Proofs.Command.Line
import Mathlib.Data.List.Forall2

namespace AtomicCss.Command

/-- What a subcommand can be asked for. -/
structure CanAsk (task : Task) (flags : Flags) : Prop where
  inputs : ∀ text ∈ flags.inputs, IsInput text
  out : ∀ path ∈ flags.out, Flag.out.accepted task = true
  minify : flags.minify = true → Flag.minify.accepted task = true
  poll : flags.poll = true → Flag.poll.accepted task = true
  /-- Without polling there is no interval but the default one. -/
  pollInterval : ∀ n ∈ flags.pollInterval, flags.poll = true ∧ n < UInt64.size

/-- Items of a command in any order, except that the inputs are in theirs and so are the
patterns.  No value is there but those of the command. -/
structure Arranges (flags : Flags) (line : List Item) : Prop where
  inputs : inputsOf line = flags.inputs
  out : valuesOf .out line = flags.out.toList
  minify : .switch .minify ∈ line ↔ flags.minify = true
  config : valuesOf .config line = flags.config.toList
  ignore : valuesOf .ignore line = flags.ignore
  /-- Polling may be asked for by its interval alone. -/
  poll : .switch .poll ∈ line ∨ valuesOf .pollInterval line ≠ [] ↔ flags.poll = true
  pollInterval : List.Forall₂ IsNumeral (valuesOf .pollInterval line) flags.pollInterval.toList

variable {task : Task}

/-! ### Writing a command -/

theorem mem_inputsOf {text : String} {line : List Item} :
    text ∈ inputsOf line ↔ .input text ∈ line := by
  rw [inputsOf, List.mem_filterMap]
  constructor
  · rintro ⟨item, hitem, htext⟩
    cases item <;> cases htext
    exact hitem
  · exact fun h => ⟨_, h, rfl⟩

theorem mem_valuesOf {flag : Flag} {value : String} {line : List Item} :
    value ∈ valuesOf flag line ↔ .setting flag value ∈ line := by
  rw [valuesOf, List.mem_filterMap]
  constructor
  · rintro ⟨item, hitem, hvalue⟩
    cases item with
    | setting other text =>
        obtain ⟨rfl, rfl⟩ : other = flag ∧ text = value := by simpa [Item.value?] using hvalue
        exact hitem
    | _ => cases hvalue
  · exact fun h => ⟨_, h, by simp [Item.value?]⟩

theorem IsLine.exists_isWritten {line : List Item} {args : List String} (h : IsLine line args) :
    ∀ item ∈ line, ∃ part, item.IsWritten part := by
  induction h with
  | nil => simp
  | cons hitem _ ih => exact List.forall_mem_cons.mpr ⟨⟨_, hitem⟩, ih⟩

theorem exists_isLine {line : List Item} (h : ∀ item ∈ line, ∃ part, item.IsWritten part) :
    ∃ args, IsLine line args := by
  induction line with
  | nil => exact ⟨[], .nil⟩
  | cons item line ih =>
      obtain ⟨⟨part, hpart⟩, hline⟩ := List.forall_mem_cons.mp h
      obtain ⟨args, hargs⟩ := ih hline
      exact ⟨part ++ args, .cons hpart hargs⟩

namespace Arranges

variable {flags : Flags} {line : List Item}

theorem interval (h : Arranges flags line) :
    flags.pollInterval = none ∧ valuesOf .pollInterval line = [] ∨
      ∃ n text, flags.pollInterval = some n ∧ valuesOf .pollInterval line = [text] ∧
        IsNumeral text n := by
  have hvalues := h.pollInterval
  cases hn : flags.pollInterval with
  | none =>
      rw [hn] at hvalues
      exact .inl ⟨rfl, List.forall₂_nil_right_iff.mp hvalues⟩
  | some n =>
      rw [hn] at hvalues
      obtain ⟨text, rest, htext, hrest, heq⟩ := List.forall₂_cons_right_iff.mp hvalues
      rw [List.forall₂_nil_right_iff.mp hrest] at heq
      exact .inr ⟨n, text, rfl, heq, htext⟩

theorem means (h : Arranges flags line) : Means line flags := by
  have hlast : ∀ values : Option String, values.toList.getLast? = values := by
    intro values
    cases values <;> rfl
  constructor
  case inputs => exact h.inputs.symm
  case out => rw [h.out, hlast]
  case minify => exact h.minify.symm
  case config => rw [h.config, hlast]
  case ignore => exact h.ignore.symm
  case poll => exact h.poll.symm
  case pollInterval =>
    refine last_isNumeral_iff.mpr ?_
    rcases h.interval with ⟨hnone, hvalues⟩ | ⟨n, text, hsome, hvalues, htext⟩
    · rw [hnone, hvalues]
      rfl
    · rw [hsome, hvalues]
      exact (readNumber?_eq_some_iff.mpr htext).symm

/-- What a subcommand can be asked for is asked for with items that it has. -/
theorem fits (h : Arranges flags line) (hcan : CanAsk task flags)
    (hwritten : ∀ item ∈ line, ∃ part, item.IsWritten part) :
    ∀ item ∈ line, item.Fits task := by
  intro item hitem
  obtain ⟨part, hpart⟩ := hwritten item hitem
  cases hpart with
  | input text => exact hcan.inputs text (h.inputs ▸ mem_inputsOf.mpr hitem)
  | @switch flag arg hvalue harg =>
      cases flag
      case minify => exact hcan.minify (h.minify.mp hitem)
      case poll => exact hcan.poll (h.poll.mp (.inl hitem))
      all_goals cases hvalue
  | @setting flag arg value hvalue harg =>
      have hmem := mem_valuesOf.mpr hitem
      cases flag
      case out =>
        rw [h.out, Option.mem_toList] at hmem
        exact ⟨hcan.out value hmem, nofun⟩
      case config => exact ⟨rfl, nofun⟩
      case ignore => exact ⟨rfl, nofun⟩
      case pollInterval =>
        refine ⟨hcan.poll (h.poll.mp (.inr (List.ne_nil_of_mem hmem))), fun _ => ?_⟩
        rcases h.interval with ⟨-, hvalues⟩ | ⟨n, text, -, hvalues, htext⟩
        · rw [hvalues] at hmem
          cases hmem
        · rw [hvalues] at hmem
          obtain rfl := List.mem_singleton.mp hmem
          exact ⟨n, htext⟩
      all_goals cases hvalue

end Arranges

theorem Means.canAsk {line : List Item} {flags : Flags} (h : Means line flags)
    (hfits : ∀ item ∈ line, item.Fits task) : CanAsk task flags := by
  constructor
  case inputs =>
    intro text htext
    rw [h.inputs] at htext
    exact hfits _ (mem_inputsOf.mp htext)
  case out =>
    intro path hpath
    rw [h.out] at hpath
    exact (hfits _ (mem_valuesOf.mp (List.mem_of_getLast? hpath))).1
  case minify => exact fun hminify => hfits _ (h.minify.mp hminify)
  case poll =>
    intro hpoll
    rcases h.poll.mp hpoll with hswitch | hvalues
    · exact hfits _ hswitch
    · obtain ⟨value, hvalue⟩ := List.exists_mem_of_ne_nil _ hvalues
      exact (hfits _ (mem_valuesOf.mp hvalue)).1
  case pollInterval =>
    intro n hn
    obtain ⟨text, hlast, -, -, -, -, -, hlt⟩ := (h.pollInterval n).mp hn
    exact ⟨h.poll.mpr (.inr (List.ne_nil_of_mem (List.mem_of_getLast? hlast))), hlt⟩

/-- The items of a command, each option once. -/
def itemsOf (flags : Flags) : List Item :=
  flags.inputs.map .input ++
    (flags.out.toList.map (.setting .out) ++
      ((if flags.minify then [.switch .minify] else []) ++
        (flags.config.toList.map (.setting .config) ++
          (flags.ignore.map (.setting .ignore) ++
            ((if flags.poll then [.switch .poll] else []) ++
              flags.pollInterval.toList.map fun n => .setting .pollInterval n.repr)))))

theorem inputsOf_itemsOf (flags : Flags) : inputsOf (itemsOf flags) = flags.inputs := by
  have hnone : ∀ (given : Bool) (flag : Flag),
      (if given then [Item.switch flag] else []).filterMap Item.input? = [] := by
    intro given flag
    cases given <;> rfl
  simp [inputsOf, itemsOf, List.filterMap_map, hnone, Function.comp_def, Item.input?]

theorem valuesOf_itemsOf (flags : Flags) (flag : Flag) :
    valuesOf flag (itemsOf flags) =
      match flag with
      | .out => flags.out.toList
      | .config => flags.config.toList
      | .ignore => flags.ignore
      | .pollInterval => flags.pollInterval.toList.map Nat.repr
      | .minify | .poll => [] := by
  have hnone : ∀ (given : Bool) (other : Flag),
      (if given then [Item.switch other] else []).filterMap (Item.value? flag) = [] := by
    intro given other
    cases given <;> rfl
  simp only [valuesOf, itemsOf, List.filterMap_append, List.filterMap_map, hnone]
  cases flag <;> simp [Function.comp_def, Item.value?]

theorem switch_mem_itemsOf {flags : Flags} {flag : Flag} :
    .switch flag ∈ itemsOf flags ↔
      flag = .minify ∧ flags.minify = true ∨ flag = .poll ∧ flags.poll = true := by
  cases hminify : flags.minify <;> cases hpoll : flags.poll <;> simp [itemsOf, hminify, hpoll]

/-- **Any interleaving of the items of a command arranges it**, as long as the inputs are in their
order and so are the patterns. -/
theorem arranges_of_perm {flags : Flags} {line : List Item} (h : line.Perm (itemsOf flags))
    (hcan : CanAsk task flags) (hinputs : inputsOf line = flags.inputs)
    (hignore : valuesOf .ignore line = flags.ignore) : Arranges flags line := by
  have hvalues : ∀ flag, (valuesOf flag line).Perm (valuesOf flag (itemsOf flags)) :=
    fun flag => h.filterMap _
  have hsingle : ∀ flag (value : Option String),
      valuesOf flag (itemsOf flags) = value.toList → valuesOf flag line = value.toList := by
    intro flag value heq
    have hperm := hvalues flag
    rw [heq] at hperm
    cases value with
    | none => exact List.perm_nil.mp hperm
    | some text => exact List.perm_singleton.mp hperm
  have hinterval : valuesOf .pollInterval line = (flags.pollInterval.map Nat.repr).toList := by
    refine hsingle _ _ ((valuesOf_itemsOf flags .pollInterval).trans ?_)
    cases flags.pollInterval <;> rfl
  constructor
  case inputs => exact hinputs
  case out => exact hsingle .out _ (valuesOf_itemsOf flags .out)
  case minify => simp [h.mem_iff, switch_mem_itemsOf]
  case config => exact hsingle .config _ (valuesOf_itemsOf flags .config)
  case ignore => exact hignore
  case poll =>
    rw [h.mem_iff, switch_mem_itemsOf, hinterval]
    cases hn : flags.pollInterval with
    | none => simp
    | some n => simp [(hcan.pollInterval n hn).1]
  case pollInterval =>
    rw [hinterval]
    cases hn : flags.pollInterval with
    | none => exact .nil
    | some n => exact .cons (isNumeral_repr (hcan.pollInterval n hn).2) .nil

/-- Every command can be written. -/
theorem exists_isLine_itemsOf (flags : Flags) : ∃ args, IsLine (itemsOf flags) args := by
  have hspelling : ∀ flag : Flag, ∃ arg, arg ∈ flag.spellings := by
    intro flag
    exact List.exists_mem_of_ne_nil _ (by cases flag <;> decide)
  refine exists_isLine fun item hitem => ?_
  cases item with
  | input text => exact ⟨_, .input text⟩
  | switch flag =>
      obtain ⟨arg, harg⟩ := hspelling flag
      refine ⟨[arg], .switch ?_ harg⟩
      rcases switch_mem_itemsOf.mp hitem with ⟨rfl, -⟩ | ⟨rfl, -⟩ <;> rfl
  | setting flag value =>
      obtain ⟨arg, harg⟩ := hspelling flag
      refine ⟨[arg, value], .setting value ?_ harg⟩
      have hvalue := mem_valuesOf.mpr hitem
      rw [valuesOf_itemsOf] at hvalue
      cases flag
      case minify => cases hvalue
      case poll => cases hvalue
      all_goals rfl

/--
**A command line asks for what it says, and for nothing else.**  However the items of a command
are written and interleaved, it is read back from them, as long as the inputs are in their order and
so are the patterns; and every command can be written so.  A line is accepted exactly if all of it
is made of items that the subcommand has, and then the last path, the last configuration and the
last interval count.  Without polling the interval is the default one.
-/
theorem parse_interleaved (task : Task) :
    (∀ flags line args, CanAsk task flags → Arranges flags line → IsLine line args →
      parse (task.name :: args) = .ok (.run task flags)) ∧
    (∀ flags, CanAsk task flags →
      Arranges flags (itemsOf flags) ∧ (∃ args, IsLine (itemsOf flags) args) ∧
      ∀ line, line.Perm (itemsOf flags) → inputsOf line = flags.inputs →
        valuesOf .ignore line = flags.ignore → Arranges flags line) ∧
    (∀ args command, parse (task.name :: args) = .ok command ↔
      ∃ line flags, IsLine line args ∧ (∀ item ∈ line, item.Fits task) ∧ Means line flags ∧
        command = .run task flags) ∧
    ∀ args flags, parse (task.name :: args) = .ok (.run task flags) →
      CanAsk task flags ∧ (flags.poll = false → flags.interval = 500) := by
  refine ⟨fun flags line args hcan harranges hline => ?_, fun flags hcan => ?_,
    fun _ _ => parse_eq_ok_iff, fun args flags h => ?_⟩
  · exact parse_eq_ok_iff.mpr
      ⟨line, flags, hline, harranges.fits hcan hline.exists_isWritten, harranges.means, rfl⟩
  · have harranges := arranges_of_perm (.refl _) hcan (inputsOf_itemsOf flags)
      (valuesOf_itemsOf flags .ignore)
    exact ⟨harranges, exists_isLine_itemsOf flags, fun _ hperm => arranges_of_perm hperm hcan⟩
  · obtain ⟨line, flags', hline, hfits, hmeans, heq⟩ := parse_eq_ok_iff.mp h
    cases heq
    have hcan := hmeans.canAsk hfits
    refine ⟨hcan, fun hpoll => ?_⟩
    cases hn : flags.pollInterval with
    | none => rw [Flags.interval, hn]; rfl
    | some n => rw [(hcan.pollInterval n hn).1] at hpoll; cases hpoll

/-- Values that look like options, an input that is a hyphen alone, and a path given twice. -/
theorem parse_interleaved_watch :
    let flags : Flags := {
      inputs := ["-", "*.html"], out := some "--minify", ignore := ["--", "-I"]
      poll := true, pollInterval := some 250 }
    let items : List Item := [
      .setting .ignore "--", .input "-", .setting .pollInterval "+0250", .setting .out "--minify",
      .setting .ignore "-I", .input "*.html"]
    let args := ["-I", "--", "-", "--poll-interval", "+0250", "-o", "--minify", "--ignore", "-I",
      "*.html"]
    CanAsk .watch flags ∧ Arranges flags items ∧ IsLine items args ∧
      parse ("watch" :: args) = .ok (.run .watch flags) ∧
      parse ("watch" :: "--output" :: "a.css" :: args) = .ok (.run .watch flags) := by
  intro flags items args
  have hcan : CanAsk .watch flags := by
    constructor
    case inputs =>
      have hinputs : ∀ text ∈ flags.inputs,
          ¬ (text.toList.head? = some '-' ∧ 1 < text.length) := by decide
      exact fun text htext => isInput_iff.mpr (hinputs text htext)
    case pollInterval =>
      intro n hn
      cases hn
      decide
    all_goals simp [Flag.accepted]
  have hnumeral : IsNumeral "+0250" 250 := readNumber?_eq_some_iff.mp (by decide)
  have harranges : Arranges flags items := by
    constructor
    case pollInterval => exact .cons hnumeral .nil
    all_goals decide
  have hline : IsLine items args := by
    have hrest : IsLine (items.drop 3) (args.drop 5) :=
      .cons (.setting "--minify" rfl (by decide)) <| .cons (.setting "-I" rfl (by decide)) <|
        .cons (.input "*.html") .nil
    exact .cons (.setting "--" rfl (by decide)) <| .cons (.input "-") <|
      .cons (.setting "+0250" rfl (by decide)) hrest
  have hfits : ∀ item ∈ items, item.Fits .watch := harranges.fits hcan hline.exists_isWritten
  have hmeans : Means (.setting .out "a.css" :: items) flags := by
    constructor
    case pollInterval => exact last_isNumeral_iff.mpr (by decide)
    all_goals decide
  obtain ⟨hread, -, haccepted, -⟩ := parse_interleaved .watch
  refine ⟨hcan, harranges, hline, hread flags items args hcan harranges hline, ?_⟩
  refine (haccepted _ _).mpr ⟨.setting .out "a.css" :: items, flags, ?_, ?_, hmeans, rfl⟩
  · exact .cons (.setting "a.css" rfl (by decide)) hline
  · exact List.forall_mem_cons.mpr ⟨⟨rfl, nofun⟩, hfits⟩

end AtomicCss.Command
