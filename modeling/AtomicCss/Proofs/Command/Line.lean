/-
How a command line is read.

The arguments behind a subcommand are read in items: an input alone, an option alone, or an
option with its value, which is the next argument whatever that looks like.  `IsLine` says how
items are written, and `Means` what they come to together.  A command line is accepted exactly if
all of it is made of items that the subcommand has, and then it asks for what they mean.

Items are read one after the other, and what has been read is all along what the items so far
mean: that is what one more item keeps.
-/
import AtomicCss.Command.Args
import AtomicCss.Proofs.Fallible
import Mathlib.Data.List.Induction

namespace AtomicCss.Command

/-! ### Items -/

/-- The ways to write an option. -/
def Flag.spellings : Flag → List String
  | .out => ["--out", "--output", "-o"]
  | .config => ["--config", "-c"]
  | .ignore => ["--ignore", "-I"]
  | .minify => ["--minify"]
  | .poll => ["--poll"]
  | .pollInterval => ["--poll-interval"]

/-- What is read at once of a command line. -/
inductive Item
  | input (text : String)
  /-- An option without value. -/
  | switch (flag : Flag)
  /-- An option with its value. -/
  | setting (flag : Flag) (value : String)
  deriving DecidableEq

/-- An argument that is no option.  A hyphen alone is none. -/
def IsInput (text : String) : Prop :=
  text = "-" ∨ ∀ c ∈ text.toList.head?, c ≠ '-'

/-- A number of 64 bits in digits, an optional plus sign in front. -/
def IsNumeral (text : String) (n : Nat) : Prop :=
  ∃ digits, (text.toList = digits ∨ text.toList = '+' :: digits) ∧ digits ≠ [] ∧
    (∀ c ∈ digits, c.isDigit = true) ∧ n = Nat.ofDigitChars 10 digits 0 ∧ n < UInt64.size

namespace Item

/-- The text of an input. -/
def input? : Item → Option String
  | .input text => some text
  | _ => none

/-- The value of an option. -/
def value? (flag : Flag) : Item → Option String
  | .setting other value => if other = flag then some value else none
  | _ => none

/-- The arguments that an item is written with. -/
inductive IsWritten : Item → List String → Prop
  | input (text : String) : IsWritten (.input text) [text]
  | switch {flag : Flag} {arg : String} (hvalue : flag.takesValue = false)
      (harg : arg ∈ flag.spellings) : IsWritten (.switch flag) [arg]
  | setting {flag : Flag} {arg : String} (value : String) (hvalue : flag.takesValue = true)
      (harg : arg ∈ flag.spellings) : IsWritten (.setting flag value) [arg, value]

theorem IsWritten.length_pos {item : Item} {part : List String} (h : item.IsWritten part) :
    0 < part.length := by
  cases h <;> simp

/-- An item that a subcommand has. -/
def Fits (task : Task) : Item → Prop
  | .input text => IsInput text
  | .switch flag => flag.accepted task = true
  | .setting flag value =>
    flag.accepted task = true ∧ (flag = .pollInterval → ∃ n, IsNumeral value n)

/-- What is known of a command line with one more item. -/
def set (flags : Flags) : Item → Flags
  | .input text => { flags with inputs := flags.inputs ++ [text] }
  | .switch flag => flag.apply flags
  | .setting flag value => (flag.applyValue flags value).toOption.getD flags

end Item

/-- The arguments of some items, one item after the other. -/
inductive IsLine : List Item → List String → Prop
  | nil : IsLine [] []
  | cons {item : Item} {line : List Item} {part args : List String}
      (hitem : item.IsWritten part) (hline : IsLine line args) :
      IsLine (item :: line) (part ++ args)

/-- The inputs among some items, in their order. -/
def inputsOf (line : List Item) : List String :=
  line.filterMap Item.input?

/-- The values of an option among some items, in their order. -/
def valuesOf (flag : Flag) (line : List Item) : List String :=
  line.filterMap (Item.value? flag)

/-- What some items say together. -/
structure Means (line : List Item) (flags : Flags) : Prop where
  inputs : flags.inputs = inputsOf line
  /-- The last path counts. -/
  out : flags.out = (valuesOf .out line).getLast?
  minify : flags.minify = true ↔ .switch .minify ∈ line
  /-- The last path counts. -/
  config : flags.config = (valuesOf .config line).getLast?
  /-- Patterns add up. -/
  ignore : flags.ignore = valuesOf .ignore line
  /-- To say how often to poll is to ask for it. -/
  poll : flags.poll = true ↔ .switch .poll ∈ line ∨ valuesOf .pollInterval line ≠ []
  /-- The last number counts. -/
  pollInterval : ∀ n, flags.pollInterval = some n ↔
    ∃ text ∈ (valuesOf .pollInterval line).getLast?, IsNumeral text n

/-! ### Single arguments -/

theorem Flag.ofArg?_eq_some_iff {arg : String} {flag : Flag} :
    Flag.ofArg? arg = some flag ↔ arg ∈ flag.spellings := by
  constructor
  · intro h
    unfold Flag.ofArg? at h
    split at h <;> cases h <;> decide
  · intro h
    cases flag
    all_goals
      simp only [Flag.spellings, List.mem_cons, List.not_mem_nil, or_false] at h
    case out => rcases h with rfl | rfl | rfl <;> rfl
    case config => rcases h with rfl | rfl <;> rfl
    case ignore => rcases h with rfl | rfl <;> rfl
    all_goals
      subst h
      rfl

theorem Flag.ofArg?_of_isInput {arg : String} (h : IsInput arg) : Flag.ofArg? arg = none := by
  cases hflag : Flag.ofArg? arg with
  | none => rfl
  | some flag =>
      have hall : ∀ arg ∈ flag.spellings, arg ≠ "-" ∧ arg.toList.head? = some '-' := by
        cases flag <;> decide
      obtain ⟨hne, hhead⟩ := hall arg (Flag.ofArg?_eq_some_iff.mp hflag)
      exact absurd rfl (h.resolve_left hne '-' hhead)

theorem isInput_iff {arg : String} :
    IsInput arg ↔ ¬ (arg.toList.head? = some '-' ∧ 1 < arg.length) := by
  rw [← String.length_toList, IsInput, ← String.toList_inj]
  cases arg.toList with
  | nil => simp
  | cons c cs =>
      cases cs with
      | nil => simp [or_iff_not_imp_left]
      | cons d cs => simp

theorem classify_eq_input_iff {task : Task} {arg text : String} :
    Arg.classify task arg = .ok (.input text) ↔ IsInput arg ∧ text = arg := by
  constructor
  · intro h
    rw [isInput_iff]
    simp only [Arg.classify] at h
    split at h
    · split at h
      · cases h
      · split at h <;> cases h
    · split at h
      · cases h
      · rename_i hdashed
        cases h
        exact ⟨by simpa using hdashed, rfl⟩
  · rintro ⟨hinput, rfl⟩
    have hdashed := isInput_iff.mp hinput
    rw [Arg.classify, Flag.ofArg?_of_isInput hinput]
    simpa using hdashed

theorem classify_eq_option_iff {task : Task} {arg : String} {flag : Flag} :
    Arg.classify task arg = .ok (.option flag) ↔
      arg ∈ flag.spellings ∧ flag.accepted task = true := by
  rw [← Flag.ofArg?_eq_some_iff]
  constructor
  · intro h
    simp only [Arg.classify] at h
    split at h
    · rename_i other hflag
      split at h
      · rename_i haccepted
        cases h
        exact ⟨hflag, haccepted⟩
      · split at h <;> cases h
    · split at h <;> cases h
  · rintro ⟨hflag, haccepted⟩
    rw [Arg.classify, hflag]
    simp [haccepted]

/-! ### Numbers -/

theorem readNumber?_eq_some_iff {text : String} {n : Nat} :
    readNumber? text = some n ↔ IsNumeral text n := by
  have hread : ∀ digits : List Char,
      (if digits.isEmpty || !digits.all Char.isDigit then none
        else if Nat.ofDigitChars 10 digits 0 < UInt64.size then
          some (Nat.ofDigitChars 10 digits 0)
        else none) = some n ↔
      digits ≠ [] ∧ (∀ c ∈ digits, c.isDigit = true) ∧ n = Nat.ofDigitChars 10 digits 0 ∧
        n < UInt64.size := by
    intro digits
    grind
  constructor
  · intro h
    simp only [readNumber?] at h
    split at h
    · rename_i digits htext
      exact ⟨digits, .inr htext, (hread digits).mp h⟩
    · exact ⟨text.toList, .inl rfl, (hread text.toList).mp h⟩
  · rintro ⟨digits, htext | htext, hdigits⟩
    · simp only [readNumber?]
      split
      · rename_i htext'
        rw [← htext, htext'] at hdigits
        exact absurd (hdigits.2.1 '+' (by simp)) (by decide)
      · rw [htext]
        exact (hread digits).mpr hdigits
    · simp only [readNumber?, htext]
      exact (hread digits).mpr hdigits

theorem isNumeral_repr {n : Nat} (h : n < UInt64.size) : IsNumeral n.repr n := by
  refine ⟨Nat.toDigits 10 n, .inl ?_, Nat.toDigits_ne_nil, ?_, ?_, h⟩
  · rw [Nat.repr_eq_ofList_toDigits, String.toList_ofList]
  · exact fun c hc => Nat.isDigit_of_mem_toDigits (by decide) (by decide) hc
  · rw [Nat.ofDigitChars_toDigits (by decide) (by decide)]

/-! ### One item more -/

variable {task : Task}

theorem applyValue_eq_ok_iff {flag : Flag} {flags result : Flags} {value : String} :
    flag.applyValue flags value = .ok result ↔
      (flag = .pollInterval → ∃ n, IsNumeral value n) ∧
        result = (Item.setting flag value).set flags := by
  simp only [← readNumber?_eq_some_iff]
  cases flag
  case pollInterval =>
    simp only [Item.set, Flag.applyValue]
    cases readNumber? value with
    | none => simp
    | some n => simp [Except.toOption, eq_comm]
  all_goals simp [Item.set, Flag.applyValue, Except.toOption, eq_comm]

/-- What one item changes. -/
theorem Item.set_eq {item : Item} (h : item.Fits task) (flags : Flags) :
    item.set flags = {
      inputs := flags.inputs ++ item.input?.toList
      out := (item.value? .out).or flags.out
      minify := flags.minify || item = .switch .minify
      config := (item.value? .config).or flags.config
      ignore := flags.ignore ++ (item.value? .ignore).toList
      poll := flags.poll || item = .switch .poll || (item.value? .pollInterval).isSome
      pollInterval :=
        ((item.value? .pollInterval).map readNumber?).getD flags.pollInterval } := by
  cases item with
  | input text => simp [set, input?, value?]
  | switch flag => cases flag <;> simp [set, input?, value?, Flag.apply]
  | setting flag value =>
      cases flag
      case pollInterval =>
        obtain ⟨n, hn⟩ := h.2 rfl
        have hread := readNumber?_eq_some_iff.mpr hn
        simp [set, input?, value?, Flag.applyValue, hread, Except.toOption]
      all_goals simp [set, input?, value?, Flag.applyValue, Except.toOption]

theorem inputsOf_concat (line : List Item) (item : Item) :
    inputsOf (line ++ [item]) = inputsOf line ++ item.input?.toList := by
  rw [inputsOf, List.filterMap_append]
  cases h : item.input? <;> simp [inputsOf, h]

theorem valuesOf_concat (flag : Flag) (line : List Item) (item : Item) :
    valuesOf flag (line ++ [item]) = valuesOf flag line ++ (item.value? flag).toList := by
  rw [valuesOf, List.filterMap_append]
  cases h : item.value? flag <;> simp [valuesOf, h]

theorem last_isNumeral_iff {interval : Option Nat} {text : Option String} :
    (∀ n, interval = some n ↔ ∃ t ∈ text, IsNumeral t n) ↔ interval = text.bind readNumber? := by
  constructor
  · intro h
    refine Option.ext fun n => ?_
    rw [h n, Option.bind_eq_some_iff]
    simp only [readNumber?_eq_some_iff, Option.mem_def]
  · rintro rfl n
    rw [Option.bind_eq_some_iff]
    simp only [readNumber?_eq_some_iff, Option.mem_def]

/-- What is known goes on being what the items mean. -/
theorem Means.concat {line : List Item} {flags : Flags} (h : Means line flags) {item : Item}
    (hitem : item.Fits task) : Means (line ++ [item]) (item.set flags) := by
  have hlast : ∀ (values : List String) (more : Option String),
      (values ++ more.toList).getLast? = more.or values.getLast? := by
    intro values more
    cases more <;> simp
  rw [Item.set_eq hitem]
  constructor
  case inputs => rw [inputsOf_concat, h.inputs]
  case out => rw [valuesOf_concat, hlast, h.out]
  case minify =>
    rw [List.mem_append, List.mem_singleton, eq_comm (b := item), ← h.minify]
    simp
  case config => rw [valuesOf_concat, hlast, h.config]
  case ignore => rw [valuesOf_concat, h.ignore]
  case poll =>
    have hpoll := h.poll
    rw [valuesOf_concat, List.mem_append, List.mem_singleton, eq_comm (b := item)]
    cases item.value? .pollInterval with
    | none => simp [hpoll, or_right_comm]
    | some value => simp
  case pollInterval =>
    rw [last_isNumeral_iff, valuesOf_concat, hlast, last_isNumeral_iff.mp h.pollInterval]
    cases item.value? .pollInterval <;> simp

theorem means_nil : Means [] {} := by
  constructor <;> simp [inputsOf, valuesOf]

theorem means_foldl (line : List Item) (h : ∀ item ∈ line, item.Fits task) :
    Means line (line.foldl Item.set {}) := by
  induction line using List.reverseRecOn with
  | nil => exact means_nil
  | append_singleton line item ih =>
      rw [List.foldl_append]
      obtain ⟨hline, hitem⟩ := List.forall_mem_append.mp h
      exact (ih hline).concat (hitem item List.mem_cons_self)

theorem Means.unique {line : List Item} {flags other : Flags} (h : Means line flags)
    (hother : Means line other) : flags = other := by
  have hinputs := h.inputs.trans hother.inputs.symm
  have hout := h.out.trans hother.out.symm
  have hminify := Bool.eq_iff_iff.mpr (h.minify.trans hother.minify.symm)
  have hconfig := h.config.trans hother.config.symm
  have hignore := h.ignore.trans hother.ignore.symm
  have hpoll := Bool.eq_iff_iff.mpr (h.poll.trans hother.poll.symm)
  have hinterval := Option.ext fun n => (h.pollInterval n).trans (hother.pollInterval n).symm
  cases flags
  cases other
  simp only at hinputs hout hminify hconfig hignore hpoll hinterval
  rw [hinputs, hout, hminify, hconfig, hignore, hpoll, hinterval]

/-! ### Reading -/

theorem parseFlags_append {item : Item} {part : List String} (hwritten : item.IsWritten part)
    (h : item.Fits task) (flags : Flags) (args : List String) :
    parseFlags task flags (part ++ args) = parseFlags task (item.set flags) args := by
  cases hwritten with
  | input text =>
      have hinput : Arg.classify task text = .ok (.input text) :=
        classify_eq_input_iff.mpr ⟨h, rfl⟩
      rw [List.singleton_append, parseFlags, hinput]
      rfl
  | switch hvalue harg =>
      have hoption := classify_eq_option_iff.mpr ⟨harg, h⟩
      rw [List.singleton_append, parseFlags, hoption]
      show (if _ then _ else _) = _
      rw [if_neg (by rw [hvalue]; exact Bool.false_ne_true)]
      rfl
  | setting value hvalue harg =>
      have hoption := classify_eq_option_iff.mpr ⟨harg, h.1⟩
      have happly : Flag.applyValue flags value _ = .ok (Item.set flags (.setting _ value)) :=
        applyValue_eq_ok_iff.mpr ⟨h.2, rfl⟩
      rw [List.cons_append, List.singleton_append, parseFlags, hoption]
      show (if _ then _ else _) = _
      rw [if_pos hvalue]
      show (Flag.applyValue flags value _ >>= _) = _
      rw [happly]
      rfl

/-- Items that the subcommand has are read one after the other. -/
theorem parseFlags_of_isLine {line : List Item} {args : List String} (hline : IsLine line args)
    (h : ∀ item ∈ line, item.Fits task) (flags : Flags) :
    parseFlags task flags args = .ok (line.foldl Item.set flags) := by
  induction hline generalizing flags with
  | nil => rfl
  | cons hitem _ ih =>
      obtain ⟨hhead, htail⟩ := List.forall_mem_cons.mp h
      rw [parseFlags_append hitem hhead, ih htail]
      rfl

/-- Where arguments are accepted, the first of them belong to an item that the subcommand has. -/
theorem exists_isWritten_of_parseFlags {flags result : Flags} {arg : String} {args : List String}
    (h : parseFlags task flags (arg :: args) = .ok result) :
    ∃ (item : Item) (part rest : List String), arg :: args = part ++ rest ∧
      item.IsWritten part ∧ item.Fits task ∧
      parseFlags task (item.set flags) rest = .ok result := by
  rw [parseFlags] at h
  obtain ⟨read, hread, hrest⟩ := bind_eq_ok.mp h
  cases read with
  | input text =>
      obtain ⟨hinput, rfl⟩ := classify_eq_input_iff.mp hread
      exact ⟨.input text, [text], args, rfl, .input text, hinput, hrest⟩
  | option flag =>
      obtain ⟨harg, haccepted⟩ := classify_eq_option_iff.mp hread
      cases hvalue : flag.takesValue with
      | false =>
          simp only [hvalue, Bool.false_eq_true, if_false] at hrest
          exact ⟨.switch flag, [arg], args, rfl, .switch hvalue harg, haccepted, hrest⟩
      | true =>
          simp only [hvalue, if_true] at hrest
          cases args with
          | nil => cases hrest
          | cons value rest =>
              obtain ⟨next, hnext, hrest⟩ := bind_eq_ok.mp hrest
              obtain ⟨hnumeral, rfl⟩ := applyValue_eq_ok_iff.mp hnext
              exact ⟨.setting flag value, [arg, value], rest, rfl, .setting value hvalue harg,
                ⟨haccepted, hnumeral⟩, hrest⟩

/-- What is accepted is written in items that the subcommand has. -/
theorem exists_isLine_of_parseFlags {result : Flags} (args : List String) :
    ∀ {flags : Flags}, parseFlags task flags args = .ok result →
      ∃ line, IsLine line args ∧ (∀ item ∈ line, item.Fits task) ∧
        result = line.foldl Item.set flags := by
  induction hlength : args.length using Nat.strongRecOn generalizing args with
  | ind n ih =>
      intro flags h
      cases args with
      | nil => exact ⟨[], .nil, by simp, (Except.ok.inj h).symm⟩
      | cons arg args =>
          obtain ⟨item, part, rest, hargs, hitem, hfits, hrest⟩ :=
            exists_isWritten_of_parseFlags h
          have hlt : rest.length < n := by
            rw [← hlength, hargs, List.length_append]
            exact Nat.lt_add_of_pos_left hitem.length_pos
          obtain ⟨line, hline, hall, hresult⟩ := ih rest.length hlt rest rfl hrest
          exact ⟨item :: line, hargs ▸ .cons hitem hline, List.forall_mem_cons.mpr ⟨hfits, hall⟩,
            hresult⟩

theorem parseFlags_eq_ok_iff {args : List String} {flags : Flags} :
    parseFlags task {} args = .ok flags ↔
      ∃ line, IsLine line args ∧ (∀ item ∈ line, item.Fits task) ∧ Means line flags := by
  constructor
  · intro h
    obtain ⟨line, hline, hfits, rfl⟩ := exists_isLine_of_parseFlags args h
    exact ⟨line, hline, hfits, means_foldl line hfits⟩
  · rintro ⟨line, hline, hfits, hmeans⟩
    rw [parseFlags_of_isLine hline hfits, (means_foldl line hfits).unique hmeans]

theorem parse_name (task : Task) (args : List String) :
    parse (task.name :: args) = (parseFlags task {} args).map (.run task) := by
  cases task
  all_goals
    simp only [parse, Task.name]
    cases parseFlags _ {} args <;> rfl

theorem parse_eq_ok_iff {args : List String} {command : Command} :
    parse (task.name :: args) = .ok command ↔
      ∃ line flags, IsLine line args ∧ (∀ item ∈ line, item.Fits task) ∧ Means line flags ∧
        command = .run task flags := by
  rw [parse_name, map_eq_ok]
  simp only [parseFlags_eq_ok_iff]
  constructor
  · rintro ⟨flags, ⟨line, hline, hfits, hmeans⟩, rfl⟩
    exact ⟨line, flags, hline, hfits, hmeans, rfl⟩
  · rintro ⟨line, flags, hline, hfits, hmeans, rfl⟩
    exact ⟨flags, ⟨line, hline, hfits, hmeans⟩, rfl⟩

end AtomicCss.Command
