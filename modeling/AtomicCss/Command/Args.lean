/-
Command lines.

A subcommand is followed by options and content patterns in any order.  An option that
takes a value takes the next argument, whatever it looks like.
-/
namespace AtomicCss

/-- The subcommands that work on a project. -/
inductive Task
  | scan
  | build
  | watch
  deriving DecidableEq

/-- The name of a subcommand. -/
def Task.name : Task → String
  | .scan => "scan"
  | .build => "build"
  | .watch => "watch"

/-- The options of a command line.  Those that a subcommand does not have keep their
first value. -/
structure Flags where
  inputs : List String := []
  out : Option String := none
  minify : Bool := false
  config : Option String := none
  ignore : List String := []
  poll : Bool := false
  /-- How often to poll, in milliseconds. -/
  pollInterval : Option Nat := none
  deriving DecidableEq

/-- What a command line asks for. -/
inductive Command
  | run (task : Task) (flags : Flags)
  | help
  deriving DecidableEq

/-- Why a command line is refused. -/
inductive ArgsError
  | unknownCommand (name : String)
  /-- An option at the end of the line lacks its value. -/
  | missingValue (task : Task) (flag : String)
  /-- The value of an option is not a number, or too large a one. -/
  | notANumber (flag value : String)
  | watchOnly (flag : String)
  | unknownFlag (task : Task) (flag : String)
  deriving DecidableEq

/-- The text of an error. -/
def ArgsError.message : ArgsError → String
  | .unknownCommand name => s!"unknown command: {name}"
  | .missingValue task flag => s!"{task.name} requires a value for {flag}"
  | .notANumber flag value => s!"{flag} requires a positive integer, got '{value}'"
  | .watchOnly flag => s!"{flag} is only supported with watch"
  | .unknownFlag task flag => s!"{task.name} does not accept {flag}"

/-- The poll interval of a command line that names none, in milliseconds. -/
def Flags.defaultPollInterval : Nat := 500

/-- How often a command polls, in milliseconds. -/
def Flags.interval (flags : Flags) : Nat :=
  flags.pollInterval.getD defaultPollInterval

namespace Command

/-- One option of a command line. -/
inductive Flag
  | out
  | config
  | ignore
  | minify
  | poll
  | pollInterval
  deriving DecidableEq

/-- The name of an option in messages. -/
def Flag.name : Flag → String
  | .out => "--output"
  | .config => "--config"
  | .ignore => "--ignore"
  | .minify => "--minify"
  | .poll => "--poll"
  | .pollInterval => "--poll-interval"

/-- The option an argument spells. -/
def Flag.ofArg? : String → Option Flag
  | "--out" | "--output" | "-o" => some .out
  | "--config" | "-c" => some .config
  | "--ignore" | "-I" => some .ignore
  | "--minify" => some .minify
  | "--poll" => some .poll
  | "--poll-interval" => some .pollInterval
  | _ => none

/-- Whether a subcommand has an option. -/
def Flag.accepted (task : Task) : Flag → Bool
  | .out | .minify => task != .scan
  | .config | .ignore => true
  | .poll | .pollInterval => task == .watch

/-- What one argument is to a subcommand. -/
inductive Arg
  | option (flag : Flag)
  | input (text : String)
  deriving DecidableEq

/-- Classifies an argument.  A hyphen alone is an input. -/
def Arg.classify (task : Task) (arg : String) : Except ArgsError Arg :=
  let dashed := arg.toList.head? = some '-' && arg.length > 1
  match Flag.ofArg? arg with
  | some flag =>
    if flag.accepted task then .ok (.option flag)
    else if flag = .poll || flag = .pollInterval then .error (.watchOnly arg)
    else .error (.unknownFlag task arg)
  | none => if dashed then .error (.unknownFlag task arg) else .ok (.input arg)

/-- Reads a number below `2 ^ 64`, an optional plus sign in front. -/
def readNumber? (text : String) : Option Nat :=
  let digits := match text.toList with
    | '+' :: ds => ds
    | ds => ds
  if digits.isEmpty || !digits.all Char.isDigit then none
  else
    let n := digits.foldl (fun n d => 10 * n + (d.toNat - '0'.toNat)) 0
    if n < UInt64.size then some n else none

/-- Whether an option takes the next argument as its value. -/
def Flag.takesValue : Flag → Bool
  | .out | .config | .ignore | .pollInterval => true
  | .minify | .poll => false

/-- Sets an option without value. -/
def Flag.apply (flags : Flags) : Flag → Flags
  | .minify => { flags with minify := true }
  | .poll => { flags with poll := true }
  | _ => flags

/-- Sets an option to a value; the last value of an option counts, and ignore patterns
add up. -/
def Flag.applyValue (flags : Flags) (value : String) : Flag → Except ArgsError Flags
  | .out => .ok { flags with out := some value }
  | .config => .ok { flags with config := some value }
  | .ignore => .ok { flags with ignore := flags.ignore ++ [value] }
  | .pollInterval =>
    match readNumber? value with
    | some n => .ok { flags with poll := true, pollInterval := some n }
    | none => .error (.notANumber Flag.pollInterval.name value)
  | _ => .ok flags

/-- Reads the arguments after the subcommand. -/
def parseFlags (task : Task) (flags : Flags) : List String → Except ArgsError Flags
  | [] => .ok flags
  | arg :: args => do
    match ← Arg.classify task arg with
    | .input text => parseFlags task { flags with inputs := flags.inputs ++ [text] } args
    | .option flag =>
      if flag.takesValue then
        match args with
        | [] => .error (.missingValue task flag.name)
        | value :: args => parseFlags task (← flag.applyValue flags value) args
      else parseFlags task (flag.apply flags) args

/-- Reads a command line. -/
def parse : List String → Except ArgsError Command
  | [] => .ok .help
  | name :: args =>
    match name with
    | "scan" => return .run .scan (← parseFlags .scan {} args)
    | "build" => return .run .build (← parseFlags .build {} args)
    | "watch" => return .run .watch (← parseFlags .watch {} args)
    | "-h" | "--help" | "help" => .ok .help
    | _ => .error (.unknownCommand name)

end Command

end AtomicCss
