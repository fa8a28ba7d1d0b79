import PartitionLedger.CommandLine.Overrides

/-!
Options that choose the strategies, from the arguments of a command and from its environment.

An option is given as `--name VALUE` or as `--name=VALUE`. An argument counts before the variable of
the environment, and that before the default.
-/
namespace PartitionLedger

/-- The options of a command. -/
inductive Flag where
  | defaultStrategy
  | overrides
deriving DecidableEq, Repr

def Flag.all : List Flag := [defaultStrategy, overrides]

def Flag.name : Flag → String
  | defaultStrategy => "partition-timeline-default-strategy"
  | overrides => "partition-timeline-strategy"

/-- A value that an option cannot have. -/
inductive ValueError where
  | strategy (error : Strategy.Unknown)
  | overrides (error : OverrideError)
deriving DecidableEq

def ValueError.message : ValueError → String
  | strategy error => error.message
  | overrides error => error.message

inductive UsageError where
  | helpRequested
  /-- No option has this name, or the argument belongs to no option. -/
  | unknownArgument
  | missingValue
  /-- A value is attached to an option that takes none. -/
  | unexpectedValue
  | repeated
  | invalidValue (error : ValueError)
deriving DecidableEq

/-- The variables of the environment, where they are set. -/
structure Environment where
  defaultStrategy : Option String
  overrides : Option String

structure Options where
  defaultStrategy : Strategy
  overrides : Overrides

def Options.config (options : Options) : Config :=
  .ofOverrides options.defaultStrategy options.overrides

namespace CommandLine

/-- The values that are read so far. -/
structure Given where
  defaultStrategy : Option Strategy
  overrides : Option Overrides

def Given.has (given : Given) : Flag → Bool
  | .defaultStrategy => given.defaultStrategy.isSome
  | .overrides => given.overrides.isSome

/-- Reads the value of an option. -/
def Given.set (given : Given) (flag : Flag) (value : String) : Except UsageError Given :=
  match flag with
  | .defaultStrategy =>
    match Strategy.read value with
    | .ok strategy => .ok { given with defaultStrategy := some strategy }
    | .error e => .error (.invalidValue (.strategy e))
  | .overrides =>
    match Overrides.read value with
    | .ok overrides => .ok { given with overrides := some overrides }
    | .error e => .error (.invalidValue (.overrides e))

/-- An option that no more is known of than its name, or also the argument after it. -/
structure Pending where
  flag : Flag
  value : Option String

/-- Takes an option with its value. -/
def Given.take (given : Given) (flag : Flag) : Option String → Except UsageError Given
  | none => .error .missingValue
  | some value => if given.has flag then .error .repeated else given.set flag value

/-- Takes the pending option. That is put off until the next option or the end of the line, so an
argument that is unknown or has a value too many is reported before a value that is at fault. -/
def Given.settle (given : Given) : Option Pending → Except UsageError Given
  | none => .ok given
  | some pending => given.take pending.flag pending.value

/-- What an argument looks like. -/
inductive Argument where
  | option (flag : Flag) (value : Option String)
  | help (value : Option String)
  | unknown
  /-- The mark after which no options follow. -/
  | endOfOptions
  | plain (value : String)

def Argument.ofString (arg : String) : Argument :=
  match arg.toList with
  | ['-', '-'] => .endOfOptions
  | '-' :: '-' :: long =>
    let (name, value) : List Char × Option String :=
      match Text.cut? '=' long with
      | some (name, value) => (name, some (String.ofList value))
      | none => (long, none)
    match Flag.all.find? fun flag => flag.name.toList = name with
    | some flag => .option flag value
    | none => if name = "help".toList then .help value else .unknown
  | '-' :: 'h' :: _ => .help none
  | '-' :: _ :: _ => .unknown
  | _ => .plain arg

def scan (given : Given) (pending : Option Pending) : List String → Except UsageError Given
  | [] => given.settle pending
  | arg :: rest =>
    match Argument.ofString arg, pending with
    | .option flag none, _ => do
      let given ← given.settle pending
      scan given (some ⟨flag, none⟩) rest
    | .option flag (some value), _ => do
      let given ← given.settle pending
      let given ← given.take flag value
      scan given none rest
    | .plain value, some ⟨flag, none⟩ => scan given (some ⟨flag, some value⟩) rest
    | .plain _, _ => .error .unknownArgument
    | .help none, _ => do
      let _ ← given.settle pending
      .error .helpRequested
    | .help (some _), _ => .error .unexpectedValue
    | .unknown, _ => .error .unknownArgument
    | .endOfOptions, _ => if rest = [] then given.settle pending else .error .unknownArgument

/-- Reads the variable of an option that no argument gave. -/
def Given.setMissing (given : Given) (flag : Flag) (value : Option String) : Except UsageError Given :=
  match value with
  | some value => if given.has flag then .ok given else given.set flag value
  | none => .ok given

end CommandLine

/-- By default every partition is kept, and no period has a strategy of its own. -/
def Options.read (args : List String) (environment : Environment) : Except UsageError Options := do
  let given ← CommandLine.scan ⟨none, none⟩ none args
  let given ← given.setMissing .defaultStrategy environment.defaultStrategy
  let given ← given.setMissing .overrides environment.overrides
  return ⟨given.defaultStrategy.getD .storeAll, given.overrides.getD .none⟩

end PartitionLedger
