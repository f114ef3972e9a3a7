import Toolpath.Settings.Config

/-! # Command line arguments

The command line has options of its own, then a command, then the options and
the input of the command. Two options are understood in both places; the one
behind the command counts if both are there. An option may be given once in
each place. Its value is the next argument, unless that begins with a dash, or
is attached with an equals sign, or directly to a short option. Two dashes end
the options.
-/

namespace Toolpath.CommandLine

/-- The options. -/
inductive Opt where
  | json
  | config
  | output
  | format
  | mode
  | step
  | decimals
  | noRound
  | maxPoints
  | help
  | version
  deriving DecidableEq, Repr

namespace Opt

/-- The long name of an option. -/
def long : Opt → String
  | json => "json"
  | config => "config"
  | output => "output"
  | format => "format"
  | mode => "mode"
  | step => "step"
  | decimals => "decimals"
  | noRound => "no-round"
  | maxPoints => "max-points"
  | help => "help"
  | version => "version"

/-- The short name of an option. -/
def short? : Opt → Option Char
  | output => some 'o'
  | help => some 'h'
  | version => some 'V'
  | _ => none

/-- Whether an option has a value. -/
def takesValue : Opt → Bool
  | config | output | format | mode | step | decimals | maxPoints => true
  | json | noRound | help | version => false

end Opt

/-- The commands. -/
inductive Command where
  /-- Decode a program and write its cloud. -/
  | decode
  /-- Report on a program and write nothing. -/
  | info
  deriving DecidableEq, Repr

namespace Command

/-- The command with a name. -/
def ofName? : String → Option Command
  | "decode" => some decode
  | "info" => some info
  | _ => none

/-- The options of a command. -/
def options : Command → List Opt
  | decode =>
      [.json, .config, .output, .format, .mode, .step, .decimals, .noRound, .maxPoints, .help]
  | info => [.json, .config, .mode, .step, .decimals, .noRound, .maxPoints, .help]

end Command

/-- The options in front of a command. -/
def leadingOptions : List Opt := [.json, .config, .help, .version]

/-- The options given in one place, and the input. -/
structure Given where
  json : Bool := false
  config : Option String := none
  output : Option String := none
  format : Option PointFormat := none
  mode : Option DecodeMode := none
  step : Option Float := none
  decimals : Option Nat := none
  noRound : Bool := false
  maxPoints : Option Nat := none
  input : Option String := none

/-- A path, which must not be empty. -/
def readPath? (s : String) : Option String :=
  if s = "" then none else some s

/-- A natural number that fits. A sign may stand in front of it, and even a minus sign in front
of zero where `minusZero` allows that. -/
def readNat? (minusZero : Bool) (fits : Nat → Bool) (s : String) : Option Nat := do
  let cs := s.toList
  if cs.head? = some '-' && !minusZero then none
  else
    let n ← Decimal.integer? cs
    if 0 ≤ n ∧ fits n.toNat then some n.toNat else none

/-- A value stored in a place that must be free. -/
def store? {α : Type} (place : Option α) (value : Option α) : Option (Option α) :=
  if place.isSome then none else value.map some

namespace Given

/-- The options with one more that has no value, unless it was given before. -/
def flag? (given : Given) : Opt → Option Given
  | .json => if given.json then none else some { given with json := true }
  | .noRound => if given.noRound then none else some { given with noRound := true }
  | _ => none

/-- The options with one more and its value, unless it was given before or the value cannot be
read. -/
def value? (given : Given) (option : Opt) (s : String) : Option Given :=
  match option with
  | .config => (store? given.config (readPath? s)).map fun v => { given with config := v }
  | .output => (store? given.output (readPath? s)).map fun v => { given with output := v }
  | .format =>
      (store? given.format (PointFormat.read s).toOption).map fun v => { given with format := v }
  | .mode => (store? given.mode (DecodeMode.read s).toOption).map fun v => { given with mode := v }
  | .step => (store? given.step (Number.read? s.toList)).map fun v => { given with step := v }
  | .decimals =>
      (store? given.decimals (readNat? true Number.fits32 s)).map fun v =>
        { given with decimals := v }
  | .maxPoints =>
      (store? given.maxPoints (readNat? false Number.fits64 s)).map fun v =>
        { given with maxPoints := v }
  | _ => none

/-- The options with an input, unless there is one already. -/
def input? (given : Given) (s : String) : Option Given :=
  (store? given.input (readPath? s)).map fun v => { given with input := v }

end Given

/-- What an argument is. -/
inductive Argument where
  /-- Two dashes. -/
  | endOfOptions
  /-- An option, possibly with a value attached. -/
  | option (option : Opt) (attached : Option String)
  /-- Something with a dash that is no option. -/
  | unknown
  | plain
  deriving DecidableEq, Repr

namespace Argument

/-- A value behind a short option, where an equals sign in front of it does not count. -/
def attachedShort? : List Char → Option String
  | [] => none
  | '=' :: cs => some (String.ofList cs)
  | cs => some (String.ofList cs)

/-- What an argument is where the given options are understood. A single dash is plain. -/
def classify (options : List Opt) (argument : String) : Argument :=
  match argument.toList with
  | ['-', '-'] => .endOfOptions
  | '-' :: '-' :: cs =>
      let name := String.ofList (cs.takeWhile (· ≠ '='))
      let attached :=
        match cs.dropWhile (· ≠ '=') with
        | [] => none
        | _ :: value => some (String.ofList value)
      match options.find? fun o => o.long = name with
      | some o => .option o attached
      | none => .unknown
  | '-' :: c :: cs =>
      match options.find? fun o => o.short? = some c with
      | some o => .option o (if o.takesValue then attachedShort? cs else none)
      | none => .unknown
  | _ => .plain

end Argument

/-- Whether an argument may be the value of the option in front of it. -/
def isValue (argument : String) : Bool :=
  argument.toList.head? ≠ some '-' || argument = "-"

/-- What a run of the program is asked to do. -/
structure Invocation where
  json : Bool
  config : Option String
  command : Command
  /-- What stands behind the command. -/
  given : Given
  input : String

/-- What the arguments ask for. -/
inductive Request where
  | run (invocation : Invocation)
  | help
  | version
  /-- The arguments cannot be understood. -/
  | misuse

/-- Go through arguments, passing over options that are understood in this place. The first
plain argument, or the end of the options, is left to `plain` with everything behind it. -/
def scan (options : List Opt) (plain : Given → List String → Request) :
    Given → List String → Request
  | given, [] => plain given []
  | given, argument :: rest =>
      match Argument.classify options argument with
      | .plain | .endOfOptions => plain given (argument :: rest)
      | .unknown => .misuse
      | .option o attached =>
          if o.takesValue then
            match attached with
            | some value =>
                match given.value? o value with
                | some given => scan options plain given rest
                | none => .misuse
            | none =>
                match rest with
                | [] => .misuse
                | value :: rest =>
                    if isValue value then
                      match given.value? o value with
                      | some given => scan options plain given rest
                      | none => .misuse
                    else .misuse
          else if attached.isSome then .misuse
          else if o = .help then .help
          else if o = .version then .version
          else
            match given.flag? o with
            | some given => scan options plain given rest
            | none => .misuse

/-- Take every argument as an input, of which there is one at most. -/
def takeInputs (finish : Given → Request) : Given → List String → Request
  | given, [] => finish given
  | given, argument :: rest =>
      match given.input? argument with
      | some given => takeInputs finish given rest
      | none => .misuse

/-- The request of a command once all arguments have been gone through. The input is required,
and a number of decimals and keeping all of them exclude each other. -/
def finish (leading : Given) (command : Command) (given : Given) : Request :=
  match given.input with
  | none => .misuse
  | some input =>
      if given.decimals.isSome && given.noRound then .misuse
      else
        .run
          { json := leading.json || given.json
            config := given.config.or leading.config
            command, given, input }

/-- Go through the arguments behind a command. Inputs may stand among the options. -/
def scanCommand (leading : Given) (command : Command) : (count : Nat) → Given → List String →
    Request
  | 0, given, _ => finish leading command given
  | count + 1, given, arguments =>
      scan command.options (fun given rest =>
        match rest with
        | [] => finish leading command given
        | "--" :: rest => takeInputs (finish leading command) given rest
        | argument :: rest =>
            match given.input? argument with
            | some given => scanCommand leading command count given rest
            | none => .misuse) given arguments

/-- What the arguments of the program ask for. -/
def parse (arguments : List String) : Request :=
  scan leadingOptions (fun leading rest =>
    match rest with
    | [] => .misuse
    | "help" :: [] => .help
    | "help" :: name :: rest =>
        let isKnown := name = "help" || (Command.ofName? name).isSome
        if isKnown && rest.isEmpty then .help else .misuse
    | name :: rest =>
        match Command.ofName? name with
        | some command => scanCommand leading command (rest.length + 1) {} rest
        | none => .misuse) {} arguments

end Toolpath.CommandLine
