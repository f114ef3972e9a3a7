import Toolpath.Cloud.Export
import Toolpath.CommandLine.Arguments
import Toolpath.Settings.Storage
import Toolpath.Summary

/-! # Running the program

A run loads the settings, lets the command line override them, and carries out
one command on the file system. Settings must be valid both before and after
the command line has had its say. An error is reported as a chain, from what
was being done down to what went wrong. Only a summary that cannot be shown
breaks the run off without a report.
-/

namespace Toolpath.CommandLine

/-- An error with what was being done, and the causes from the nearest on. -/
structure Report where
  context : String
  causes : List String
  deriving DecidableEq, Repr

namespace Report

/-- A cause with its lines indented, and with its number if there are several. -/
def causeText (number : Option Nat) (cause : String) : List Char :=
  let indent :=
    match number with
    | some n => (List.replicate (5 - (Text.digits n).length) ' ', "       ".toList)
    | none => ([], "    ".toList)
  let first :=
    match number with
    | some n => indent.1 ++ Text.digits n ++ [':', ' ']
    | none => "    ".toList
  first ++ ('\n' :: indent.2).intercalate (cause.toList.splitOn '\n')

/-- The text of a report. -/
def text (report : Report) : String :=
  let several := 1 < report.causes.length
  let causes := report.causes.zipIdx.map fun (cause, n) =>
    '\n' :: causeText (if several then some n else none) cause
  String.ofList ("Error: ".toList ++ report.context.toList ++
    if causes = [] then [] else "\n\nCaused by:".toList ++ causes.flatten)

end Report

/-- What a run shows. -/
structure Outcome where
  exitCode : Nat
  stdout : String := ""
  stderr : String := ""
  deriving DecidableEq, Repr

namespace Outcome

/-- A run that ended in an error. -/
def failed (report : Report) : Outcome :=
  { exitCode := 1, stderr := report.text ++ "\n" }

/-- The version of the program. -/
def version : Outcome :=
  { exitCode := 0, stdout := "gcodecloud 0.3.0\n" }

/-- How the program is used. -/
def usageText : String :=
  "Usage: gcodecloud [--json] [--config <FILE>] <decode|info> [OPTIONS] <INPUT>\n"

/-- A run that shows how the program is used. -/
def help : Outcome :=
  { exitCode := 0, stdout := usageText }

/-- A run with arguments that cannot be understood. -/
def misuse : Outcome :=
  { exitCode := 2, stderr := usageText }

/-- A run that ended with a summary. If the summary cannot be shown to its end, the run is broken
off there. -/
def summary (json : Bool) (summary : Summary) (broken? : Option Break := none) : Outcome :=
  let text := (if json then Json.pretty summary.toData else summary.display) ++ "\n"
  match (Sink.upTo broken?).write (Utf8.encode text.toList) with
  | (.ok (), _) => { exitCode := 0, stdout := text }
  | (.error cause, sink) =>
      { exitCode := 101
        stdout := String.ofList (Utf8.decodeLossy sink.taken.toList)
        stderr := s!"failed printing to stdout: {cause.message}\n" }

end Outcome

/-- The settings with those of the command line in place of what was loaded. -/
def Given.override (given : Given) (config : Config) : Config :=
  let decode := config.decode
  { config with
    decode :=
      { mode := given.mode.getD decode.mode
        step := given.step.getD decode.step
        round := if given.noRound then false else given.decimals.isSome || decode.round
        roundPlaces := given.decimals.getD decode.roundPlaces
        maxPoints := given.maxPoints.or decode.maxPoints } }

/-- The format of the output: the one asked for, or that of the output's extension, or that of
the settings. -/
def Given.outputFormat (given : Given) (config : Config) : PointFormat :=
  (given.format.or (given.output.bind PointFormat.ofPath?)).getD config.exporting.format

/-- The report on a program that could not be read. -/
def inputReport (input : String) (error : InputError) : Report :=
  ⟨s!"Failed to decode {input}", error.message :: error.cause?.toList.map IoFailure.message⟩

/-- The report on a cloud that could not be written. -/
def exportReport (output : String) (error : ExportError) : Report :=
  ⟨s!"Failed to write {output}", error.message :: error.cause?.toList.map IoFailure.message⟩

/-- The report on settings that could not be loaded. -/
def settingsReport (error : SettingsError) : Report :=
  ⟨"Failed to load configuration", error.message :: error.causes⟩

/-- The report on settings that the command line has made invalid. -/
def optionsReport (error : ConfigError) : Report :=
  ⟨"Invalid options", [error.message]⟩

/-- Where the cloud of an input is written in a format: next to it, unless the place is given. -/
def outputPath (given : Given) (input : String) (format : PointFormat) : String :=
  given.output.getD (Path.withExtension input format.extension)

/-- Decode a program and write its cloud. -/
def decode (fs : FileSystem) (config : Config) (json : Bool) (input output : String)
    (faults : Faults := {}) : Outcome × FileSystem :=
  match convertFile fs input config.assemblyOptions faults with
  | .error error => (.failed (inputReport input error), fs)
  | .ok conversion =>
      let stored := conversion.cloud.store config.exporting.format config.exporting.delimiter fs
        output faults
      match stored with
      | (.error error, after) => (.failed (exportReport output error), after)
      | (.ok (), after) =>
          (.summary json (conversion.summary config.reconstruction) faults.showing, after)

/-- Report on a program and write nothing. -/
def info (fs : FileSystem) (config : Config) (json : Bool) (input : String)
    (faults : Faults := {}) : Outcome :=
  match inspectFile fs input config.assemblyOptions faults with
  | .error error => .failed (inputReport input error)
  | .ok (conversion, layers) =>
      let summary := conversion.summary config.reconstruction
      .summary json { summary with layers := some layers.length } faults.showing

/-- The settings that a command works with. -/
def Invocation.settings (invocation : Invocation) (config : Config) : Config :=
  let config := invocation.given.override config
  match invocation.command with
  | .decode =>
      { config with
        exporting := { config.exporting with format := invocation.given.outputFormat config } }
  | .info => config

/-- Carry out a command. -/
def execute (platform : Option String) (invocation : Invocation) (fs : FileSystem)
    (faults : Faults := {}) : Outcome × FileSystem :=
  match Config.loadOrDefault fs platform invocation.config faults with
  | .error error => (.failed (settingsReport error), fs)
  | .ok loaded =>
      let config := invocation.settings loaded
      match config.validate with
      | .error error => (.failed (optionsReport error), fs)
      | .ok () =>
          let input := invocation.input
          match invocation.command with
          | .decode =>
              decode fs config invocation.json input
                (outputPath invocation.given input config.exporting.format) faults
          | .info => (info fs config invocation.json input faults, fs)

/-- A run of the program. The settings file of the platform is used if no other one is given. -/
def run (platform : Option String) (arguments : List String) (fs : FileSystem)
    (faults : Faults := {}) : Outcome × FileSystem :=
  match parse arguments with
  | .run invocation => execute platform invocation fs faults
  | .help => (.help, fs)
  | .version => (.version, fs)
  | .misuse => (.misuse, fs)

end Toolpath.CommandLine
