import Toolpath.Proofs.CommandLine.Override
import Toolpath.Proofs.CommandLine.Source
import Toolpath.Proofs.Settings.Validity
import Toolpath.Proofs.Unreadable

/-! # What a run works with, and what it changes

A command is carried out only with settings that were valid when they were
loaded and are valid still after the command line has had its say. In every
other case the run fails before it looks at its input. Of the files, only the
output of a run that decodes may change, and only once the whole input has been
read, as far as it is wanted.
-/

namespace Toolpath

/-- The options of a conversion are within their ranges. -/
structure AssemblyOptions.IsValid (options : AssemblyOptions) : Prop where
  step_finite : options.decode.step.isFinite = true
  step_pos : 0.0 < options.decode.step
  places : ∀ n, options.places = some n → n ≤ 15
  maxPoints : options.maxPoints ≠ some 0

theorem Config.IsValid.assemblyOptions {config : Config} (h : config.IsValid) :
    config.assemblyOptions.IsValid where
  step_finite := h.step_finite
  step_pos := h.step_pos
  places _ hplaces := h.places_le hplaces
  maxPoints := h.maxPoints

namespace CommandLine

variable {platform : Option String} {invocation : Invocation} {fs : FileSystem} {faults : Faults}

/-- The work of a command with settings that have been decided on. -/
def Invocation.carryOut (invocation : Invocation) (config : Config) (fs : FileSystem)
    (faults : Faults) : Outcome × FileSystem :=
  match invocation.command with
  | .decode =>
      decode fs config invocation.json invocation.input
        (outputPath invocation.given invocation.input config.exporting.format) faults
  | .info => (info fs config invocation.json invocation.input faults, fs)

/-- The ways that a run ends, with what it shows and the file system it leaves. -/
inductive Ends (platform : Option String) (invocation : Invocation) (fs : FileSystem)
    (faults : Faults) : Outcome × FileSystem → Prop
  /-- There are no valid settings to start from. -/
  | unloaded {error : SettingsError}
      (hload : Config.loadOrDefault fs platform invocation.config faults = .error error) :
      Ends platform invocation fs faults (.failed (settingsReport error), fs)
  /-- The command line has made the settings invalid. -/
  | refused {loaded : Config} {error : ConfigError}
      (hload : Config.loadOrDefault fs platform invocation.config faults = .ok loaded)
      (hloaded : loaded.IsValid)
      (hoverrides : Overrides invocation loaded (invocation.settings loaded))
      (hinvalid : ¬(invocation.settings loaded).IsValid)
      (hvalidate : (invocation.settings loaded).validate = .error error) :
      Ends platform invocation fs faults (.failed (optionsReport error), fs)
  | carriedOut {loaded : Config}
      (hload : Config.loadOrDefault fs platform invocation.config faults = .ok loaded)
      (hloaded : loaded.IsValid)
      (hoverrides : Overrides invocation loaded (invocation.settings loaded))
      (hvalid : (invocation.settings loaded).IsValid)
      (hoptions : (invocation.settings loaded).assemblyOptions.IsValid) :
      Ends platform invocation fs faults
        (invocation.carryOut (invocation.settings loaded) fs faults)

theorem Opens.maxPoints {loaded : Config} {conversion : Conversion} {location : Location}
    (h : Opens platform invocation fs faults loaded conversion location) :
    (invocation.settings loaded).assemblyOptions.maxPoints ≠ some 0 :=
  (Config.validate_eq_ok_iff.mp h.validates).assemblyOptions.maxPoints

end CommandLine

end Toolpath
