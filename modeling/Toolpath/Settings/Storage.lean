import Toolpath.Files.Faults
import Toolpath.Json.Printer
import Toolpath.Json.Reader
import Toolpath.Settings.Validation
import Toolpath.Toml.Printer
import Toolpath.Toml.Reader

/-! # Settings files

The extension of a file decides whether it is JSON or TOML. Settings are valid
when they have been loaded, and invalid ones are not saved. Saving makes the
directories on the way, but touches nothing before everything has been checked
that can be checked without the file system.
-/

namespace Toolpath

/-- The formats of settings files. -/
inductive SettingsFormat where
  | json
  | toml
  deriving DecidableEq, Repr

/-- The format of a settings file by its extension, in any case. -/
def SettingsFormat.ofPath (path : String) : Except ConfigError SettingsFormat :=
  match Path.extension? path with
  | none => .error (.unsupportedFormat "<none>")
  | some extension =>
      if Text.sameLetters extension "json" then .ok .json
      else if Text.sameLetters extension "toml" then .ok .toml
      else .error (.unsupportedFormat extension)

namespace Config

/-- The settings that a document holds, valid or not. -/
def parse (format : SettingsFormat) (text : List Char) : Except SettingsError Config :=
  match format with
  | .json => ((Json.read? text).bind (Config.ofData? Json.dialect)).elim (.error .json) .ok
  | .toml => ((Toml.read? text).bind (Config.ofData? Toml.dialect)).elim (.error .toml) .ok

/-- The document that holds the settings. -/
def render (format : SettingsFormat) (config : Config) : Except SettingsError String :=
  match format with
  | .json => .ok (Json.pretty config.toData)
  | .toml => (Toml.print? config.toData).elim (.error .tomlInteger) .ok

/-- Load settings from a file. -/
def load (fs : FileSystem) (path : String) (faults : Faults := {}) :
    Except SettingsError Config := do
  let format ← (SettingsFormat.ofPath path).mapError .config
  let text ← (faults.readText fs path).mapError (.load path)
  let config ← parse format text
  config.validate.mapError .config
  return config

/-- Load settings from the given file, or else from the file of the platform if there is one, or
else take the defaults. -/
def loadOrDefault (fs : FileSystem) (platform : Option String) (path : Option String)
    (faults : Faults := {}) : Except SettingsError Config :=
  match path with
  | some path => load fs path faults
  | none =>
      match platform with
      | some path => if fs.isFile path then load fs path faults else .ok {}
      | none => .ok {}

/-- The directory that a file has to be put into, unless it is the current one. -/
def directoryOf? (path : String) : Option String :=
  (Path.parent? path).filter (· ≠ "")

/-- Save settings to a file. -/
def save (config : Config) (fs : FileSystem) (path : String) :
    Except SettingsError Unit × FileSystem :=
  let prepared : Except SettingsError String := do
    config.validate.mapError .config
    render (← (SettingsFormat.ofPath path).mapError .config) config
  match prepared with
  | .error failure => (.error failure, fs)
  | .ok content =>
      let (made, fs) : Except IoFailure Unit × FileSystem :=
        match directoryOf? path with
        | none => (.ok (), fs)
        | some directory => fs.makeDirectories directory
      match made with
      | .error failure => (.error (.io failure), fs)
      | .ok () =>
          match fs.write path (Utf8.encode content.toList) with
          | .ok after => (.ok (), after)
          | .error failure => (.error (.save path failure), fs)

end Config

end Toolpath
