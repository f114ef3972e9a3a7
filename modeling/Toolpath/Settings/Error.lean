import Toolpath.Files.Failure

/-! # What can be wrong with settings
-/

namespace Toolpath

/-- What is wrong with settings themselves, or with the name of their file. -/
inductive ConfigError where
  | unsupportedFormat (extension : String)
  | outOfRange (key value reason : String)
  deriving DecidableEq, Repr

/-- The wording of the error. -/
def ConfigError.message : ConfigError → String
  | unsupportedFormat extension => s!"Unsupported config format: {extension}"
  | outOfRange key value reason => s!"Value out of range for '{key}': {value} ({reason})"

/-- Why settings cannot be loaded or saved. -/
inductive SettingsError where
  /-- The file cannot be read. -/
  | load (path : String) (cause : IoFailure)
  /-- The file cannot be written. -/
  | save (path : String) (cause : IoFailure)
  /-- The directory of the file cannot be made. -/
  | io (cause : IoFailure)
  /-- The file is not JSON, or is not JSON for settings. -/
  | json
  /-- The file is not TOML, or is not TOML for settings. -/
  | toml
  /-- The settings hold an integer that TOML has no room for. -/
  | tomlInteger
  | config (error : ConfigError)
  deriving DecidableEq, Repr

namespace SettingsError

/-- What is said about a document that is not one of settings. -/
def documentText : String := "not a document of settings"

/-- The wording of the error. -/
def message : SettingsError → String
  | load path cause => s!"Failed to load settings: {path}: {cause.message}"
  | save path cause => s!"Failed to save settings: {path}: {cause.message}"
  | io cause => s!"I/O error: {cause.message}"
  | json => s!"JSON error: {documentText}"
  | toml => s!"TOML error: {documentText}"
  | tomlInteger => "TOML error: an integer is out of range"
  | config error => s!"Config error: {error.message}"

/-- The wordings of the errors behind the error, the nearest first. -/
def causes : SettingsError → List String
  | load .. | save .. => []
  | io cause => [cause.message]
  | json | toml => [documentText]
  | tomlInteger => ["an integer is out of range"]
  | config error => [error.message]

end SettingsError

end Toolpath
