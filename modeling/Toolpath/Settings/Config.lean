import Toolpath.Cloud.Assembly
import Toolpath.Cloud.Format
import Toolpath.Reconstruction

/-! # Settings

The settings have three sections. Every setting has a default, so a document
need only name what differs.
-/

namespace Toolpath

/-- Settings of decoding and assembly. -/
structure DecodeSettings where
  mode : DecodeMode := .interpolated
  /-- The distance between samples. -/
  step : Float := 0.1
  /-- Coordinates are rounded. -/
  round : Bool := true
  /-- The number of places kept when they are. -/
  roundPlaces : Nat := 5
  maxPoints : Option Nat := none
  deriving BEq, DecidableEq, Inhabited

/-- The number of decimal places kept, if coordinates are rounded. -/
def DecodeSettings.places (settings : DecodeSettings) : Option Nat :=
  if settings.round then some settings.roundPlaces else none

/-- Settings of point files. -/
structure ExportSettings where
  format : PointFormat := .csv
  /-- What stands between the numbers of a line in files that have a delimiter. -/
  delimiter : String := ","
  deriving BEq, DecidableEq, Inhabited

/-- All settings. -/
structure Config where
  decode : DecodeSettings := {}
  reconstruction : ReconstructionParams := {}
  exporting : ExportSettings := {}
  deriving BEq, DecidableEq, Inhabited

namespace Config

/-- The part that decoding needs. -/
def decodeOptions (config : Config) : DecodeOptions :=
  ⟨config.decode.mode, config.decode.step⟩

/-- The part that assembly needs. -/
def assemblyOptions (config : Config) : AssemblyOptions :=
  ⟨config.decodeOptions, config.decode.places, config.decode.maxPoints⟩

end Config

/-! ## In documents -/

/-- The section as a record. -/
def DecodeSettings.toData (settings : DecodeSettings) : Data :=
  .record [("mode", .text settings.mode.name), ("resolution_step", .float settings.step),
    ("round", .bool settings.round), ("round_decimals", .ofNat settings.roundPlaces),
    ("max_points", Data.ofOption .ofNat settings.maxPoints)]

/-- The section that stands in a document. -/
def DecodeSettings.ofData? (dialect : Dialect) (d : Data) : Option DecodeSettings := do
  let default : DecodeSettings := {}
  let fields ← Fields.read? dialect ["mode", "resolution_step", "round", "round_decimals",
    "max_points"] d
  let mode ← fields.withDefault "mode" default.mode fun d =>
    (d.choice? dialect).bind DecodeMode.ofName?
  let step ← fields.withDefault "resolution_step" default.step Data.float?
  let round ← fields.withDefault "round" default.round Data.bool?
  let roundPlaces ← fields.withDefault "round_decimals" default.roundPlaces Data.smallCount?
  let maxPoints ← fields.withDefault "max_points" default.maxPoints
    (Data.nullable? Data.count?)
  some { mode, step, round, roundPlaces, maxPoints }

/-- The section as a record. -/
def ExportSettings.toData (settings : ExportSettings) : Data :=
  .record [("format", settings.format.toData), ("delimiter", .text settings.delimiter)]

/-- The section that stands in a document. -/
def ExportSettings.ofData? (dialect : Dialect) (d : Data) : Option ExportSettings := do
  let default : ExportSettings := {}
  let fields ← Fields.read? dialect ["format", "delimiter"] d
  let format ← fields.withDefault "format" default.format (PointFormat.ofData? dialect)
  let delimiter ← fields.withDefault "delimiter" default.delimiter Data.text?
  some { format, delimiter }

/-- The settings as a record of sections. -/
def Config.toData (config : Config) : Data :=
  .record [("decode", config.decode.toData), ("reconstruction", config.reconstruction.toData),
    ("export", config.exporting.toData)]

/-- The settings that stand in a document. -/
def Config.ofData? (dialect : Dialect) (d : Data) : Option Config := do
  let fields ← Fields.read? dialect ["decode", "reconstruction", "export"] d
  let decode ← fields.withDefault "decode" {} (DecodeSettings.ofData? dialect)
  let reconstruction ←
    fields.withDefault "reconstruction" {} (ReconstructionParams.ofData? dialect)
  let exporting ← fields.withDefault "export" {} (ExportSettings.ofData? dialect)
  some { decode, reconstruction, exporting }

end Toolpath
