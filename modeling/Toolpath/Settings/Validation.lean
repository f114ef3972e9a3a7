import Toolpath.Settings.Config
import Toolpath.Settings.Error

/-! # Valid settings

Settings are valid if each of them is within its range. Of several that are
not, the first in the order of the sections and of their settings is reported,
with its value as text.
-/

namespace Toolpath

/-- The value of a parameter that can be out of range, as text. -/
def ReconstructionParams.valueText (params : ReconstructionParams) (name : String) : String :=
  if name = "depth" then toString params.depth
  else if name = "scale" then Number.display params.scale
  else if name = "num_samples" then toString params.numSamples
  else if name = "normal_radius" then Number.display params.normalRadius
  else if name = "max_neighbours" then toString params.maxNeighbours
  else ""

namespace Config

/-- Whether the settings are valid, and if not, what is wrong first. -/
def validate (config : Config) : Except ConfigError Unit :=
  let decode := config.decode
  if !ReconstructionParams.isPositive decode.step then
    .error (.outOfRange "decode.resolution_step" (Number.display decode.step) "must be > 0")
  else if Number.maxPlaces < decode.roundPlaces then
    .error (.outOfRange "decode.round_decimals" (toString decode.roundPlaces)
      s!"must be <= {Number.maxPlaces}")
  else if decode.maxPoints = some 0 then
    .error (.outOfRange "decode.max_points" "0" "must be > 0")
  else
    match config.reconstruction.validate with
    | .error (.invalidParameter name reason) =>
        .error (.outOfRange s!"reconstruction.{name}" (config.reconstruction.valueText name)
          reason)
    | _ =>
        if config.exporting.delimiter = "" then
          .error (.outOfRange "export.delimiter" "\"\"" "must not be empty")
        else .ok ()

end Config

end Toolpath
