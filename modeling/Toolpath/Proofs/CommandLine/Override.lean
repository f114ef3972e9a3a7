import Toolpath.CommandLine.Run
import Toolpath.Proofs.CommandLine.Spelling

/-! # What the command line overrides

A flag that is given decides its setting, and one that is not leaves what was
loaded. Rounding has two flags, which the command line does not allow together.
The format of the output is the one asked for, or else the one that the place
of the output tells, or else that of the settings.
-/

namespace Toolpath.CommandLine

/-! ## Settings in place of others -/

/-- A flag that is given decides a setting, and one that is not leaves it as it was loaded. -/
inductive Decides {α : Type} : (flag : Option α) → (loaded effective : α) → Prop
  | given (value loaded : α) : Decides (some value) loaded value
  | absent (loaded : α) : Decides none loaded loaded

/-- The format of the output that the command line chooses where another one was loaded. -/
inductive ChoosesFormat (given : Given) (loaded : PointFormat) : PointFormat → Prop
  | asked {format : PointFormat} (h : given.format = some format) :
      ChoosesFormat given loaded format
  | recognised {output : String} {format : PointFormat} (hasked : given.format = none)
      (houtput : given.output = some output) (h : PointFormat.ofPath? output = some format) :
      ChoosesFormat given loaded format
  | loaded (hasked : given.format = none)
      (h : ∀ output, given.output = some output → PointFormat.ofPath? output = none) :
      ChoosesFormat given loaded loaded

/-- How the settings that a command works with come of those that were loaded. -/
structure Overrides (invocation : Invocation) (loaded effective : Config) : Prop where
  mode : Decides invocation.given.mode loaded.decode.mode effective.decode.mode
  step : Decides invocation.given.step loaded.decode.step effective.decode.step
  maxPoints : Decides (invocation.given.maxPoints.map some) loaded.decode.maxPoints
    effective.decode.maxPoints
  roundPlaces : Decides invocation.given.decimals loaded.decode.roundPlaces
    effective.decode.roundPlaces
  /-- Coordinates are rounded to the number of decimals given, even if they were not before. -/
  decimals : ∀ n, invocation.given.decimals = some n → effective.decode.places = some n
  noRound : invocation.given.noRound = true → effective.decode.places = none
  places : invocation.given.decimals = none → invocation.given.noRound = false →
    effective.decode.places = loaded.decode.places
  reconstruction : effective.reconstruction = loaded.reconstruction
  delimiter : effective.exporting.delimiter = loaded.exporting.delimiter
  format : invocation.command = .decode →
    ChoosesFormat invocation.given loaded.exporting.format effective.exporting.format

section Settings

variable {invocation : Invocation} {given : Given}

end Settings

end Toolpath.CommandLine
