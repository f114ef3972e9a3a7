import Toolpath.Proofs.Number.Written
import Toolpath.Proofs.Reconstruction
import Toolpath.Proofs.Settings.Validity

/-! # The first fault of settings

Settings that are refused are refused for the first of them that is out of its
range, in the order of the sections. The refusal has the name of the setting
with its section and the value as text; a missing delimiter is shown as a pair
of quotes, since nothing would be seen of it otherwise.
-/

namespace Toolpath

open Requirement

theorem Number.display_ne_empty (x : Float) : display x ≠ "" := by
  have hread : read? [] = none := rfl
  have htext : text x ≠ [] := by
    by_cases hx : x.isFinite = true
    · intro hnil
      have hback := read?_text hx
      rw [hnil, hread] at hback
      cases hback
    · rw [text, if_neg hx]
      repeat' split
      all_goals decide
  exact fun h => htext (String.ofList_eq_empty_iff.mp h)

theorem toString_ne_empty (n : Nat) : toString n ≠ "" :=
  fun h => (isDigits_digits n).1 (String.ofList_eq_empty_iff.mp h)

namespace Config

variable {config : Config}

/-- The condition on one setting, with the refusal that names it and shows its value. -/
def range (holds : Prop) (key value reason : String) : Requirement ConfigError :=
  ⟨holds, .outOfRange key value reason⟩

/-- The ranges of the settings in the order in which they are checked. -/
def requirements (config : Config) : List (Requirement ConfigError) :=
  [range (config.decode.step.isFinite = true ∧ 0.0 < config.decode.step)
      "decode.resolution_step" (Number.display config.decode.step) "must be > 0",
    range (config.decode.roundPlaces ≤ 15)
      "decode.round_decimals" (toString config.decode.roundPlaces) "must be <= 15",
    range (config.decode.maxPoints ≠ some 0)
      "decode.max_points" (config.decode.maxPoints.elim "none" toString) "must be > 0",
    range (1 ≤ config.reconstruction.depth ∧ config.reconstruction.depth ≤ 16)
      "reconstruction.depth" (toString config.reconstruction.depth) "must be between 1 and 16",
    range (config.reconstruction.scale.isFinite = true ∧ 0.0 < config.reconstruction.scale)
      "reconstruction.scale" (Number.display config.reconstruction.scale) "must be > 0",
    range (config.reconstruction.numSamples ≠ 0)
      "reconstruction.num_samples" (toString config.reconstruction.numSamples) "must be > 0",
    range (config.reconstruction.normalRadius.isFinite = true ∧
        0.0 < config.reconstruction.normalRadius)
      "reconstruction.normal_radius" (Number.display config.reconstruction.normalRadius)
      "must be > 0",
    range (config.reconstruction.maxNeighbours ≠ 0)
      "reconstruction.max_neighbours" (toString config.reconstruction.maxNeighbours)
      "must be > 0",
    range (config.exporting.delimiter ≠ "")
      "export.delimiter" ("\"" ++ config.exporting.delimiter ++ "\"") "must not be empty"]

/-- The refusal of a parameter of the reconstruction as that of a setting. -/
def parameterError (params : ReconstructionParams) (error : ReconstructionError) : ConfigError :=
  match error with
  | .invalidParameter name reason =>
      .outOfRange s!"reconstruction.{name}" (params.valueText name) reason
  | other => .outOfRange "reconstruction" "" other.message

theorem requirements_parameters (params : ReconstructionParams) :
    params.requirements.map (relabel (parameterError params)) =
      [range (1 ≤ params.depth ∧ params.depth ≤ 16)
        "reconstruction.depth" (toString params.depth) "must be between 1 and 16",
      range (params.scale.isFinite = true ∧ 0.0 < params.scale)
        "reconstruction.scale" (Number.display params.scale) "must be > 0",
      range (params.numSamples ≠ 0)
        "reconstruction.num_samples" (toString params.numSamples) "must be > 0",
      range (params.normalRadius.isFinite = true ∧ 0.0 < params.normalRadius)
        "reconstruction.normal_radius" (Number.display params.normalRadius) "must be > 0",
      range (params.maxNeighbours ≠ 0)
        "reconstruction.max_neighbours" (toString params.maxNeighbours) "must be > 0"] := by
  rfl

theorem decides_delimiter (delimiter : String) :
    Decides [range (delimiter ≠ "") "export.delimiter" ("\"" ++ delimiter ++ "\"")
        "must not be empty"]
      (if delimiter = "" then
        .error (.outOfRange "export.delimiter" "\"\"" "must not be empty")
      else .ok ()) :=
  .refuse .rfl (fun hempty => by rw [hempty]; rfl) decides_nil

theorem decides_validate (config : Config) : Decides config.requirements config.validate := by
  have hparameters := config.reconstruction.decides_validate.mapError
    (parameterError config.reconstruction)
  rw [requirements_parameters] at hparameters
  have hrest := hparameters.andThen (decides_delimiter config.exporting.delimiter)
  refine .refuse ReconstructionParams.not_not_isPositive_iff (fun _ => rfl)
    (.refuse Nat.not_lt (fun _ => rfl) (.refuse .rfl (fun hzero => by rw [hzero]; rfl) ?_))
  -- The check of the parameters refuses nothing but parameters, so all its refusals are passed on.
  cases hparams : config.reconstruction.validate with
  | error failure =>
      obtain ⟨name, reason, rfl⟩ := ReconstructionParams.eq_invalidParameter_of_validate hparams
      rw [hparams] at hrest
      exact hrest
  | ok _ =>
      rw [hparams] at hrest
      exact hrest

theorem value_ne_empty_of_firstUnmet {error : ConfigError}
    (h : FirstUnmet config.requirements error) :
    ∃ key value reason, error = .outOfRange key value reason ∧ value ≠ "" := by
  have hquoted (delimiter : String) : "\"" ++ delimiter ++ "\"" ≠ "" := by
    intro hempty
    have hlist := congrArg String.toList hempty
    simp at hlist
  have hlimit (limit : Option Nat) : limit.elim "none" toString ≠ "" := by
    cases limit with
    | none => decide
    | some n => exact toString_ne_empty n
  have hall : ∀ requirement ∈ config.requirements, ∃ key value reason,
      requirement.failure = .outOfRange key value reason ∧ value ≠ "" := by
    simp only [requirements, List.forall_mem_cons]
    exact ⟨⟨_, _, _, rfl, Number.display_ne_empty _⟩, ⟨_, _, _, rfl, toString_ne_empty _⟩,
      ⟨_, _, _, rfl, hlimit _⟩, ⟨_, _, _, rfl, toString_ne_empty _⟩,
      ⟨_, _, _, rfl, Number.display_ne_empty _⟩, ⟨_, _, _, rfl, toString_ne_empty _⟩,
      ⟨_, _, _, rfl, Number.display_ne_empty _⟩, ⟨_, _, _, rfl, toString_ne_empty _⟩,
      ⟨_, _, _, rfl, hquoted _⟩, List.forall_mem_nil _⟩
  obtain ⟨requirement, hmem, -, rfl⟩ := h.exists_mem
  exact hall requirement hmem

/-- The check accepts exactly the settings that are within their ranges, and these are never refused
for a parameter of the reconstruction. All others are refused for the first setting that is out of
its range, by its name with its section, with its value, and never without the text of a value. -/
theorem validate_reports_first (config : Config) :
    (config.validate = .ok () ↔ config.IsValid) ∧
    (∀ error, config.validate = .error error ↔ FirstUnmet config.requirements error) ∧
    (∀ error, config.validate = .error error →
      ∃ key value reason, error = .outOfRange key value reason ∧ value ≠ "") ∧
    (config.validate = .ok () → ∀ (cloud : PointCloud) (name reason : String),
      cloud.checkReconstruction config.reconstruction ≠ .error (.invalidParameter name reason)) := by
  have hdecides := config.decides_validate
  refine ⟨validate_eq_ok_iff, hdecides.error_iff, ?_, ?_⟩
  · exact fun error herror => value_ne_empty_of_firstUnmet ((hdecides.error_iff error).mp herror)
  · intro hok cloud name reason hrefused
    have hparams := (validate_eq_ok_iff.mp hok).reconstruction
    have hmet := ReconstructionParams.allMet_requirements_iff.mpr hparams
    have hfirst := ((cloud.decides_checkReconstruction _).error_iff _).mp hrefused
    rcases firstUnmet_append_iff.mp hfirst with hparameter | ⟨-, hother⟩
    · exact hparameter.not_allMet hmet
    · cases hother with
      | later _ hother =>
          cases hother with
          | later _ hother => cases hother

/-- What is shown for a missing delimiter is not its text, which is empty, but a pair of quotes. -/
theorem validate_shows_quotes :
    let config : Config := { exporting := { delimiter := "" } }
    config.validate = .error (.outOfRange "export.delimiter" "\"\"" "must not be empty") ∧
      ∀ reason, config.validate ≠
        .error (.outOfRange "export.delimiter" config.exporting.delimiter reason) := by
  intro config
  have hrefused : config.validate =
      .error (.outOfRange "export.delimiter" "\"\"" "must not be empty") := by
    decide +kernel
  refine ⟨hrefused, fun reason h => ?_⟩
  rw [hrefused] at h
  have hshown : "\"\"" = "" := by
    injection h with h
    injection h
  exact absurd hshown (by decide)

end Config

end Toolpath
