import Toolpath.Reconstruction

/-! # Parameters of a reconstruction

Parameters are refused for one of them. Those that are not refused are all within
their ranges.
-/

namespace Toolpath

/-- A check that refuses nothing lets everything behind it decide. -/
theorem refuse_eq_ok {ε α : Type} {p : Prop} [Decidable p] {failure : ε} {x : Except ε α} {a : α} :
    (if p then .error failure else x) = .ok a ↔ ¬p ∧ x = .ok a := by
  split
  next h => exact ⟨nofun, fun hnot => absurd h hnot.1⟩
  next h => exact ⟨fun hx => ⟨h, hx⟩, And.right⟩

namespace ReconstructionParams

/-- Every parameter is within its range. -/
structure IsValid (params : ReconstructionParams) : Prop where
  depth_pos : 1 ≤ params.depth
  depth_le : params.depth ≤ 16
  scale_finite : params.scale.isFinite = true
  scale_pos : 0.0 < params.scale
  numSamples : params.numSamples ≠ 0
  normalRadius_finite : params.normalRadius.isFinite = true
  normalRadius_pos : 0.0 < params.normalRadius
  maxNeighbours : params.maxNeighbours ≠ 0

variable {params : ReconstructionParams}

theorem eq_invalidParameter_of_validate {failure : ReconstructionError}
    (h : params.validate = .error failure) :
    ∃ name reason, failure = .invalidParameter name reason := by
  unfold validate at h
  repeat' split at h
  all_goals first | cases h; exact ⟨_, _, rfl⟩ | cases h

theorem requiredPoints_pos (params : ReconstructionParams) : 0 < params.requiredPoints :=
  Nat.le_max_right _ _

theorem not_not_isPositive_iff {x : Float} :
    (¬(!isPositive x) = true) ↔ x.isFinite = true ∧ 0.0 < x := by
  rw [Bool.not_eq_true', Bool.not_eq_false, isPositive, Bool.and_eq_true, decide_eq_true_eq]

/-- The check accepts exactly the parameters that are within their ranges. -/
theorem validate_eq_ok_iff : params.validate = .ok () ↔ params.IsValid := by
  have hdepth : (¬(params.depth < 1 || 16 < params.depth) = true) ↔
      1 ≤ params.depth ∧ params.depth ≤ 16 := by
    simp only [Bool.or_eq_true, decide_eq_true_eq, not_or, Nat.not_lt]
  simp only [validate, refuse_eq_ok, hdepth, not_not_isPositive_iff, and_true]
  constructor
  · rintro ⟨⟨hpos, hle⟩, ⟨hscale, hscalePos⟩, hsamples, ⟨hradius, hradiusPos⟩, hneighbours⟩
    exact ⟨hpos, hle, hscale, hscalePos, hsamples, hradius, hradiusPos, hneighbours⟩
  · intro h
    exact ⟨⟨h.depth_pos, h.depth_le⟩, ⟨h.scale_finite, h.scale_pos⟩, h.numSamples,
      ⟨h.normalRadius_finite, h.normalRadius_pos⟩, h.maxNeighbours⟩

end ReconstructionParams

end Toolpath
