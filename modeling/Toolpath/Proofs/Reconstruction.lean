import Toolpath.Error
import Toolpath.Proofs.Parameters
import Toolpath.Proofs.Requirements
import Toolpath.Summary

/-! # Reconstructions that are tried and that are refused

A cloud is handed over exactly if it meets every condition, the parameters
first, then the number of points, then the box. It is handed over once and as it
is. Otherwise the first condition that is not met is told, by the refusal as by
the summary of a conversion.
-/

namespace Toolpath

open Requirement

namespace ReconstructionParams

/-- The ranges of the parameters in the order in which they are checked. -/
def requirements (params : ReconstructionParams) : List (Requirement ReconstructionError) :=
  [⟨1 ≤ params.depth ∧ params.depth ≤ 16,
      .invalidParameter "depth" "must be between 1 and 16"⟩,
    ⟨params.scale.isFinite = true ∧ 0.0 < params.scale, .invalidParameter "scale" "must be > 0"⟩,
    ⟨params.numSamples ≠ 0, .invalidParameter "num_samples" "must be > 0"⟩,
    ⟨params.normalRadius.isFinite = true ∧ 0.0 < params.normalRadius,
      .invalidParameter "normal_radius" "must be > 0"⟩,
    ⟨params.maxNeighbours ≠ 0, .invalidParameter "max_neighbours" "must be > 0"⟩]

theorem allMet_requirements_iff {params : ReconstructionParams} :
    AllMet params.requirements ↔ params.IsValid := by
  simp only [AllMet, requirements, List.forall_mem_cons]
  constructor
  · rintro ⟨⟨hpos, hle⟩, ⟨hscale, hscalePos⟩, hsamples, ⟨hradius, hradiusPos⟩, hneighbours, -⟩
    exact ⟨hpos, hle, hscale, hscalePos, hsamples, hradius, hradiusPos, hneighbours⟩
  · intro h
    exact ⟨⟨h.depth_pos, h.depth_le⟩, ⟨h.scale_finite, h.scale_pos⟩, h.numSamples,
      ⟨h.normalRadius_finite, h.normalRadius_pos⟩, h.maxNeighbours, List.forall_mem_nil _⟩

theorem decides_validate (params : ReconstructionParams) :
    Decides params.requirements params.validate := by
  have hdepth : ¬(params.depth < 1 || 16 < params.depth) = true ↔
      1 ≤ params.depth ∧ params.depth ≤ 16 := by
    simp only [Bool.or_eq_true, decide_eq_true_eq, not_or, Nat.not_lt]
  exact .refuse hdepth (fun _ => rfl) (.refuse not_not_isPositive_iff (fun _ => rfl)
    (.refuse .rfl (fun _ => rfl) (.refuse not_not_isPositive_iff (fun _ => rfl)
      (.refuse .rfl (fun _ => rfl) decides_nil))))

end ReconstructionParams

namespace PointCloud

variable {cloud : PointCloud} {params : ReconstructionParams}

/-- The cloud and the parameters are fit to be handed over. -/
structure IsFit (cloud : PointCloud) (params : ReconstructionParams) : Prop where
  isValid : params.IsValid
  /-- No reconstruction starts from nothing, whatever the parameters say. -/
  enough : max params.minPoints 1 ≤ cloud.size
  bounds : cloud.bounds.isValid = true

/-- What is checked before a cloud is handed over. -/
def requirements (cloud : PointCloud) (params : ReconstructionParams) :
    List (Requirement ReconstructionError) :=
  params.requirements ++
    [⟨max params.minPoints 1 ≤ cloud.size, .tooFewPoints cloud.size (max params.minPoints 1)⟩,
      ⟨cloud.bounds.isValid = true, .missingBounds⟩]

theorem allMet_requirements_iff : AllMet (cloud.requirements params) ↔ cloud.IsFit params := by
  have hsplit : AllMet (cloud.requirements params) ↔ AllMet params.requirements ∧ _ :=
    List.forall_mem_append
  rw [hsplit, ReconstructionParams.allMet_requirements_iff, List.forall_mem_cons,
    List.forall_mem_singleton]
  exact ⟨fun ⟨hparams, hpoints, hbounds⟩ => ⟨hparams, hpoints, hbounds⟩,
    fun h => ⟨h.isValid, h.enough, h.bounds⟩⟩

theorem decides_checkReconstruction (cloud : PointCloud) (params : ReconstructionParams) :
    Decides (cloud.requirements params) (cloud.checkReconstruction params) := by
  refine params.decides_validate.andThen (.refuse Nat.not_lt (fun _ => rfl)
    (.refuse ?_ (fun _ => rfl) decides_nil))
  rw [Bool.not_eq_true', Bool.not_eq_false]
  rfl

/-- Whatever keeps a cloud from being handed over is found before the reconstruction is tried. -/
theorem isPrecondition_of_firstUnmet {failure : ReconstructionError}
    (h : FirstUnmet (cloud.requirements params) failure) : failure.isPrecondition = true := by
  have hall : ∀ requirement ∈ cloud.requirements params,
      requirement.failure.isPrecondition = true := by
    simp only [requirements, ReconstructionParams.requirements, List.cons_append, List.nil_append,
      List.forall_mem_cons]
    exact ⟨rfl, rfl, rfl, rfl, rfl, rfl, rfl, List.forall_mem_nil _⟩
  obtain ⟨requirement, hmem, -, rfl⟩ := h.exists_mem
  exact hall requirement hmem

section Backends

variable {m : Type → Type} [Monad m] {Mesh : Type}

/-- A reconstruction that keeps a list of what it has been handed. -/
def recording (backend : PointCloud → ReconstructionParams → m (Except ReconstructionError Mesh))
    (cloud : PointCloud) (params : ReconstructionParams) :
    StateT (List (PointCloud × ReconstructionParams)) m (Except ReconstructionError Mesh) :=
  fun calls => do
    let result ← backend cloud params
    pure (result, calls ++ [(cloud, params)])

/-- A cloud that is fit is handed over once, as it is and with the parameters as they are, and what
comes of it is the answer. Any other is not handed over, and the answer is the first condition that
it does not meet. The summary of a conversion calls it ready in the first case only, and has the
words of that answer in the second. -/
theorem reconstruct_gate
    (backend : PointCloud → ReconstructionParams → m (Except ReconstructionError Mesh))
    (cloud : PointCloud) (params : ReconstructionParams)
    (calls : List (PointCloud × ReconstructionParams)) (input : String) (stats : DecodeStats)
    (read : ReadStats) :
    let recorded := (reconstruct (recording backend) cloud params).run calls
    let summary := Conversion.summary ⟨input, cloud, stats, read⟩ params
    (cloud.IsFit params ∧ reconstruct backend cloud params = backend cloud params ∧
      recorded = (do
        let result ← backend cloud params
        pure (result, calls ++ [(cloud, params)])) ∧
      summary.isReady = true ∧ summary.issue = none) ∨
    (¬cloud.IsFit params ∧ ∃ failure, FirstUnmet (cloud.requirements params) failure ∧
      (Error.reconstruction failure).isPrecondition = true ∧
      reconstruct backend cloud params = pure (.error failure) ∧
      recorded = pure (.error failure, calls) ∧
      summary.isReady = false ∧ summary.issue = some failure.message) := by
  intro recorded summary
  have hdecides := decides_checkReconstruction cloud params
  have hissue : summary.issue = Conversion.issue? ⟨input, cloud, stats, read⟩ params := rfl
  have hready : summary.isReady = summary.issue.isNone := rfl
  rw [Conversion.issue?] at hissue
  cases hcheck : cloud.checkReconstruction params with
  | ok _ =>
      have hfit := allMet_requirements_iff.mp (hdecides.ok_iff.mp hcheck)
      rw [hcheck] at hissue
      refine .inl ⟨hfit, ?_, ?_, ?_, hissue⟩
      · rw [reconstruct, hcheck]
      · simp only [recorded, reconstruct, hcheck]
        rfl
      · rw [hready, hissue]
        rfl
  | error failure =>
      have hfirst := (hdecides.error_iff failure).mp hcheck
      rw [hcheck] at hissue
      refine .inr ⟨fun hfit => hfirst.not_allMet (allMet_requirements_iff.mpr hfit), failure,
        hfirst, isPrecondition_of_firstUnmet hfirst, ?_, ?_, ?_, hissue⟩
      · rw [reconstruct, hcheck]
      · simp only [recorded, reconstruct, hcheck]
        rfl
      · rw [hready, hissue]
        rfl

end Backends

end PointCloud

end Toolpath
