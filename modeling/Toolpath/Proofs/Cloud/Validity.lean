import Toolpath.Proofs.Cloud.Bounds
import Toolpath.Proofs.Geometry.Validity
import Toolpath.Proofs.Motion.Finiteness
import Toolpath.Proofs.Parameters

/-! # Clouds that are fit for a reconstruction

The segments of a program run between finite positions. Clouds of such segments
have finite points and a box that is empty or valid. In the interpolated mode
only deposits contribute points, and every deposit widens the box; a cloud that
has points there has a box as well, and nothing else can be missing than points.
-/

namespace Toolpath

namespace Assembler

variable {assembler : Assembler}

/-- What holds of an assembler whatever finite segments it has taken in. -/
structure Sound (assembler : Assembler) : Prop where
  bounds : assembler.cloud.bounds.Settled
  points : ∀ p ∈ assembler.cloud.points.toList, p.isFinite = true
  /-- Without a box there are only points that were not sampled along deposits. -/
  deposits : assembler.options.decode.mode = .interpolated →
    assembler.cloud.bounds = Box.empty → assembler.cloud.points.toList = []

theorem sound_start (options : AssemblyOptions) : Sound { options } where
  bounds := .inl rfl
  points := fun _ hp => absurd hp List.not_mem_nil
  deposits := fun _ _ => rfl

theorem mem_of_mem_fitting {α : Type} {room : Option Nat} {as : List α} {a : α}
    (h : a ∈ fitting room as) : a ∈ as := by
  cases room with
  | none => exact h
  | some room => exact List.mem_of_mem_take h

theorem mem_of_mem_corners {segment : MotionSegment} {decode : DecodeOptions} {room : Option Nat}
    {p : Point} (hp : p ∈ segment.corners decode room) :
    p = segment.start ∨ p = segment.stop ∨ p ∈ (segment.points decode).toList := by
  simp only [MotionSegment.corners] at hp
  split at hp
  · rcases List.mem_cons.mp hp with hstart | hp
    · exact .inl hstart
    · split at hp
      · exact .inr (.inl (List.mem_singleton.mp hp))
      · rw [Option.mem_toList] at hp
        exact .inr (.inr (mem_of_mem_fitting (List.mem_of_getLast? hp)))
  · exact absurd hp List.not_mem_nil

/-- The corners of a finite segment are finite, and a deposit has some. -/
theorem isFinite_of_mem_corners {segment : MotionSegment} (h : segment.IsFinite)
    (decode : DecodeOptions) (room : Option Nat) :
    ∀ p ∈ segment.corners decode room, p.isFinite = true := by
  intro p hp
  rcases mem_of_mem_corners hp with rfl | rfl | hpoint
  · exact h.1
  · exact h.2
  · exact MotionSegment.isFinite_of_mem_points h.1 h.2 hpoint

theorem Sound.insert (h : assembler.Sound) {segment : MotionSegment} (hsegment : segment.IsFinite) :
    (assembler.insert segment).Sound := by
  by_cases hroom : assembler.room = some 0
  · rw [assembler.insert_of_isFull (assembler.isFull_iff.mpr hroom)]
    exact h
  have hbounds := assembler.bounds_insert hroom segment
  have hcorners : ∀ p ∈ (segment.corners assembler.options.decode assembler.room).map
      assembler.options.normalize, p.isFinite = true := by
    intro p hp
    obtain ⟨corner, hcorner, rfl⟩ := List.mem_map.mp hp
    exact assembler.options.isFinite_normalize (isFinite_of_mem_corners hsegment _ _ _ hcorner)
  have hgrown (hne : segment.corners assembler.options.decode assembler.room ≠ []) :
      (assembler.insert segment).cloud.bounds.isValid = true := by
    rw [hbounds]
    exact h.bounds.foldl_insert hcorners (mt List.map_eq_nil_iff.mp hne)
  constructor
  · by_cases hnil : segment.corners assembler.options.decode assembler.room = []
    · rw [hbounds, hnil]
      exact h.bounds
    · exact .inr (hgrown hnil)
  · intro p hp
    rw [points_insert, List.mem_append, List.mem_map] at hp
    rcases hp with hp | ⟨q, hq, rfl⟩
    · exact h.points p hp
    · exact assembler.options.isFinite_normalize
        (MotionSegment.isFinite_of_mem_points hsegment.1 hsegment.2 (mem_of_mem_fitting hq))
  · intro hmode hempty
    rw [options_insert] at hmode
    cases hdeposit : segment.isDeposit with
    | true =>
        -- A deposit would have made the box valid.
        refine absurd hempty (Box.ne_empty_of_isValid (hgrown ?_))
        simp [MotionSegment.corners, hdeposit]
    | false =>
        have hnone : (segment.points assembler.options.decode).toList = [] := by
          rw [MotionSegment.points, hmode, hdeposit]
          rfl
        have hkept : segment.corners assembler.options.decode assembler.room = [] := by
          simp [MotionSegment.corners, hdeposit]
        rw [hbounds, hkept] at hempty
        rw [points_insert, hnone, fitting_nil, List.map_nil, List.append_nil]
        exact h.deposits hmode hempty

theorem Sound.pushAll (h : assembler.Sound) {segments : List MotionSegment}
    (hsegments : ∀ segment ∈ segments, segment.IsFinite) : (assembler.pushAll segments).Sound := by
  rw [pushAll_eq_foldl]
  induction segments generalizing assembler with
  | nil => exact h
  | cons segment segments ih =>
      obtain ⟨hsegment, hrest⟩ := List.forall_mem_cons.mp hsegments
      rw [List.foldl_cons]
      exact ih (h.insert hsegment) hrest

theorem options_pushAll (assembler : Assembler) (segments : List MotionSegment) :
    (assembler.pushAll segments).options = assembler.options := by
  rw [pushAll_eq_foldl]
  induction segments generalizing assembler with
  | nil => rfl
  | cons segment segments ih => rw [List.foldl_cons, ih, options_insert]

end Assembler

namespace PointCloud

variable (options : AssemblyOptions)

theorem sound_ofSegments {segments : List MotionSegment}
    (h : ∀ segment ∈ segments, segment.IsFinite) :
    (Assembler.pushAll { options } segments).Sound :=
  (Assembler.sound_start options).pushAll h

/-- In the interpolated mode a cloud with points has a box. -/
theorem hasDeposits_of_interpolated {segments : List MotionSegment}
    (h : ∀ segment ∈ segments, segment.IsFinite) (hmode : options.decode.mode = .interpolated)
    (hpoints : (ofSegments options segments).isEmpty = false) :
    (ofSegments options segments).hasDeposits = true := by
  have hsound := sound_ofSegments options h
  rcases hsound.bounds with hempty | hvalid
  · have hnil := hsound.deposits (by rwa [Assembler.options_pushAll]) hempty
    rw [isEmpty, Array.isEmpty_eq_false_iff] at hpoints
    exact absurd (Array.toList_eq_nil_iff.mp hnil) hpoints
  · exact hvalid

end PointCloud

namespace PointCloud

/-- A cloud that has a box whenever it has points lacks nothing but points. -/
theorem checkReconstruction_of_hasDeposits {cloud : PointCloud}
    (h : cloud.isEmpty = false → cloud.hasDeposits = true) (params : ReconstructionParams) :
    cloud.checkReconstruction params = .ok () ∨
      (∃ name reason, cloud.checkReconstruction params = .error (.invalidParameter name reason)) ∨
      cloud.checkReconstruction params =
        .error (.tooFewPoints cloud.size params.requiredPoints) := by
  unfold checkReconstruction
  cases hvalidate : params.validate with
  | error failure =>
      obtain ⟨name, reason, rfl⟩ := params.eq_invalidParameter_of_validate hvalidate
      exact .inr (.inl ⟨name, reason, rfl⟩)
  | ok _ =>
      by_cases hfew : cloud.size < params.requiredPoints
      · right; right
        simp only [if_pos hfew]
        rfl
      · have hsize : cloud.size ≠ 0 := by
          have := params.requiredPoints_pos
          omega
        have hpoints : cloud.isEmpty = false := by
          rw [isEmpty, Array.isEmpty_eq_false_iff]
          exact fun hnone => hsize (by rw [size, hnone]; rfl)
        left
        simp only [if_neg hfew, h hpoints]
        rfl

/-- In the interpolated mode a program never makes a cloud that has points and no box, whatever its
lines, the step, the rounding and the limit. So if a reconstruction is refused, then for a parameter
or because there are too few points. -/
theorem checkReconstruction_ofStream_interpolated (lines : List String) (step : Float)
    (places maxPoints : Option Nat) :
    let options : AssemblyOptions := { decode := { mode := .interpolated, step }, places, maxPoints }
    let cloud := (ofStream options { lines }).1
    cloud = ofSegments options (SegmentStream.rest { lines }).1 ∧
      (cloud.isEmpty = false → cloud.hasDeposits = true) ∧
      ∀ params : ReconstructionParams,
        cloud.checkReconstruction params = .ok () ∨
          (∃ name reason,
            cloud.checkReconstruction params = .error (.invalidParameter name reason)) ∨
          cloud.checkReconstruction params =
            .error (.tooFewPoints cloud.size params.requiredPoints) := by
  intro options cloud
  have hcloud : cloud = ofSegments options (MotionDecoder.segments {} lines) :=
    congrArg Assembler.cloud (Assembler.fst_pushLines { options } {} lines)
  have hfinite := MotionDecoder.isFinite_of_mem_segments MotionDecoder.isFinite_origin lines
  have hbox : cloud.isEmpty = false → cloud.hasDeposits = true := by
    rw [hcloud]
    exact hasDeposits_of_interpolated options hfinite rfl
  refine ⟨?_, hbox, checkReconstruction_of_hasDeposits hbox⟩
  rw [hcloud, SegmentStream.rest_eq]

/-- A deposit of one unit has four samples, and a box with them. -/
theorem checkReconstruction_ofStream_deposit :
    let cloud := (ofStream { decode := { mode := .interpolated, step := 0.25 } }
      { lines := ["G1 X1 E1"] }).1
    cloud.size = 4 ∧ cloud.hasDeposits = true := by
  intro cloud
  have hsize : cloud.size = 4 := by decide +kernel
  refine ⟨hsize, ?_⟩
  exact (checkReconstruction_ofStream_interpolated ["G1 X1 E1"] 0.25 (some 5) none).2.1
    (by decide +kernel)

end PointCloud

end Toolpath
