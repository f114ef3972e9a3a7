import Toolpath.Proofs.Cloud.Grouping
import Toolpath.Proofs.Cloud.Validity
import Toolpath.Proofs.Geometry.Union

/-! # The boxes of layers

The extent of what was deposited is found in two ways, from the layers and from
the cloud. A layer has the box of the ends of its segments, and merging these
boxes includes the ends of all deposits in order, which is what an assembler
without a limit and without rounding does as well.
-/

namespace Toolpath

/-- Both ends of a segment. -/
def MotionSegment.ends (segment : MotionSegment) : List Point :=
  [segment.start, segment.stop]

theorem MotionSegment.flatMap_ends_eq_nil_iff {segments : List MotionSegment} :
    segments.flatMap ends = [] ↔ segments = [] := by
  cases segments <;> simp [ends]

/-- The ends of finite segments are finite. -/
theorem MotionSegment.isFinite_of_mem_ends {segments : List MotionSegment}
    (hfinite : ∀ segment ∈ segments, segment.IsFinite) :
    ∀ p ∈ segments.flatMap ends, p.isFinite = true := by
  intro p hp
  obtain ⟨segment, hsegment, hp⟩ := List.mem_flatMap.mp hp
  obtain ⟨hstart, hstop⟩ := hfinite segment hsegment
  rcases List.mem_cons.mp hp with rfl | hp
  · exact hstart
  · rw [List.mem_singleton.mp hp]
    exact hstop

namespace Layer

theorem bounds_eq (layer : Layer) :
    layer.bounds = Box.ofPoints (layer.segments.flatMap MotionSegment.ends) := by
  rw [bounds, Box.ofPoints]
  generalize Box.empty = box
  induction layer.segments generalizing box with
  | nil => rfl
  | cons segment segments ih =>
      rw [List.foldl_cons, ih]
      rfl

/-- Merging the boxes of layers that are not empty includes the ends of their segments. -/
theorem foldl_merge_bounds {layers : List Layer} (hne : ∀ layer ∈ layers, layer.segments ≠ [])
    (hfinite : ∀ segment ∈ layers.flatMap (·.segments), segment.IsFinite) (box : Box) :
    layers.foldl (fun box layer => box.merge layer.bounds) box =
      ((layers.flatMap (·.segments)).flatMap MotionSegment.ends).foldl Box.insert box := by
  induction layers generalizing box with
  | nil => rfl
  | cons layer layers ih =>
      obtain ⟨hfirst, hne⟩ := List.forall_mem_cons.mp hne
      rw [List.flatMap_cons] at hfinite ⊢
      obtain ⟨hlayer, hfinite⟩ := List.forall_mem_append.mp hfinite
      have hends := mt MotionSegment.flatMap_ends_eq_nil_iff.mp hfirst
      rw [List.foldl_cons, ih hne hfinite, bounds_eq,
        Box.merge_ofPoints box (MotionSegment.isFinite_of_mem_ends hlayer) hends,
        List.flatMap_append, List.foldl_append]

variable {segments : List MotionSegment}

theorem ofSegments_eq_nil_iff : ofSegments segments = [] ↔ segments.filter (·.isDeposit) = [] := by
  rw [ofSegments]
  cases segments.filter (·.isDeposit) with
  | nil => simp [group]
  | cons first rest => simp [group]

/-- The boxes of the layers of some segments make the box of the ends of their deposits. -/
theorem foldl_merge_bounds_ofSegments (hfinite : ∀ segment ∈ segments, segment.IsFinite) :
    (ofSegments segments).foldl (fun box layer => box.merge layer.bounds) Box.empty =
      Box.ofPoints ((segments.filter (·.isDeposit)).flatMap MotionSegment.ends) := by
  have hdeposits : ∀ segment ∈ segments.filter (·.isDeposit), segment.IsFinite :=
    fun segment hsegment => hfinite segment (List.mem_of_mem_filter hsegment)
  have hgrouping : IsGrouping 0 (segments.filter (·.isDeposit)) (ofSegments segments) := by
    apply isGrouping_group
    intro segment hsegment
    exact Number.isNaN_of_isFinite (Point.isFinite_iff.mp (hdeposits segment hsegment).1).2.2
  have hall := hgrouping.flatMap_segments
  rw [foldl_merge_bounds hgrouping.segments_ne_nil (hall ▸ hdeposits), hall]
  rfl

end Layer

namespace PointCloud

variable {options : AssemblyOptions} {segments : List MotionSegment}

/-- Without a limit and without rounding the box of a cloud is that of the ends of its deposits. -/
theorem bounds_ofSegments_of_plain (hplaces : options.places = none)
    (hlimit : options.maxPoints = none) :
    (ofSegments options segments).bounds =
      Box.ofPoints ((segments.filter (·.isDeposit)).flatMap MotionSegment.ends) := by
  have hnormalize : options.normalize = id := by
    funext p
    rw [AssemblyOptions.normalize, hplaces]
    rfl
  rw [bounds_ofSegments_of_unlimited options segments hlimit, hnormalize, List.map_id]
  congr 1
  induction segments with
  | nil => rfl
  | cons segment segments ih =>
      rw [List.flatMap_cons, ih, List.filter_cons]
      cases segment.isDeposit <;> rfl

/-- The boxes of the layers of a program, merged into the empty one, make the box of its cloud, down
to the signs of zeros, if coordinates are kept as they are and there is no limit, in either mode and
for any step. There are no layers exactly if the cloud has no valid box. -/
theorem bounds_eq_foldl_merge (lines : List String) (decode : DecodeOptions) :
    let cloud := (ofStream { decode, places := none, maxPoints := none } { lines }).1
    let layers := Layer.ofSegments (SegmentStream.rest { lines }).1
    layers.foldl (fun box layer => box.merge layer.bounds) Box.empty = cloud.bounds ∧
      (layers = [] ↔ cloud.hasDeposits = false) := by
  intro cloud layers
  generalize hsegments : ({} : MotionDecoder).segments lines = segments
  have hfinite : ∀ segment ∈ segments, segment.IsFinite :=
    hsegments ▸ MotionDecoder.isFinite_of_mem_segments MotionDecoder.isFinite_origin lines
  have hlayers : layers = Layer.ofSegments segments := by
    simp only [layers, SegmentStream.rest_eq, hsegments]
  have hcloud : cloud = ofSegments { decode, places := none, maxPoints := none } segments :=
    hsegments ▸ congrArg Assembler.cloud (Assembler.fst_pushLines _ {} lines)
  have hdeposits : ∀ segment ∈ segments.filter (·.isDeposit), segment.IsFinite :=
    fun segment hsegment => hfinite segment (List.mem_of_mem_filter hsegment)
  rw [hlayers, hcloud, hasDeposits, bounds_ofSegments_of_plain rfl rfl,
    Layer.foldl_merge_bounds_ofSegments hfinite, Layer.ofSegments_eq_nil_iff, ← Bool.not_eq_true,
    Box.isValid_ofPoints_iff (MotionSegment.isFinite_of_mem_ends hdeposits), not_not,
    MotionSegment.flatMap_ends_eq_nil_iff]
  exact ⟨rfl, Iff.rfl⟩

end PointCloud

end Toolpath
