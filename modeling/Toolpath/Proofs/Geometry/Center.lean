import Toolpath.Proofs.Geometry.Enclosure
import Toolpath.Proofs.Number.Middle

/-! # The size and the centre of a box

A valid box has a size and a centre. Its extents are not negative and its centre
is not below the lower corner, however the differences are rounded. But the
corners of a valid box may be so far apart that the way between them is longer
than every finite double. Then the extent is infinite, and so is the centre,
which lies outside of the box. Short of that the size and the centre are finite
and the centre lies in the box.
-/

namespace Toolpath

open Binary64 Number

namespace Point

/-- The coordinates of a position, one for every axis. -/
def axes : List (Point → Float) := [Point.x, Point.y, Point.z]

theorem forall_mem_axes {P : (Point → Float) → Prop} :
    (∀ axis ∈ axes, P axis) ↔ P Point.x ∧ P Point.y ∧ P Point.z := by
  simp only [axes, List.forall_mem_cons, List.not_mem_nil, false_implies, implies_true, and_true]

end Point

namespace Box

variable {box : Box}

/-- Whether the exact extents of a box are so short that they are rounded to finite doubles. -/
def IsNarrow (box : Box) : Prop :=
  ∀ axis ∈ Point.axes, InReach (axis box.min) (axis box.max)

/-- On every axis of a valid box the extent is the way between the bounds, and the centre is its
middle. -/
theorem exists_spans (hvalid : box.isValid = true) :
    ∃ size center, box.size? = some size ∧ box.center? = some center ∧
      ∀ axis ∈ Point.axes, Spans (axis box.min) (axis box.max) (axis size) (axis center) := by
  obtain ⟨hmin, hmax, hx, hy, hz⟩ := isValid_iff.mp hvalid
  obtain ⟨hminx, hminy, hminz⟩ := Point.isFinite_iff.mp hmin
  obtain ⟨hmaxx, hmaxy, hmaxz⟩ := Point.isFinite_iff.mp hmax
  refine ⟨_, _, if_pos hvalid, if_pos hvalid, Point.forall_mem_axes.mpr ?_⟩
  exact ⟨spans_of_le hminx hmaxx hx, spans_of_le hminy hmaxy hy, spans_of_le hminz hmaxz hz⟩

/-- A valid box has a size and a centre. On every axis the extent is not negative and the centre
is not below the box, and the extent is finite, the centre is finite, and the centre is not above
the box, just when the exact extent is in reach. So a valid box has a finite size and a finite
centre inside it just when it is narrow. -/
theorem size_center_usable_iff (hvalid : box.isValid = true) :
    ∃ size center, box.size? = some size ∧ box.center? = some center ∧
      (∀ axis ∈ Point.axes, Spans (axis box.min) (axis box.max) (axis size) (axis center)) ∧
      (size.isFinite = true ∧ center.isFinite = true ∧ Point.origin ≤ size ∧ box.Contains center ↔
        box.IsNarrow) := by
  obtain ⟨size, center, hsize, hcenter, hspans⟩ := exists_spans hvalid
  obtain ⟨hx, hy, hz⟩ := Point.forall_mem_axes.mp hspans
  refine ⟨size, center, hsize, hcenter, hspans, ?_⟩
  rw [IsNarrow, Point.forall_mem_axes, Point.isFinite_iff, Point.isFinite_iff]
  constructor
  · rintro ⟨⟨hsizex, hsizey, hsizez⟩, -⟩
    exact ⟨hx.isFinite_way.mp hsizex, hy.isFinite_way.mp hsizey, hz.isFinite_way.mp hsizez⟩
  · rintro ⟨hshortx, hshorty, hshortz⟩
    refine ⟨?_, ?_, ?_, ?_, ?_⟩
    · exact ⟨hx.isFinite_way.mpr hshortx, hy.isFinite_way.mpr hshorty, hz.isFinite_way.mpr hshortz⟩
    · exact ⟨hx.isFinite_middle.mpr hshortx, hy.isFinite_middle.mpr hshorty,
        hz.isFinite_middle.mpr hshortz⟩
    · exact ⟨hx.nonneg, hy.nonneg, hz.nonneg⟩
    · exact ⟨hx.low_le, hy.low_le, hz.low_le⟩
    · exact ⟨hx.le_high.mpr hshortx, hy.le_high.mpr hshorty, hz.le_high.mpr hshortz⟩

/-- A box that is nearly as wide as a finite extent can be, as deep as the smallest double, and
flat. -/
theorem size_center_usable_of_wide :
    let box : Box := ⟨⟨-8.9e307, 0, 0.2⟩, ⟨8.9e307, 5e-324, 0.2⟩⟩
    box.isValid = true ∧ ∃ size center, box.size? = some size ∧ box.center? = some center ∧
      size.isFinite = true ∧ center.isFinite = true ∧ Point.origin ≤ size ∧
        box.Contains center := by
  intro box
  have hvalid : box.isValid = true := by decide +kernel
  obtain ⟨size, center, hsize, hcenter, -, husable⟩ := size_center_usable_iff hvalid
  refine ⟨hvalid, size, center, hsize, hcenter, husable.mpr (Point.forall_mem_axes.mpr ?_)⟩
  have hshort {low high : Float} (hlow : low.isFinite = true) (hhigh : high.isFinite = true)
      (hle : value low ≤ value high) (hway : (high - low).isFinite = true) : InReach low high :=
    (isFinite_sub_iff hlow hhigh hle).mp hway
  refine ⟨hshort ?_ ?_ ?_ ?_, hshort ?_ ?_ ?_ ?_, hshort ?_ ?_ ?_ ?_⟩
  all_goals decide +kernel

/-- Two corners may be so far apart that neither the size nor the centre of the box between them is
finite, although the origin lies halfway. -/
theorem size_center_overflow :
    let box : Box := ⟨⟨-1e308, 0, 0⟩, ⟨1e308, 0, 0⟩⟩
    let infinite : Point := ⟨positiveInfinity, 0, 0⟩
    box.isValid = true ∧ box.size? = some infinite ∧ box.center? = some infinite ∧
      infinite.isFinite = false ∧ ¬box.Contains infinite := by
  decide +kernel

end Box

end Toolpath
