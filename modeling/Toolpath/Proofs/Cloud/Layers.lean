import Mathlib.Algebra.GroupWithZero.Nat
import Toolpath.Cloud.Layer

/-! # Layers and their deposits

Layers hold the deposits of a program and nothing else: put together in order,
they give them back.
-/

namespace Toolpath.Layer

variable (segments : List MotionSegment)

theorem flatMap_segments_group (index : Nat) :
    (group index segments).flatMap (·.segments) = segments := by
  induction index, segments using group.induct with
  | case1 index => rw [group, List.flatMap_nil]
  | case2 index first rest sameHeight ih =>
      rw [group, List.flatMap_cons, ih, List.cons_append, List.takeWhile_append_dropWhile]

/-- The layers of some segments, put together, are the deposits among them. -/
theorem flatMap_segments_ofSegments :
    (ofSegments segments).flatMap (·.segments) = segments.filter (·.isDeposit) :=
  flatMap_segments_group _ 0

/-- Every deposit is in one layer. -/
theorem sum_length_segments_ofSegments :
    ((ofSegments segments).map (·.segments.length)).sum = segments.countP (·.isDeposit) := by
  rw [← List.length_flatMap, flatMap_segments_ofSegments, List.countP_eq_length_filter]

/-- Travel makes no difference to the layers. -/
theorem ofSegments_filter :
    ofSegments (segments.filter (·.isDeposit)) = ofSegments segments := by
  rw [ofSegments, ofSegments, List.filter_filter]
  simp only [Bool.and_self]

end Toolpath.Layer
