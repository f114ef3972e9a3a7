import Toolpath.Geometry.Box
import Toolpath.Motion.Segment

/-! # Layers

A layer is a run of deposits, travel between them left out, that start at the
same height. Layers are numbered in the order of traversal; going back to an
earlier height begins a new one.
-/

namespace Toolpath

/-- Deposits that follow each other and start at the same height. -/
structure Layer where
  /-- The number of the layer, counted from zero. -/
  index : Nat
  z : Float
  segments : List MotionSegment
  deriving BEq, DecidableEq, Inhabited

namespace Layer

/-- The length of what was deposited, added up in order. -/
def pathLength (layer : Layer) : Float :=
  layer.segments.foldl (fun sum segment => sum + segment.length) 0.0

/-- The box of all ends of its segments. -/
def bounds (layer : Layer) : Box :=
  layer.segments.foldl (fun box segment => (box.insert segment.start).insert segment.stop)
    Box.empty

/-- Whether it is every other layer. -/
def isOdd (layer : Layer) : Bool := layer.index % 2 == 1

/-- Group deposits, the first group having the given number. -/
def group (index : Nat) : List MotionSegment → List Layer
  | [] => []
  | first :: rest =>
      let sameHeight (segment : MotionSegment) : Bool := first.start.z == segment.start.z
      ⟨index, first.start.z, first :: rest.takeWhile sameHeight⟩ ::
        group (index + 1) (rest.dropWhile sameHeight)
termination_by segments => segments.length
decreasing_by
  exact Nat.lt_succ_of_le (List.dropWhile_sublist _).length_le

/-- The layers of some segments. -/
def ofSegments (segments : List MotionSegment) : List Layer :=
  group 0 (segments.filter (·.isDeposit))

end Layer

end Toolpath
