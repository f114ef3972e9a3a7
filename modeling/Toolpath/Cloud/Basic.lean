import Toolpath.Geometry.Box
import Toolpath.Motion.Segment

/-! # Point clouds

A cloud is a list of points in the order of traversal, in which points may
repeat, together with the box of what was deposited.
-/

namespace Toolpath

/-- Points with the box of the deposits. The box is empty if nothing was deposited, even if
there are points. -/
structure PointCloud where
  points : Array Point := #[]
  bounds : Box := Box.empty
  deriving BEq, DecidableEq, Inhabited

namespace PointCloud

/-- The number of points. -/
def size (cloud : PointCloud) : Nat := cloud.points.size

/-- Whether there are no points. -/
def isEmpty (cloud : PointCloud) : Bool := cloud.points.isEmpty

/-- Whether the box encloses anything. -/
def hasDeposits (cloud : PointCloud) : Bool := cloud.bounds.isValid

/-- The cloud of some points with the box that they span. -/
def ofPoints (points : List Point) : PointCloud :=
  ⟨points.toArray, Box.ofPoints points⟩

end PointCloud

end Toolpath
