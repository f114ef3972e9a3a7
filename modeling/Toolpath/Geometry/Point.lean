import Toolpath.Number.Rounding
import Toolpath.Number.Style

/-! # Points

Positions in space, in the units of the program that is decoded.
-/

namespace Toolpath

/-- An absolute position. -/
structure Point where
  x : Float
  y : Float
  z : Float
  deriving BEq, DecidableEq

namespace Point

/-- The point where every run starts. -/
def origin : Point := ⟨0.0, 0.0, 0.0⟩

instance : Inhabited Point := ⟨origin⟩

/-- The Euclidean distance. -/
def distance (p q : Point) : Float :=
  let dx := q.x - p.x
  let dy := q.y - p.y
  let dz := q.z - p.z
  (dx * dx + dy * dy + dz * dz).sqrt

/-- The point at the fraction `t` of the way from `p` to `q`. -/
def lerp (p q : Point) (t : Float) : Point :=
  ⟨p.x + (q.x - p.x) * t, p.y + (q.y - p.y) * t, p.z + (q.z - p.z) * t⟩

/-- Every coordinate rounded to `places` decimal places. -/
def rounded (p : Point) (places : Nat) : Point :=
  ⟨Number.roundTo p.x places, Number.roundTo p.y places, Number.roundTo p.z places⟩

/-- Whether all coordinates are finite. -/
def isFinite (p : Point) : Bool :=
  p.x.isFinite && p.y.isFinite && p.z.isFinite

/-- The coordinates in order. -/
def toList (p : Point) : List Float := [p.x, p.y, p.z]

/-- The point as people read it. -/
def display (p : Point) : String :=
  s!"({Number.display p.x}, {Number.display p.y}, {Number.display p.z})"

end Point

end Toolpath
