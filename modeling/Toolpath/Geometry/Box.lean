import Toolpath.Geometry.Point

/-! # Bounding boxes

An axis-aligned box grows with the points included in it. It starts out empty,
with its lower corner at plus infinity and its upper corner at minus infinity,
and is valid once both corners are finite and in order on every axis. A box
flat on some axis is valid: a print of one layer has no height.
-/

namespace Toolpath

/-- A box given by its lower and its upper corner. -/
structure Box where
  min : Point
  max : Point
  deriving BEq, DecidableEq

namespace Box

open Number

/-- The box of no points. -/
def empty : Box :=
  let low := Binary64.negativeInfinity
  let high := Binary64.positiveInfinity
  ⟨⟨high, high, high⟩, ⟨low, low, low⟩⟩

instance : Inhabited Box := ⟨empty⟩

/-- The box widened to hold one more point. -/
def insert (box : Box) (p : Point) : Box where
  min := ⟨lesser box.min.x p.x, lesser box.min.y p.y, lesser box.min.z p.z⟩
  max := ⟨greater box.max.x p.x, greater box.max.y p.y, greater box.max.z p.z⟩

/-- The box of the points, widened in their order. -/
def ofPoints (points : List Point) : Box :=
  points.foldl insert empty

/-- Whether the box encloses anything. -/
def isValid (box : Box) : Bool :=
  box.min.isFinite && box.max.isFinite && box.min.x ≤ box.max.x && box.min.y ≤ box.max.y &&
    box.min.z ≤ box.max.z

/-- The extent along each axis. -/
def size? (box : Box) : Option Point :=
  if box.isValid then
    some ⟨box.max.x - box.min.x, box.max.y - box.min.y, box.max.z - box.min.z⟩
  else none

/-- The point halfway between the corners. -/
def center? (box : Box) : Option Point :=
  if box.isValid then some (box.min.lerp box.max 0.5) else none

/-- The box widened to hold another one, which is left out while it is not valid. -/
def merge (box other : Box) : Box :=
  if other.isValid then (box.insert other.min).insert other.max else box

end Box

end Toolpath
