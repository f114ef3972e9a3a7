import Toolpath.Document.Data
import Toolpath.Geometry.Box

/-! # Points and boxes in documents

A box is null unless it is valid, since infinite corners have no place in a
document; null and a missing box are the empty one.
-/

namespace Toolpath

/-- A point as a record. -/
def Point.toData (p : Point) : Data :=
  .record [("x", .float p.x), ("y", .float p.y), ("z", .float p.z)]

/-- The point that stands in a document. -/
def Point.ofData? (dialect : Dialect) (d : Data) : Option Point := do
  let fields ← Fields.read? dialect ["x", "y", "z"] d
  let x ← fields.required "x" Data.float?
  let y ← fields.required "y" Data.float?
  let z ← fields.required "z" Data.float?
  some ⟨x, y, z⟩

/-- A box as a record of its corners, or null. -/
def Box.toData (box : Box) : Data :=
  if box.isValid then .record [("min", box.min.toData), ("max", box.max.toData)] else .null

/-- The corners that stand in a document, in whatever order they are. -/
def Box.ofCorners? (dialect : Dialect) (d : Data) : Option Box := do
  let fields ← Fields.read? dialect ["min", "max"] d
  let min ← fields.required "min" (Point.ofData? dialect)
  let max ← fields.required "max" (Point.ofData? dialect)
  some ⟨min, max⟩

/-- The box that stands in a document. -/
def Box.ofData? (dialect : Dialect) (d : Data) : Option Box :=
  (d.nullable? (Box.ofCorners? dialect)).map (·.getD Box.empty)

end Toolpath
