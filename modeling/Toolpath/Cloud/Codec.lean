import Toolpath.Cloud.Assembly
import Toolpath.Cloud.Layer
import Toolpath.Motion.Codec

/-! # Clouds in documents

A cloud is a record of its points and its box, of which the box may be left out.
-/

namespace Toolpath

namespace AssemblyOptions

/-- Options as a record. -/
def toData (options : AssemblyOptions) : Data :=
  .record [("decode", options.decode.toData),
    ("round_decimals", Data.ofOption .ofNat options.places),
    ("max_points", Data.ofOption .ofNat options.maxPoints)]

/-- The options that stand in a document. -/
def ofData? (dialect : Dialect) (d : Data) : Option AssemblyOptions := do
  let fields ← Fields.read? dialect ["decode", "round_decimals", "max_points"] d
  let decode ← fields.required "decode" (DecodeOptions.ofData? dialect)
  let places ← fields.optional "round_decimals" Data.smallCount?
  let maxPoints ← fields.optional "max_points" Data.count?
  some { decode, places, maxPoints }

end AssemblyOptions

namespace PointCloud

/-- A cloud as a record. -/
def toData (cloud : PointCloud) : Data :=
  .record [("points", .list (cloud.points.toList.map Point.toData)),
    ("bounds", cloud.bounds.toData)]

/-- The cloud that stands in a document. -/
def ofData? (dialect : Dialect) (d : Data) : Option PointCloud := do
  let fields ← Fields.read? dialect ["points", "bounds"] d
  let points ← fields.required "points" (Data.list? (Point.ofData? dialect))
  let bounds ← fields.optional "bounds" (Box.ofCorners? dialect)
  some ⟨points.toArray, bounds.getD Box.empty⟩

end PointCloud

namespace Layer

/-- A layer as a record. -/
def toData (layer : Layer) : Data :=
  .record [("index", .ofNat layer.index), ("z", .float layer.z),
    ("segments", .list (layer.segments.map MotionSegment.toData))]

/-- The layer that stands in a document. -/
def ofData? (dialect : Dialect) (d : Data) : Option Layer := do
  let fields ← Fields.read? dialect ["index", "z", "segments"] d
  let index ← fields.required "index" Data.count?
  let z ← fields.required "z" Data.float?
  let segments ← fields.required "segments" (Data.list? (MotionSegment.ofData? dialect))
  some { index, z, segments }

end Layer

end Toolpath
