import Toolpath.Cloud.Codec
import Toolpath.Cloud.Format
import Toolpath.Files.Faults
import Toolpath.Json.Printer

/-! # Writing point files

A point file is a sequence of pieces, each written in one go: a line, or a whole
document.
-/

namespace Toolpath

namespace Point

/-- The coordinates with a separator between them, and a line feed. -/
def line (separator : List Char) (p : Point) : List Char :=
  separator.intercalate (p.toList.map Number.text) ++ ['\n']

end Point

namespace PointCloud

/-- The lines in front of the points of a polygon file. -/
def plyHeader (count : Nat) : List String :=
  ["ply\n", "format ascii 1.0\n", "comment generated by gcodecloud\n",
    s!"element vertex {count}\n", "property double x\n", "property double y\n",
    "property double z\n", "end_header\n"]

/-- The pieces of a point file. The delimiter is that of the format that asks for one. -/
def pieces (cloud : PointCloud) (format : PointFormat) (delimiter : String) :
    List (List Char) :=
  let points := cloud.points.toList
  match format with
  | .csv => points.map (Point.line delimiter.toList)
  | .xyz => points.map (Point.line [' '])
  | .ply => (plyHeader cloud.size).map String.toList ++ points.map (Point.line [' '])
  | .json => [(Json.pretty cloud.toData).toList, ['\n']]

/-- The text of a point file. -/
def render (cloud : PointCloud) (format : PointFormat) (delimiter : String) : List Char :=
  (cloud.pieces format delimiter).flatten

/-- Write a point file to a sink. -/
def write (cloud : PointCloud) (format : PointFormat) (delimiter : String) (sink : Sink) :
    Except ExportError Unit × Sink :=
  let (result, after) := sink.writeAll ((cloud.pieces format delimiter).map Utf8.encode)
  (result.mapError .io, after)

/-- Write a point file to a path. The file is created, or emptied, before anything is written, and
it keeps what has been written when writing breaks off. -/
def store (cloud : PointCloud) (format : PointFormat) (delimiter : String) (fs : FileSystem)
    (path : String) (faults : Faults := {}) : Except ExportError Unit × FileSystem :=
  match faults.create fs path with
  | .error cause => (.error (.io cause), fs)
  | .ok location =>
      let (result, sink) := cloud.write format delimiter (.upTo (faults.writing path))
      (result, fs.put location (.file sink.taken.toList))

/-- Write a point file to a path where nothing goes wrong but what the file system tells, so that
there is nothing new if that fails. -/
def save (cloud : PointCloud) (format : PointFormat) (delimiter : String) (fs : FileSystem)
    (path : String) : Except ExportError FileSystem :=
  let (result, after) := cloud.store format delimiter fs path
  result.map fun () => after

end PointCloud

end Toolpath
