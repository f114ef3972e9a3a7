import Toolpath.Document.Data
import Toolpath.Files.Failure
import Toolpath.Files.Path

/-! # Point file formats

The formats a cloud can be written in, and the names they go by.
-/

namespace Toolpath

/-- Why a cloud cannot be written. -/
inductive ExportError where
  | unsupportedFormat (name : String)
  | io (cause : IoFailure)
  deriving DecidableEq, Repr

namespace ExportError

/-- The wording of the error. -/
def message : ExportError → String
  | unsupportedFormat name => s!"Unsupported export format: {name}"
  | io cause => s!"Failed to write points: {cause.message}"

/-- The failure behind the error, if there is one. -/
def cause? : ExportError → Option IoFailure
  | unsupportedFormat _ => none
  | io cause => some cause

end ExportError

/-- The formats of point files. -/
inductive PointFormat where
  /-- Three numbers to a line with a delimiter between them. -/
  | csv
  /-- Three numbers to a line with spaces between them. -/
  | xyz
  /-- A polygon file in text form that holds vertices only. -/
  | ply
  /-- The cloud as a document, its box included. -/
  | json
  deriving DecidableEq, Repr

namespace PointFormat

instance : Inhabited PointFormat := ⟨.csv⟩

/-- The name of a format, which is also the extension of its files. -/
def extension : PointFormat → String
  | .csv => "csv"
  | .xyz => "xyz"
  | .ply => "ply"
  | .json => "json"

/-- The format with exactly this name. -/
def ofName? : String → Option PointFormat
  | "csv" => some .csv
  | "xyz" => some .xyz
  | "ply" => some .ply
  | "json" => some .json
  | _ => none

/-- The format a person asks for, in any case and with a second spelling for two of them. -/
def read (s : String) : Except ExportError PointFormat :=
  match Text.keyword s with
  | "csv" | "txt" => .ok .csv
  | "xyz" | "pts" => .ok .xyz
  | "ply" => .ok .ply
  | "json" => .ok .json
  | unknown => .error (.unsupportedFormat unknown)

/-- The format that the extension of a path asks for. -/
def ofPath? (path : String) : Option PointFormat :=
  (Path.extension? path).bind fun extension => (read extension).toOption

/-- A format as its name. -/
def toData (format : PointFormat) : Data := .text format.extension

/-- The format that stands in a document. -/
def ofData? (dialect : Dialect) (d : Data) : Option PointFormat :=
  (d.choice? dialect).bind ofName?

end PointFormat

end Toolpath
