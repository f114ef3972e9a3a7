import Toolpath.Conversion
import Toolpath.Json.Printer
import Toolpath.Motion.Codec
import Toolpath.Reconstruction

/-! # Summaries

What is reported about a conversion, for people and as a document.
-/

namespace Toolpath

/-- The report on a conversion. -/
structure Summary where
  input : String
  points : Nat
  /-- The number of layers, if they were looked at. -/
  layers : Option Nat := none
  /-- The box, if anything was deposited. -/
  bounds : Option Box
  stats : DecodeStats
  lossyLines : Nat
  stoppedEarly : Bool
  /-- What keeps the cloud from being handed to a reconstruction. -/
  issue : Option String
  deriving DecidableEq

namespace Summary

/-- Whether the cloud can be handed to a reconstruction. -/
def isReady (summary : Summary) : Bool := summary.issue.isNone

/-- The lines of the report. -/
def lines (summary : Summary) : List String :=
  let stats := summary.stats
  let motion := s!"{stats.motionCommands} ({stats.rapidMoves} rapid, {stats.linearMoves} linear)"
  let malformed :=
    if 0 < stats.malformedWords then [s!"Malformed words: {stats.malformedWords}"] else []
  let layers :=
    match summary.layers with
    | some count => [s!"Layers:          {count}"]
    | none => []
  let bounds :=
    match summary.bounds with
    | some box =>
        [s!"Min:             {box.min.display}", s!"Max:             {box.max.display}"]
    | none => ["Bounds:          none (no deposition moves)"]
  let reconstruction :=
    match summary.issue with
    | none => "Reconstruction:  ready"
    | some issue => s!"Reconstruction:  not ready ({issue})"
  let stopped := if summary.stoppedEarly then ["Stopped early at the point limit"] else []
  [s!"Input:           {summary.input}", s!"Lines:           {stats.lines}",
    s!"Motion commands: {motion}",
    s!"Deposit moves:   {stats.depositMoves} ({stats.travelMoves} travel)",
    s!"Ignored lines:   {stats.ignoredLines}"] ++ malformed ++ layers ++
    [s!"Points:          {summary.points}"] ++ bounds ++ [reconstruction] ++ stopped

/-- The report for people. -/
def display (summary : Summary) : String :=
  "\n".intercalate summary.lines

/-- A corner as a list of its coordinates. -/
def cornerData (p : Point) : Data := .list (p.toList.map .float)

/-- The report as a record. The number of layers and the issue are left out if there is none. -/
def toData (summary : Summary) : Data :=
  let layers :=
    match summary.layers with
    | some count => [("layers", Data.ofNat count)]
    | none => []
  let issue :=
    match summary.issue with
    | some issue => [("reconstruction_issue", Data.text issue)]
    | none => []
  .record
    ([("input", .text summary.input), ("points", .ofNat summary.points)] ++ layers ++
      [("bounding_min", Data.ofOption (fun box => cornerData box.min) summary.bounds),
        ("bounding_max", Data.ofOption (fun box => cornerData box.max) summary.bounds),
        ("stats", summary.stats.toData), ("lossy_lines", .ofNat summary.lossyLines),
        ("stopped_early", .bool summary.stoppedEarly),
        ("reconstruction_ready", .bool summary.isReady)] ++ issue)

end Summary

namespace Conversion

/-- What keeps the cloud from being handed to a reconstruction with these parameters. -/
def issue? (conversion : Conversion) (params : ReconstructionParams) : Option String :=
  match conversion.cloud.checkReconstruction params with
  | .ok () => none
  | .error failure => some failure.message

/-- The report on the conversion. -/
def summary (conversion : Conversion) (params : ReconstructionParams) : Summary where
  input := conversion.input
  points := conversion.cloud.size
  bounds := if conversion.cloud.hasDeposits then some conversion.cloud.bounds else none
  stats := conversion.stats
  lossyLines := conversion.read.lossyLines
  stoppedEarly := conversion.read.stoppedEarly
  issue := conversion.issue? params

end Conversion

end Toolpath
