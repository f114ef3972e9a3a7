import Toolpath.Geometry.Codec
import Toolpath.Motion.Decoder

/-! # Motion in documents

Every type of the decoder is a record with its fields under their names.
-/

namespace Toolpath

namespace MotionKind

/-- The name of a kind in a document. -/
def name : MotionKind → String
  | .rapid => "Rapid"
  | .linear => "Linear"

/-- The kind with this name. -/
def ofName? : String → Option MotionKind
  | "Rapid" => some .rapid
  | "Linear" => some .linear
  | _ => none

/-- A kind as its name. -/
def toData (kind : MotionKind) : Data := .text kind.name

/-- The kind that stands in a document. -/
def ofData? (dialect : Dialect) (d : Data) : Option MotionKind :=
  (d.choice? dialect).bind ofName?

end MotionKind

namespace AxisWords

/-- Axis words as a record in which a missing word is null. -/
def toData (words : AxisWords) : Data :=
  .record [("x", Data.ofOption .float words.x), ("y", Data.ofOption .float words.y),
    ("z", Data.ofOption .float words.z), ("e", Data.ofOption .float words.e),
    ("f", Data.ofOption .float words.f)]

/-- The axis words that stand in a document. -/
def ofData? (dialect : Dialect) (d : Data) : Option AxisWords := do
  let fields ← Fields.read? dialect ["x", "y", "z", "e", "f"] d
  let x ← fields.optional "x" Data.float?
  let y ← fields.optional "y" Data.float?
  let z ← fields.optional "z" Data.float?
  let e ← fields.optional "e" Data.float?
  let f ← fields.optional "f" Data.float?
  some { x, y, z, e, f }

end AxisWords

namespace MotionCommand

/-- A command as a record. -/
def toData (command : MotionCommand) : Data :=
  .record [("kind", command.kind.toData), ("words", command.words.toData)]

/-- The command that stands in a document. -/
def ofData? (dialect : Dialect) (d : Data) : Option MotionCommand := do
  let fields ← Fields.read? dialect ["kind", "words"] d
  let kind ← fields.required "kind" (MotionKind.ofData? dialect)
  let words ← fields.required "words" (AxisWords.ofData? dialect)
  some { kind, words }

end MotionCommand

namespace MotionSegment

/-- A segment as a record. -/
def toData (segment : MotionSegment) : Data :=
  .record [("start", segment.start.toData), ("end", segment.stop.toData),
    ("kind", segment.kind.toData), ("is_deposit", .bool segment.isDeposit),
    ("line", .ofNat segment.line)]

/-- The segment that stands in a document. -/
def ofData? (dialect : Dialect) (d : Data) : Option MotionSegment := do
  let fields ← Fields.read? dialect ["start", "end", "kind", "is_deposit", "line"] d
  let start ← fields.required "start" (Point.ofData? dialect)
  let stop ← fields.required "end" (Point.ofData? dialect)
  let kind ← fields.required "kind" (MotionKind.ofData? dialect)
  let isDeposit ← fields.required "is_deposit" Data.bool?
  let line ← fields.required "line" Data.count?
  some { start, stop, kind, isDeposit, line }

end MotionSegment

namespace ToolState

/-- A state as a record. -/
def toData (state : ToolState) : Data :=
  .record [("position", state.position.toData), ("extrusion", .float state.extrusion),
    ("feed_rate", Data.ofOption .float state.feedRate)]

/-- The state that stands in a document. -/
def ofData? (dialect : Dialect) (d : Data) : Option ToolState := do
  let fields ← Fields.read? dialect ["position", "extrusion", "feed_rate"] d
  let position ← fields.required "position" (Point.ofData? dialect)
  let extrusion ← fields.required "extrusion" Data.float?
  let feedRate ← fields.optional "feed_rate" Data.float?
  some { position, extrusion, feedRate }

end ToolState

namespace DecodeMode

/-- A mode as its name. -/
def toData (mode : DecodeMode) : Data := .text mode.name

/-- The mode that stands in a document. -/
def ofData? (dialect : Dialect) (d : Data) : Option DecodeMode :=
  (d.choice? dialect).bind ofName?

end DecodeMode

namespace DecodeOptions

/-- Options as a record. -/
def toData (options : DecodeOptions) : Data :=
  .record [("mode", options.mode.toData), ("resolution_step", .float options.step)]

/-- The options that stand in a document. -/
def ofData? (dialect : Dialect) (d : Data) : Option DecodeOptions := do
  let fields ← Fields.read? dialect ["mode", "resolution_step"] d
  let mode ← fields.required "mode" (DecodeMode.ofData? dialect)
  let step ← fields.required "resolution_step" Data.float?
  some { mode, step }

end DecodeOptions

namespace DecodeStats

/-- Counters as a record. -/
def toData (stats : DecodeStats) : Data :=
  .record [("lines", .ofNat stats.lines), ("rapid_moves", .ofNat stats.rapidMoves),
    ("linear_moves", .ofNat stats.linearMoves), ("deposit_moves", .ofNat stats.depositMoves),
    ("ignored_lines", .ofNat stats.ignoredLines),
    ("malformed_words", .ofNat stats.malformedWords)]

/-- The counters that stand in a document. -/
def ofData? (dialect : Dialect) (d : Data) : Option DecodeStats := do
  let fields ← Fields.read? dialect ["lines", "rapid_moves", "linear_moves", "deposit_moves",
    "ignored_lines", "malformed_words"] d
  let lines ← fields.required "lines" Data.count?
  let rapidMoves ← fields.required "rapid_moves" Data.count?
  let linearMoves ← fields.required "linear_moves" Data.count?
  let depositMoves ← fields.required "deposit_moves" Data.count?
  let ignoredLines ← fields.required "ignored_lines" Data.count?
  let malformedWords ← fields.required "malformed_words" Data.count?
  some { lines, rapidMoves, linearMoves, depositMoves, ignoredLines, malformedWords }

end DecodeStats

end Toolpath
