import Toolpath.Motion.Line
import Toolpath.Motion.State

/-! # Decoding a program

The decoder takes a program line by line. It keeps the state of the tool and
counts what it has seen; a motion line yields a segment, which carries the
number of the line.
-/

namespace Toolpath

/-- Counters of one run. -/
structure DecodeStats where
  lines : Nat := 0
  rapidMoves : Nat := 0
  linearMoves : Nat := 0
  /-- Linear moves that deposit material. -/
  depositMoves : Nat := 0
  ignoredLines : Nat := 0
  malformedWords : Nat := 0
  deriving DecidableEq, Repr, Inhabited

namespace DecodeStats

/-- All motion commands. -/
def motionCommands (stats : DecodeStats) : Nat :=
  stats.rapidMoves + stats.linearMoves

/-- The motion commands that deposit nothing. -/
def travelMoves (stats : DecodeStats) : Nat :=
  stats.motionCommands - stats.depositMoves

end DecodeStats

/-- The state of a run. -/
structure MotionDecoder where
  state : ToolState := {}
  counts : Line.Counts := {}
  lines : Nat := 0
  rapidMoves : Nat := 0
  linearMoves : Nat := 0
  depositMoves : Nat := 0
  deriving DecidableEq, Inhabited

namespace MotionDecoder

/-- The effect of one line, given what it says. -/
def accept (decoder : MotionDecoder) (reading : Line.Reading) :
    Option MotionSegment × MotionDecoder :=
  let counts := decoder.counts.add reading
  let lines := decoder.lines + 1
  match reading with
  | .other => (none, { decoder with counts, lines })
  | .motion command _ =>
      let (state, move) := decoder.state.apply command
      let segment := { move with line := lines }
      (some segment,
        { state
          counts
          lines
          rapidMoves := decoder.rapidMoves + if command.kind = .rapid then 1 else 0
          linearMoves := decoder.linearMoves + if command.kind = .linear then 1 else 0
          depositMoves := decoder.depositMoves + if segment.isDeposit then 1 else 0 })

/-- Decode one line; there is a segment if it is a motion line. -/
def decode (decoder : MotionDecoder) (line : String) : Option MotionSegment × MotionDecoder :=
  decoder.accept (Line.read line.toList)

/-- The decoder after a list of lines. -/
def decodeAll (decoder : MotionDecoder) (lines : List String) : MotionDecoder :=
  lines.foldl (fun d line => (d.decode line).2) decoder

/-- The counters so far. -/
def stats (decoder : MotionDecoder) : DecodeStats where
  lines := decoder.lines
  rapidMoves := decoder.rapidMoves
  linearMoves := decoder.linearMoves
  depositMoves := decoder.depositMoves
  ignoredLines := decoder.counts.ignored
  malformedWords := decoder.counts.malformed

end MotionDecoder

end Toolpath
