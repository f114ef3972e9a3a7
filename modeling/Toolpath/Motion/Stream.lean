import Toolpath.Motion.Decoder

/-! # Lazy streams

A stream holds the lines that have not been looked at and the decoder as the
lines before have left it. Asking for an item takes as many lines as the item
needs and no more, so the decoder of a stream always tells how far it has read.
-/

namespace Toolpath

/-- The segments of a program that are still to come. -/
structure SegmentStream where
  lines : List String
  decoder : MotionDecoder := {}

namespace SegmentStream

/-- Decode lines until one of them yields a segment or none are left. -/
def nextFrom (decoder : MotionDecoder) : List String → Option MotionSegment × SegmentStream
  | [] => (none, ⟨[], decoder⟩)
  | line :: lines =>
      match decoder.decode line with
      | (some segment, after) => (some segment, ⟨lines, after⟩)
      | (none, after) => nextFrom after lines

/-- The next segment and the stream behind it. -/
def next (stream : SegmentStream) : Option MotionSegment × SegmentStream :=
  nextFrom stream.decoder stream.lines

/-- The first `n` segments, or all if there are fewer, and the stream behind them. -/
def take : Nat → SegmentStream → List MotionSegment × SegmentStream
  | 0, stream => ([], stream)
  | n + 1, stream =>
      match stream.next with
      | (none, after) => ([], after)
      | (some segment, after) =>
          let (segments, final) := take n after
          (segment :: segments, final)

/-- All segments, and the stream with every line read. A line yields at most one segment. -/
def rest (stream : SegmentStream) : List MotionSegment × SegmentStream :=
  stream.take (stream.lines.length + 1)

end SegmentStream

/-- The cloud points of a program that are still to come: those of a segment begun, and behind
them those of the segments to follow. -/
structure PointStream where
  segments : SegmentStream
  options : DecodeOptions := {}
  current : SegmentPoints := .empty

namespace PointStream

/-- The points of a program from its first line on. -/
def ofLines (lines : List String) (options : DecodeOptions) : PointStream :=
  { segments := { lines }, options }

/-- The decoder as the lines read so far have left it. -/
def decoder (stream : PointStream) : MotionDecoder :=
  stream.segments.decoder

/-- The next point of a segment begun, or else the first point of the next segment that has
one. -/
def nextFrom (options : DecodeOptions) (current : SegmentPoints) (decoder : MotionDecoder)
    (lines : List String) : Option Point × PointStream :=
  match current.next? with
  | some (point, current) => (some point, ⟨⟨lines, decoder⟩, options, current⟩)
  | none =>
      match lines with
      | [] => (none, ⟨⟨[], decoder⟩, options, current⟩)
      | line :: lines =>
          match decoder.decode line with
          | (some segment, after) => nextFrom options (segment.points options) after lines
          | (none, after) => nextFrom options current after lines

/-- The next point and the stream behind it. -/
def next (stream : PointStream) : Option Point × PointStream :=
  nextFrom stream.options stream.current stream.segments.decoder stream.segments.lines

/-- The first `n` points, or all if there are fewer, and the stream behind them. -/
def take : Nat → PointStream → List Point × PointStream
  | 0, stream => ([], stream)
  | n + 1, stream =>
      match stream.next with
      | (none, after) => ([], after)
      | (some point, after) =>
          let (points, final) := take n after
          (point :: points, final)

/-- How many points are to come when the lines are read to their end. -/
def length (stream : PointStream) : Nat :=
  stream.segments.rest.1.foldl
    (fun count segment => count + (segment.points stream.options).length) stream.current.length

/-- All points, and the stream with every line read. -/
def rest (stream : PointStream) : List Point × PointStream :=
  stream.take (stream.length + 1)

end PointStream

end Toolpath
