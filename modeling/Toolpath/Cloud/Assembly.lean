import Toolpath.Cloud.Basic
import Toolpath.Files.Program
import Toolpath.Motion.Stream

/-! # Assembling a cloud

Segments are pushed into an assembler one after the other. The box of the
deposits grows with both ends of every segment that deposits material, whatever
points it contributes, so that travel never widens it. Once the assembler holds
as many points as it may, it takes no more; a deposit cut short by that widens
the box only as far as its last point.
-/

namespace Toolpath

/-- How a cloud is assembled. -/
structure AssemblyOptions where
  decode : DecodeOptions := {}
  /-- The number of decimal places kept, unless coordinates are kept as they are. -/
  places : Option Nat := some 5
  /-- The number of points at which assembly stops. -/
  maxPoints : Option Nat := none
  deriving BEq, DecidableEq, Inhabited

namespace AssemblyOptions

/-- A position as it enters the cloud. -/
def normalize (options : AssemblyOptions) (p : Point) : Point :=
  match options.places with
  | some places => p.rounded places
  | none => p

end AssemblyOptions

/-- A cloud under construction. -/
structure Assembler where
  options : AssemblyOptions := {}
  cloud : PointCloud := {}
  /-- The number of segments taken in. -/
  segments : Nat := 0
  deriving DecidableEq, Inhabited

namespace Assembler

/-- Whether there are as many points as there may be. -/
def isFull (assembler : Assembler) : Bool :=
  match assembler.options.maxPoints with
  | some limit => limit ≤ assembler.cloud.size
  | none => false

/-- How many of `wanted` points there is still room for. -/
def allowance (assembler : Assembler) (wanted : Nat) : Nat :=
  match assembler.options.maxPoints with
  | some limit => min wanted (limit - assembler.cloud.size)
  | none => wanted

/-- What a reader of segments is told: to stop once the assembler is full. -/
def flow (assembler : Assembler) : Flow :=
  if assembler.isFull then .stop else .goOn

/-- The assembler after one more segment, which a full assembler leaves aside. -/
def insert (assembler : Assembler) (segment : MotionSegment) : Assembler :=
  if assembler.isFull then assembler
  else
    let options := assembler.options
    let points := segment.points options.decode
    let emitted := (points.take (assembler.allowance points.length)).1.map options.normalize
    let stop := options.normalize segment.stop
    let reached := if emitted.length = points.length then stop else emitted.getLast?.getD stop
    let bounds := assembler.cloud.bounds
    { assembler with
      segments := assembler.segments + 1
      cloud :=
        { points := assembler.cloud.points ++ emitted
          bounds :=
            if segment.isDeposit then
              (bounds.insert (options.normalize segment.start)).insert reached
            else bounds } }

/-- Take in one more segment, and tell whether another one is wanted. -/
def push (assembler : Assembler) (segment : MotionSegment) : Flow × Assembler :=
  let after := assembler.insert segment
  (after.flow, after)

/-- Take in segments until the assembler is full or there are no more. -/
def pushAll (assembler : Assembler) : List MotionSegment → Assembler
  | [] => assembler
  | segment :: segments =>
      match assembler.push segment with
      | (.stop, after) => after
      | (.goOn, after) => after.pushAll segments

/-- Decode lines and take in their segments until the assembler is full or no lines are left.
What remains of the stream tells how many lines were used. -/
def pushLines (assembler : Assembler) (decoder : MotionDecoder) :
    List String → Assembler × SegmentStream
  | [] => (assembler, ⟨[], decoder⟩)
  | line :: lines =>
      match decoder.decode line with
      | (none, decoder) => assembler.pushLines decoder lines
      | (some segment, decoder) =>
          match assembler.push segment with
          | (.stop, after) => (after, ⟨lines, decoder⟩)
          | (.goOn, after) => after.pushLines decoder lines

end Assembler

namespace PointCloud

/-- The cloud of some segments. -/
def ofSegments (options : AssemblyOptions) (segments : List MotionSegment) : PointCloud :=
  (Assembler.pushAll { options } segments).cloud

/-- The cloud of a stream of segments, and what remains of the stream. -/
def ofStream (options : AssemblyOptions) (stream : SegmentStream) : PointCloud × SegmentStream :=
  let (assembler, rest) := Assembler.pushLines { options } stream.decoder stream.lines
  (assembler.cloud, rest)

end PointCloud

end Toolpath
