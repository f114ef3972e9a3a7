import Toolpath.Geometry.Point
import Toolpath.Motion.Command

/-! # Segments and their points

A segment is one resolved move. It contributes points to a cloud in one of two
modes: its end position alone, or, if it deposits material, samples spread
evenly from its start up to but not including its end. Points are produced one
at a time, so that a segment may have more samples than anyone will ask for.
-/

namespace Toolpath

/-- How segments turn into points. -/
inductive DecodeMode where
  /-- One point for every segment, at its end. -/
  | vertex
  /-- Samples along the segments that deposit material. -/
  | interpolated
  deriving DecidableEq, Repr

namespace DecodeMode

instance : Inhabited DecodeMode := ⟨.interpolated⟩

/-- The name of a mode. -/
def name : DecodeMode → String
  | .vertex => "vertex"
  | .interpolated => "interpolated"

/-- The mode with exactly this name. -/
def ofName? : String → Option DecodeMode
  | "vertex" => some .vertex
  | "interpolated" => some .interpolated
  | _ => none

/-- The mode a person asks for, in any case and with a second spelling for each. The text that
could not be understood comes back as it was looked up. -/
def read (s : String) : Except String DecodeMode :=
  match Text.keyword s with
  | "vertex" | "vertices" => .ok .vertex
  | "interpolated" | "interpolate" => .ok .interpolated
  | unknown => .error unknown

/-- What is said about a mode that does not exist. -/
def unknownMessage (unknown : String) : String :=
  s!"Unknown decode mode: {unknown}"

end DecodeMode

/-- What decoding needs to know to produce points. -/
structure DecodeOptions where
  mode : DecodeMode := .interpolated
  /-- The distance between samples. -/
  step : Float := 0.1
  deriving BEq, DecidableEq, Inhabited

/-- One move between two absolute positions. -/
structure MotionSegment where
  start : Point
  stop : Point
  kind : MotionKind := .linear
  /-- A linear move during which the extrusion went up. -/
  isDeposit : Bool := false
  /-- The number of its line, counted from one, or zero outside of a program. -/
  line : Nat := 0
  deriving BEq, DecidableEq, Inhabited

/-- The points of a segment that are still to come. -/
inductive SegmentPoints where
  /-- At most one point. -/
  | single (point : Option Point)
  /-- The samples from number `next` on, of `steps` in all. -/
  | samples (start stop : Point) (steps next : Nat)
  deriving DecidableEq

namespace SegmentPoints

/-- No points. -/
def empty : SegmentPoints := .single none

/-- How many points are still to come. -/
def length : SegmentPoints → Nat
  | .single point => if point.isSome then 1 else 0
  | .samples _ _ steps next => steps - next

/-- Sample number `i` of `steps`. -/
def sample (start stop : Point) (steps i : Nat) : Point :=
  start.lerp stop (i.toUInt64.toFloat / steps.toUInt64.toFloat)

/-- The next point and the ones behind it. -/
def next? : SegmentPoints → Option (Point × SegmentPoints)
  | .single point => point.map fun p => (p, empty)
  | .samples start stop steps next =>
      if next < steps then
        some (sample start stop steps next, .samples start stop steps (next + 1))
      else none

/-- The first `n` points, or all if there are fewer, and the ones behind them. -/
def take (n : Nat) : SegmentPoints → List Point × SegmentPoints
  | .single point => if n = 0 then ([], .single point) else (point.toList, empty)
  | .samples start stop steps next =>
      let count := min n (steps - next)
      ((List.range' next count).map (sample start stop steps),
        .samples start stop steps (next + count))

/-- All the points. -/
def toList (points : SegmentPoints) : List Point :=
  (points.take points.length).1

/-- There is a next point as long as there are points to come. -/
theorem next?_eq_none_iff (points : SegmentPoints) : points.next? = none ↔ points.length = 0 := by
  cases points with
  | single point => cases point <;> simp [next?, length]
  | samples start stop steps next =>
      by_cases h : next < steps
      · simp only [next?, length, h, if_true, reduceCtorEq, false_iff]
        omega
      · simp only [next?, length, h, if_false, true_iff]
        omega

/-- Every point taken is one less to come. -/
theorem length_of_next? {points rest : SegmentPoints} {p : Point}
    (h : points.next? = some (p, rest)) : points.length = rest.length + 1 := by
  cases points with
  | single point =>
      cases point with
      | none => simp [next?] at h
      | some q =>
          simp only [next?, Option.map_some, Option.some.injEq, Prod.mk.injEq] at h
          obtain ⟨-, rfl⟩ := h
          simp [length, empty]
  | samples start stop steps next =>
      by_cases hn : next < steps
      · simp only [next?, hn, if_true, Option.some.injEq, Prod.mk.injEq] at h
        obtain ⟨-, rfl⟩ := h
        simp only [length]
        omega
      · simp [next?, hn] at h

theorem take_zero (points : SegmentPoints) : points.take 0 = ([], points) := by
  cases points <;> simp [take]

/-- Taking points is asking for the next one again and again. -/
theorem take_succ (n : Nat) (points : SegmentPoints) :
    points.take (n + 1) =
      match points.next? with
      | none => ([], points)
      | some (p, rest) => (p :: (rest.take n).1, (rest.take n).2) := by
  cases points with
  | single point =>
      cases point with
      | none => simp [take, next?, empty]
      | some p => by_cases hn : n = 0 <;> simp [take, next?, empty, hn]
  | samples start stop steps next =>
      by_cases h : next < steps
      · have hc : min (n + 1) (steps - next) = min n (steps - (next + 1)) + 1 := by omega
        simp only [take, next?, h, if_true, hc, List.range'_succ, List.map_cons]
        congr 2
        omega
      · have hc : steps - next = 0 := by omega
        simp [take, next?, h, hc]

end SegmentPoints

namespace MotionSegment

/-- The length of the segment. -/
def length (segment : MotionSegment) : Float :=
  segment.start.distance segment.stop

/-- What is added to the number of steps in a segment before it is cut down to a whole
number, so that a division just short of one does not lose a sample. -/
def stepSlack : Float := 1e-9

/-- The number of samples at a distance of `step`. A step that is not positive and finite gives
none, and so does a segment that is not a finite number of steps long. -/
def stepCount (segment : MotionSegment) (step : Float) : Nat :=
  if step ≤ 0.0 || !step.isFinite then 0
  else
    let ratio := segment.length / step
    if !ratio.isFinite then 0 else (ratio + stepSlack).toUInt64.toNat

/-- Samples from the start, which is one of them, towards the end, which is not. -/
def densify (segment : MotionSegment) (step : Float) : SegmentPoints :=
  .samples segment.start segment.stop (segment.stepCount step) 0

/-- The points that the segment contributes to a cloud. -/
def points (segment : MotionSegment) (options : DecodeOptions) : SegmentPoints :=
  match options.mode with
  | .vertex => .single (some segment.stop)
  | .interpolated => if segment.isDeposit then segment.densify options.step else .empty

end MotionSegment

end Toolpath
