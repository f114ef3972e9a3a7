import Toolpath.Proofs.Motion.Run
import Toolpath.Proofs.Motion.Samples

/-! # Asking for points call by call

The points of a segment are asked for one at a time, and may be asked for after
the last one. Every call that is answered with a point takes one from the number
of points to come, and a call that is not changes nothing. So the answers to any
number of calls are the points in order and then none, and the number of points
to come is exact after each of them.
-/

namespace Toolpath

namespace SegmentPoints

/-- One call for the next point: what is answered, and the points still to come. -/
def call (points : SegmentPoints) : Option Point × SegmentPoints :=
  match points.next? with
  | some (p, rest) => (some p, rest)
  | none => (none, points)

/-- A number of calls: what is answered to each of them, and the points still to come. -/
def calls : Nat → SegmentPoints → List (Option Point) × SegmentPoints
  | 0, points => ([], points)
  | n + 1, points =>
      let (answer, rest) := points.call
      let (answers, left) := calls n rest
      (answer :: answers, left)

/-- Whether the number of the next sample is no more than the number of samples, which is below
`2 ^ 64`, so that the one can be counted up to the other in 64 bits. -/
def Counted : SegmentPoints → Prop
  | .single _ => True
  | .samples _ _ steps next => next ≤ steps ∧ steps < 2 ^ 64

variable {points rest : SegmentPoints} {p : Point}

/-! ## One call -/

theorem call_of_next?_eq_none (h : points.next? = none) : points.call = (none, points) := by
  rw [call, h]

theorem call_of_next?_eq_some (h : points.next? = some (p, rest)) :
    points.call = (some p, rest) := by
  rw [call, h]

/-- A call takes as many points from those to come as it answers with. -/
theorem length_call (points : SegmentPoints) :
    points.call.2.length + points.call.1.toList.length = points.length := by
  cases h : points.next? with
  | none => rw [call_of_next?_eq_none h, Option.toList_none, List.length_nil, Nat.add_zero]
  | some found =>
      obtain ⟨p, rest⟩ := found
      rw [call_of_next?_eq_some h, Option.toList_some, List.length_singleton, length_of_next? h]

/-- The number of the next sample is counted up only while it is below the number of samples. -/
theorem Counted.call (h : points.Counted) : points.call.2.Counted := by
  cases points with
  | single point => cases point <;> trivial
  | samples start stop steps next =>
      obtain ⟨hle, hsteps⟩ := h
      by_cases hnext : next < steps
      · have hmore : (samples start stop steps next).next? =
            some (sample start stop steps next, samples start stop steps (next + 1)) := if_pos hnext
        rw [call_of_next?_eq_some hmore]
        exact ⟨hnext, hsteps⟩
      · have hnone : (samples start stop steps next).next? = none := if_neg hnext
        rw [call_of_next?_eq_none hnone]
        exact ⟨hle, hsteps⟩

/-- The first point is answered, and the others are still to come. -/
theorem call_eq (points : SegmentPoints) :
    points.call.1 = points.toList[0]? ∧
      ∀ i, points.call.2.toList[i]? = points.toList[i + 1]? := by
  cases h : points.next? with
  | none =>
      rw [call_of_next?_eq_none h, toList_of_next?_eq_none h]
      exact ⟨rfl, fun _ => rfl⟩
  | some found =>
      obtain ⟨p, rest⟩ := found
      rw [call_of_next?_eq_some h, toList_of_next?_eq_some h]
      exact ⟨rfl, fun _ => rfl⟩

/-! ## Any number of calls -/

variable (n : Nat)

/-- The points to come and the points given are the points there were. -/
theorem length_calls (points : SegmentPoints) :
    (points.calls n).2.length + ((points.calls n).1.filterMap id).length = points.length := by
  induction n generalizing points with
  | zero => rfl
  | succ n ih =>
      have hrest := ih points.call.2
      have hcall := points.length_call
      change (points.call.2.calls n).2.length +
        ((points.call.1 :: (points.call.2.calls n).1).filterMap id).length = points.length
      cases hanswer : points.call.1 with
      | none =>
          rw [hanswer, Option.toList_none, List.length_nil] at hcall
          rw [List.filterMap_cons_none (f := id) rfl]
          omega
      | some p =>
          rw [hanswer, Option.toList_some, List.length_singleton] at hcall
          rw [List.filterMap_cons_some (f := id) rfl, List.length_cons]
          omega

theorem Counted.calls (h : points.Counted) : (points.calls n).2.Counted := by
  induction n generalizing points with
  | zero => exact h
  | succ n ih => exact ih h.call

/-- Calls are answered with the points in order, and behind the last one with none. -/
theorem fst_calls (points : SegmentPoints) :
    (points.calls n).1 = (List.range n).map fun i => points.toList[i]? := by
  induction n generalizing points with
  | zero => rfl
  | succ n ih =>
      obtain ⟨hfirst, hrest⟩ := points.call_eq
      rw [calls, List.range_succ_eq_map, List.map_cons, List.map_map]
      change points.call.1 :: (points.call.2.calls n).1 = _
      rw [ih, hfirst]
      exact congrArg _ (List.map_congr_left fun i _ => hrest i)

/-- Every call leaves one point less to come until there are none. -/
theorem length_snd_calls (points : SegmentPoints) :
    (points.calls n).2.length = points.length - n := by
  induction n generalizing points with
  | zero => rfl
  | succ n ih =>
      change (points.call.2.calls n).2.length = _
      rw [ih]
      cases h : points.next? with
      | none =>
          have hzero := points.next?_eq_none_iff.mp h
          simp only [call_of_next?_eq_none h]
          omega
      | some found =>
          obtain ⟨p, rest⟩ := found
          simp only [call_of_next?_eq_some h, length_of_next? h]
          omega

/-- There is no point behind point number `i`, counted from zero, just when `i + 1` is the number
of points. -/
theorem add_one_eq_length_iff {i : Nat} (hi : i < points.length) :
    i + 1 = points.length ↔ (points.calls (i + 1)).2.next? = none := by
  rw [next?_eq_none_iff, length_snd_calls]
  omega

end SegmentPoints

namespace MotionSegment

variable (segment : MotionSegment) (options : DecodeOptions)

/-- How many points a segment contributes: one in vertex mode, and otherwise the samples of a
deposit and none of a travel move. -/
def pointCount : Nat :=
  match options.mode with
  | .vertex => 1
  | .interpolated => if segment.isDeposit then segment.stepCount options.step else 0

/-- Point number `i` of a segment, counted from zero: its end in vertex mode, and otherwise the
point at as many steps from its start. -/
def pointAt (i : Nat) : Point :=
  match options.mode with
  | .vertex => segment.stop
  | .interpolated =>
      let steps := segment.stepCount options.step
      segment.start.lerp segment.stop (i.toUInt64.toFloat / steps.toUInt64.toFloat)

theorem counted_points : (segment.points options).Counted := by
  unfold points
  cases options.mode with
  | vertex => trivial
  | interpolated =>
      cases segment.isDeposit with
      | false => trivial
      | true => exact ⟨Nat.zero_le _, segment.stepCount_lt _⟩

theorem toList_points :
    (segment.points options).toList =
      (List.range (segment.pointCount options)).map (segment.pointAt options) := by
  unfold points pointCount pointAt
  cases options.mode with
  | vertex => rfl
  | interpolated =>
      cases segment.isDeposit with
      | false => rfl
      | true => exact SegmentPoints.toList_samples _ _ _

theorem length_points : (segment.points options).length = segment.pointCount options := by
  rw [← SegmentPoints.length_toList, toList_points, List.length_map, List.length_range]

theorem getElem?_toList_points (i : Nat) :
    (segment.points options).toList[i]? =
      if i < segment.pointCount options then some (segment.pointAt options i) else none := by
  rw [toList_points, List.getElem?_map]
  split
  next hlt => rw [List.getElem?_range hlt, Option.map_some]
  next hle => rw [List.getElem?_eq_none (by rw [List.length_range]; omega), Option.map_none]

end MotionSegment

end Toolpath
