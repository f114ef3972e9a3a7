import Toolpath.Proofs.Cloud.PointByPoint
import Toolpath.Proofs.Motion.Calls

/-! # Telling the last point of a segment

An assembler that asks for the points of a segment one after the other can tell
the last one by its number: the number of points to come is known before the
first is asked for. Taking the box to the end of the segment behind the point
with that number is the same as doing so behind the point that nothing follows.
-/

namespace Toolpath

namespace Assembler

variable (assembler : Assembler) (segment : MotionSegment)

/-- Ask for the points of a segment, the next one being number `i` of `total` counted from zero,
until there are none left or the limit is reached. The box is widened by the end of the segment, or
where the limit cuts the segment short, by the point at which it does. -/
def takeNumbered (assembler : Assembler) (segment : MotionSegment) (total i : Nat)
    (points : SegmentPoints) : Flow × Assembler :=
  match h : points.next? with
  | none => (.goOn, assembler.widen segment (assembler.options.normalize segment.stop))
  | some (p, rest) =>
      let after := assembler.keep (assembler.options.normalize p)
      if after.isFull then
        let reached := if i + 1 = total then segment.stop else p
        (.stop, after.widen segment (after.options.normalize reached))
      else after.takeNumbered segment total (i + 1) rest
termination_by points.length
decreasing_by
  rw [SegmentPoints.length_of_next? h]
  exact Nat.lt_succ_self _

/-- Take in one more segment by asking for its points, which are numbered. -/
def pushNumbered : Flow × Assembler :=
  if assembler.isFull then (.stop, assembler)
  else
    let points := segment.points assembler.options.decode
    (assembler.start segment).takeNumbered segment points.length 0 points

/-- The number of a point tells whether it is the last, as long as the points in front of it and
those to come make up the total. -/
theorem takeNumbered_eq {total i : Nat} {points : SegmentPoints} (h : i + points.length = total) :
    assembler.takeNumbered segment total i points = assembler.takeEach segment points.toList := by
  fun_induction takeNumbered assembler segment total i points with
  | case1 assembler i points hnone =>
      rw [SegmentPoints.toList_of_next?_eq_none hnone]
      rfl
  | case2 assembler i points p rest hsome after hfull reached =>
      rw [SegmentPoints.length_of_next? hsome] at h
      have hlast : (i + 1 = total) = (rest.toList.isEmpty = true) := by
        rw [eq_iff_iff, List.isEmpty_iff_length_eq_zero, SegmentPoints.length_toList]
        omega
      rw [SegmentPoints.toList_of_next?_eq_some hsome, takeEach]
      simp only [reached, hlast]
      exact (if_pos hfull).symm
  | case3 assembler i points p rest hsome after hfull ih =>
      rw [SegmentPoints.length_of_next? hsome] at h
      rw [SegmentPoints.toList_of_next?_eq_some hsome, takeEach, ih (by omega)]
      exact (if_neg hfull).symm

theorem push_eq_pushNumbered : assembler.push segment = assembler.pushNumbered segment := by
  rw [push_eq_pushEach, pushEach, pushNumbered, takeNumbered_eq _ _ (Nat.zero_add _)]

end Assembler

open SegmentPoints in
/-- Whatever the segment, the mode and the step, and however many calls for a point have been made,
the points given and those to come make up the number of points there were. The calls have been
answered with the points in order and from then on with none, and the counters have stayed below
`2 ^ 64`. So a point is the last just when its number, counted from one, is the number of points,
and the assembler is the one that takes the box to the end of the segment at the point with that
number. -/
theorem MotionSegment.calls_points (segment : MotionSegment) (options : DecodeOptions) (j : Nat) :
    let points := segment.points options
    let total := segment.pointCount options
    let answers := (points.calls j).1
    let left := (points.calls j).2
    points.length = total ∧
    left.length + (answers.filterMap id).length = points.length ∧
    answers = (List.range j).map (fun i =>
      if i < total then some (segment.pointAt options i) else none) ∧
    (total ≤ j → left.length = 0 ∧ left.call = (none, left)) ∧
    left.Counted ∧
    (∀ i < total, i + 1 = total ↔ (points.calls (i + 1)).2.next? = none) ∧
    ∀ assembler : Assembler, assembler.push segment = assembler.pushNumbered segment := by
  intro points total answers left
  have htotal : points.length = total := segment.length_points options
  have hleft : left.length = points.length - j := length_snd_calls j points
  have hanswers : answers = (List.range j).map fun i =>
      if i < total then some (segment.pointAt options i) else none :=
    (fst_calls j points).trans
      (List.map_congr_left fun i _ => segment.getElem?_toList_points options i)
  refine ⟨htotal, length_calls j points, hanswers, fun hj => ?_, ?_, fun i hi => ?_, ?_⟩
  · have hnone : left.length = 0 := by omega
    exact ⟨hnone, call_of_next?_eq_none (left.next?_eq_none_iff.mpr hnone)⟩
  · exact (segment.counted_points options).calls j
  · rw [← htotal] at hi ⊢
    exact add_one_eq_length_iff hi
  · exact fun assembler => assembler.push_eq_pushNumbered segment

/-- A deposit with two samples is cut short behind its first point, which is not the last. -/
example :
    let segment : MotionSegment := { start := .origin, stop := ⟨2.0, 0.0, 0.0⟩, isDeposit := true }
    let assembler : Assembler := { options := { decode := { step := 1.0 }, maxPoints := some 1 } }
    (segment.points assembler.options.decode).length = 2 ∧
      (assembler.push segment).2.cloud.bounds = ⟨.origin, .origin⟩ := by
  decide +kernel

end Toolpath
