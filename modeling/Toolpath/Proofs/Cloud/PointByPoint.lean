import Toolpath.Proofs.Cloud.Assembly

/-! # Assembling point by point

An assembler takes in a segment in one step. The same comes out when the points
of the segment are asked for one at a time and the limit is looked at behind
each of them, which is how a stream without an end has to be cut.
-/

namespace Toolpath.Assembler

variable (assembler : Assembler) (segment : MotionSegment)

/-- The assembler with its box widened by a position, if the segment deposits material. -/
def widen (p : Point) : Assembler :=
  let bounds := assembler.cloud.bounds
  { assembler with
    cloud :=
      { assembler.cloud with bounds := if segment.isDeposit then bounds.insert p else bounds } }

/-- The assembler with one more point. -/
def keep (p : Point) : Assembler :=
  { assembler with cloud := { assembler.cloud with points := assembler.cloud.points.push p } }

/-- Take in the points of a segment until there are none left or the limit is reached. Behind the
last point that there is, the box is widened by the end of the segment, and behind one at which the
limit cuts the segment short, by that point. -/
def takeEach (assembler : Assembler) (segment : MotionSegment) : List Point → Flow × Assembler
  | [] => (.goOn, assembler.widen segment (assembler.options.normalize segment.stop))
  | p :: points =>
      let after := assembler.keep (assembler.options.normalize p)
      if after.isFull then
        let reached := if points.isEmpty then segment.stop else p
        (.stop, after.widen segment (after.options.normalize reached))
      else takeEach after segment points

/-- The assembler with a segment begun, of which it has no points yet. -/
def start : Assembler :=
  ({ assembler with segments := assembler.segments + 1 } : Assembler).widen segment
    (assembler.options.normalize segment.start)

/-- Take in one more segment point by point. -/
def pushEach : Flow × Assembler :=
  if assembler.isFull then (.stop, assembler)
  else (assembler.start segment).takeEach segment (segment.points assembler.options.decode).toList

/-- Where a segment ends for the box when some of its points are kept. -/
def reached (points kept : List Point) : Point :=
  if kept.length = points.length then assembler.options.normalize segment.stop
  else (kept.map assembler.options.normalize).getLast?.getD
    (assembler.options.normalize segment.stop)

/-- The assembler with more points. -/
def append (points : List Point) : Assembler :=
  { assembler with
    cloud := { assembler.cloud with points := assembler.cloud.points ++ points } }

/-- The assembler with some of the points of a segment, taken at once. -/
def keepAll (points kept : List Point) : Assembler :=
  (assembler.append (kept.map assembler.options.normalize)).widen segment
    (assembler.reached segment points kept)

theorem room_keep (p : Point) : (assembler.keep p).room = assembler.room.map (· - 1) := by
  unfold room keep PointCloud.size
  rw [Array.size_push]
  cases assembler.options.maxPoints with
  | none => rfl
  | some limit => simp [Nat.sub_sub]

@[simp] theorem flow_widen (p : Point) : (assembler.widen segment p).flow = assembler.flow := rfl

/-- The point in front does not matter unless it is the only one that is kept of several. -/
theorem reached_cons (p : Point) (points kept : List Point) (h : kept = [] → points = []) :
    assembler.reached segment (p :: points) (p :: kept) =
      assembler.reached segment points kept := by
  by_cases hlength : kept.length = points.length
  · simp only [reached, List.length_cons, hlength, if_true]
  · cases kept with
    | nil => exact absurd (congrArg List.length (h rfl)).symm hlength
    | cons q kept =>
        have hmore : ¬(p :: q :: kept).length = (p :: points).length :=
          fun hsame => hlength (Nat.succ.inj hsame)
        simp only [reached, if_neg hlength, if_neg hmore]
        rfl

theorem append_cons (p : Point) (points : List Point) :
    assembler.append (p :: points) = (assembler.keep p).append points := by
  unfold append keep
  rw [Array.appendList_cons]

theorem append_nil : assembler.append [] = assembler := by
  unfold append
  rw [Array.appendList_nil]

theorem keepAll_cons (p : Point) (points kept : List Point) (h : kept = [] → points = []) :
    assembler.keepAll segment (p :: points) (p :: kept) =
      (assembler.keep (assembler.options.normalize p)).keepAll segment points kept := by
  unfold keepAll
  rw [reached_cons _ _ _ _ _ h, List.map_cons, append_cons]
  rfl

/-- Where nothing behind a point is kept, the segment ends there unless nothing is behind it. -/
theorem keepAll_singleton (p : Point) (points : List Point) :
    assembler.keepAll segment (p :: points) [p] =
      (assembler.keep (assembler.options.normalize p)).widen segment
        (assembler.options.normalize (if points.isEmpty then segment.stop else p)) := by
  unfold keepAll
  rw [List.map_singleton, append_cons, append_nil]
  cases points <;> rfl

/-- Taking points one at a time keeps those that fit. -/
theorem takeEach_eq (points : List Point) (h : assembler.isFull ≠ true) :
    assembler.takeEach segment points =
      ((assembler.keepAll segment points (fitting assembler.room points)).flow,
        assembler.keepAll segment points (fitting assembler.room points)) := by
  induction points generalizing assembler with
  | nil =>
      have hflow : assembler.flow = .goOn := if_neg h
      rw [fitting_nil, keepAll, List.map_nil, append_nil, flow_widen, hflow]
      rfl
  | cons p points ih =>
      have hroom : assembler.room ≠ some 0 := mt assembler.isFull_iff.mpr h
      rw [fitting_cons _ hroom, ← assembler.room_keep (assembler.options.normalize p), takeEach]
      by_cases hfull : (assembler.keep (assembler.options.normalize p)).isFull = true
      · -- The limit is reached: nothing of what follows fits.
        have hnone : fitting (assembler.keep (assembler.options.normalize p)).room points = [] :=
          (fitting_eq_nil_iff _ _).mpr (.inl ((isFull_iff _).mp hfull))
        have hflow : (assembler.keep (assembler.options.normalize p)).flow = .stop := if_pos hfull
        simp only [if_pos hfull]
        rw [hnone, keepAll_singleton, flow_widen, hflow]
        rfl
      · have hkept : fitting (assembler.keep (assembler.options.normalize p)).room points = [] →
            points = [] := by
          intro hnil
          rcases (fitting_eq_nil_iff _ _).mp hnil with hroom | hpoints
          · exact absurd ((isFull_iff _).mpr hroom) hfull
          · exact hpoints
        simp only [if_neg hfull]
        rw [ih _ hfull, keepAll_cons _ _ _ _ _ hkept]

/-- A segment is taken in by keeping what fits of its points. -/
theorem insert_eq_keepAll (h : assembler.isFull ≠ true) :
    assembler.insert segment =
      (assembler.start segment).keepAll segment (segment.points assembler.options.decode).toList
        (fitting assembler.room (segment.points assembler.options.decode).toList) := by
  simp only [insert, if_neg h, fst_take_allowance, List.length_map]
  rw [← SegmentPoints.length_toList]
  cases hdeposit : segment.isDeposit with
  | false => simp [keepAll, start, widen, append, hdeposit]
  | true => simp [keepAll, start, widen, append, reached, hdeposit]

/-- Taking in a segment at once and point by point is the same. -/
theorem push_eq_pushEach : assembler.push segment = assembler.pushEach segment := by
  unfold pushEach
  by_cases h : assembler.isFull = true
  · rw [if_pos h, push, assembler.insert_of_isFull h, flow, if_pos h]
  · have hstart : (assembler.start segment).isFull ≠ true := h
    rw [if_neg h, takeEach_eq _ _ _ hstart, push, insert_eq_keepAll _ _ h]
    rfl

end Toolpath.Assembler
