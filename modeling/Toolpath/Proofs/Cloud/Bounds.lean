import Toolpath.Proofs.Cloud.Assembly
import Toolpath.Proofs.Geometry.Box
import Toolpath.Proofs.Number.Finite

/-! # The box of a cloud

The box of a cloud is made of the ends of its deposits, not of its points: every
segment that is taken in and deposits material gives its start, and its end or,
if the limit cuts it short, the last of its points that is kept.
-/

namespace Toolpath

/-- The positions a segment widens the box by when so many more points may be kept. -/
def MotionSegment.corners (segment : MotionSegment) (decode : DecodeOptions) (room : Option Nat) :
    List Point :=
  let points := (segment.points decode).toList
  let kept := fitting room points
  if segment.isDeposit then
    segment.start :: if kept.length = points.length then [segment.stop] else kept.getLast?.toList
  else []

namespace AssemblyOptions

variable (options : AssemblyOptions) (before segments : List MotionSegment)

/-- How many more points may be kept behind some segments. -/
def roomBehind (segments : List MotionSegment) : Option Nat :=
  options.maxPoints.map
    (· - (segments.flatMap fun segment => (segment.points options.decode).toList).length)

/-- The segments taken in, each with the room it finds: those in front of which the points of the
segments before them have not used up the limit. -/
def consumed (segments : List MotionSegment) : List (MotionSegment × Option Nat) :=
  (segments.zipIdx.map fun (segment, i) => (segment, options.roomBehind (segments.take i))).filter
    fun (_, room) => room ≠ some 0

/-- The segments taken in behind some others. -/
def consumedBehind (before segments : List MotionSegment) : List (MotionSegment × Option Nat) :=
  ((segments.zipIdx before.length).map fun (segment, i) =>
    (segment, options.roomBehind ((before ++ segments).take i))).filter
      fun (_, room) => room ≠ some 0

theorem consumedBehind_cons (segment : MotionSegment) :
    options.consumedBehind before (segment :: segments) =
      (if options.roomBehind before = some 0 then [] else [(segment, options.roomBehind before)]) ++
        options.consumedBehind (before ++ [segment]) segments := by
  have hfront : (before ++ segment :: segments).take before.length = before := List.take_left
  simp only [consumedBehind, List.zipIdx_cons, List.map_cons, List.filter_cons, hfront,
    List.length_append, List.length_singleton, List.append_assoc, List.singleton_append]
  by_cases h : options.roomBehind before = some 0 <;> simp [h]

theorem roomBehind_append (segment : MotionSegment) :
    options.roomBehind (before ++ [segment]) =
      (options.roomBehind before).map (· - (segment.points options.decode).length) := by
  unfold roomBehind
  rw [List.flatMap_append, List.length_append, List.flatMap_singleton,
    SegmentPoints.length_toList]
  cases options.maxPoints with
  | none => rfl
  | some limit => simp [Nat.sub_sub]

/-- Once the limit is used up no segment is taken in. -/
theorem consumedBehind_of_full (h : options.roomBehind before = some 0) :
    options.consumedBehind before segments = [] := by
  induction segments generalizing before with
  | nil => rfl
  | cons segment segments ih =>
      rw [consumedBehind_cons, if_pos h, List.nil_append]
      apply ih
      rw [roomBehind_append, h]
      simp

/-- Without a limit all segments are taken in, and all of them have all the room. -/
theorem consumed_of_unlimited (h : options.maxPoints = none) :
    options.consumed segments = segments.map fun segment => (segment, none) := by
  have hroom (before : List MotionSegment) : options.roomBehind before = none := by
    rw [roomBehind, h, Option.map_none]
  have hall (before : List MotionSegment) :
      options.consumedBehind before segments = segments.map fun segment => (segment, none) := by
    induction segments generalizing before with
    | nil => rfl
    | cons segment segments ih => simp [consumedBehind_cons, hroom, ih]
  exact hall []

end AssemblyOptions

namespace Assembler

variable (assembler : Assembler)

theorem segments_insert (h : assembler.room ≠ some 0) (segment : MotionSegment) :
    (assembler.insert segment).segments = assembler.segments + 1 := by
  have hfull : ¬assembler.isFull = true := mt assembler.isFull_iff.mp h
  simp [insert, hfull]

/-- A segment widens the box by its corners. -/
theorem bounds_insert (h : assembler.room ≠ some 0) (segment : MotionSegment) :
    (assembler.insert segment).cloud.bounds =
      ((segment.corners assembler.options.decode assembler.room).map
        assembler.options.normalize).foldl Box.insert assembler.cloud.bounds := by
  have hfull : ¬assembler.isFull = true := mt assembler.isFull_iff.mp h
  simp only [insert, hfull, MotionSegment.corners, fst_take_allowance, List.length_map,
    SegmentPoints.length_toList]
  cases segment.isDeposit with
  | false => rfl
  | true =>
      generalize segment.points assembler.options.decode = points
      by_cases hall : (fitting assembler.room points.toList).length = points.length
      · simp [hall]
      · -- A segment is only cut short behind one of its points.
        cases hlast : (fitting assembler.room points.toList).getLast? with
        | none =>
            rw [List.getLast?_eq_none_iff] at hlast
            rcases (fitting_eq_nil_iff _ _).mp hlast with hroom | hnil
            · exact absurd hroom h
            · rw [hlast, ← SegmentPoints.length_toList, hnil] at hall
              exact absurd rfl hall
        | some p => simp [hall, hlast]

/-- What an assembler that has come behind some segments makes of the ones that follow. -/
theorem foldl_insert_eq (before segments : List MotionSegment)
    (hroom : assembler.room = assembler.options.roomBehind before) :
    (segments.foldl insert assembler).cloud.bounds =
        (((assembler.options.consumedBehind before segments).flatMap fun (segment, room) =>
          segment.corners assembler.options.decode room).map
            assembler.options.normalize).foldl Box.insert assembler.cloud.bounds ∧
      (segments.foldl insert assembler).segments =
        assembler.segments + (assembler.options.consumedBehind before segments).length ∧
      (assembler.options.consumedBehind before segments).map Prod.fst =
        segments.take (assembler.options.consumedBehind before segments).length := by
  induction segments generalizing assembler before with
  | nil => simp [AssemblyOptions.consumedBehind]
  | cons segment segments ih =>
      by_cases hfull : assembler.room = some 0
      · -- Without room neither the assembler nor what is taken in changes any more.
        rw [AssemblyOptions.consumedBehind_of_full _ _ _ (hroom ▸ hfull),
          foldl_insert_of_isFull _ (assembler.isFull_iff.mpr hfull)]
        simp
      · have hnext : (assembler.insert segment).room =
            (assembler.insert segment).options.roomBehind (before ++ [segment]) := by
          rw [room_insert, options_insert, AssemblyOptions.roomBehind_append, hroom]
        obtain ⟨hbounds, hcount, hfront⟩ :=
          ih (assembler.insert segment) (before ++ [segment]) hnext
        rw [options_insert] at hbounds hcount hfront
        rw [AssemblyOptions.consumedBehind_cons, if_neg (hroom ▸ hfull), List.foldl_cons]
        refine ⟨?_, ?_, ?_⟩
        · rw [hbounds, assembler.bounds_insert hfull, ← hroom, List.flatMap_append, List.map_append,
            List.foldl_append, List.flatMap_singleton]
        · rw [hcount, assembler.segments_insert hfull, List.length_append, List.length_singleton]
          omega
        · rw [List.map_append, hfront]
          simp

end Assembler

theorem Point.isFinite_rounded {p : Point} (places : Nat) (h : p.isFinite = true) :
    (p.rounded places).isFinite = true := by
  simp only [isFinite, Bool.and_eq_true] at h
  obtain ⟨⟨hx, hy⟩, hz⟩ := h
  simp only [isFinite, rounded, Number.isFinite_roundTo places hx,
    Number.isFinite_roundTo places hy, Number.isFinite_roundTo places hz, Bool.and_self]

theorem AssemblyOptions.isFinite_normalize (options : AssemblyOptions) {p : Point}
    (h : p.isFinite = true) : (options.normalize p).isFinite = true := by
  unfold normalize
  split
  · exact p.isFinite_rounded _ h
  · exact h

namespace PointCloud

variable (options : AssemblyOptions) (segments : List MotionSegment)

/-- The box of a cloud is the box of the corners of the segments taken in. -/
theorem bounds_ofSegments_eq :
    (ofSegments options segments).bounds =
      Box.ofPoints (((options.consumed segments).flatMap fun (segment, room) =>
        segment.corners options.decode room).map options.normalize) := by
  have hroom : Assembler.room { options } = options.roomBehind [] := rfl
  have hrun := (Assembler.foldl_insert_eq { options } [] segments hroom).1
  unfold ofSegments
  rw [Assembler.pushAll_eq_foldl, hrun]
  rfl

/-- Without a limit every deposit widens the box by its two ends. -/
theorem bounds_ofSegments_of_unlimited (h : options.maxPoints = none) :
    (ofSegments options segments).bounds =
      Box.ofPoints ((segments.flatMap fun segment =>
        if segment.isDeposit then [segment.start, segment.stop] else []).map
          options.normalize) := by
  rw [bounds_ofSegments_eq, options.consumed_of_unlimited segments h, List.flatMap_map]
  simp [MotionSegment.corners, fitting]

/-- The segments taken in are the first ones of the list, as many as are counted. -/
theorem consumed_eq_take :
    (options.consumed segments).map Prod.fst =
        segments.take (Assembler.pushAll { options } segments).segments ∧
      (options.consumed segments).length = (Assembler.pushAll { options } segments).segments := by
  have hroom : Assembler.room { options } = options.roomBehind [] := rfl
  obtain ⟨-, hcount, hfront⟩ := Assembler.foldl_insert_eq { options } [] segments hroom
  rw [← Assembler.pushAll_eq_foldl, Nat.zero_add] at hcount
  rw [hcount]
  exact ⟨hfront, rfl⟩

theorem mem_of_mem_consumed {segment : MotionSegment} {room : Option Nat}
    (h : (segment, room) ∈ options.consumed segments) : segment ∈ segments := by
  refine List.mem_of_mem_take (i := (Assembler.pushAll { options } segments).segments) ?_
  rw [← (consumed_eq_take options segments).1]
  exact List.mem_map_of_mem h

/-- A deposit that is taken in sets the box, and nothing else does. -/
theorem bounds_ofSegments_eq_empty_iff
    (hfinite : ∀ segment ∈ segments, segment.start.isFinite = true) :
    (ofSegments options segments).bounds = Box.empty ↔
      ∀ segment room, (segment, room) ∈ options.consumed segments → segment.isDeposit = false := by
  rw [bounds_ofSegments_eq]
  constructor
  · intro hempty segment room hmem
    by_contra htravel
    have hdeposit : segment.isDeposit = true := Bool.not_eq_false _ ▸ htravel
    have hsegment := mem_of_mem_consumed options segments hmem
    have hstart : segment.start ∈ segment.corners options.decode room := by
      simp [MotionSegment.corners, hdeposit]
    -- The start of the deposit stays finite when it is rounded, and so sets the box.
    refine Box.ofPoints_ne_empty (List.mem_map_of_mem (List.mem_flatMap.mpr
      ⟨(segment, room), hmem, hstart⟩)) ?_ hempty
    exact options.isFinite_normalize (hfinite segment hsegment)
  · intro htravel
    have hnone : (options.consumed segments).flatMap (fun (segment, room) =>
        segment.corners options.decode room) = [] := by
      rw [List.flatMap_eq_nil_iff]
      rintro ⟨segment, room⟩ hmem
      simp [MotionSegment.corners, htravel segment room hmem]
    rw [hnone]
    rfl

/-- The box of a cloud is the box of the ends of its deposits. The segments taken in are the first
ones of the list, as many as are counted; each of those that deposits material gives its start, and
its end or the last point kept of it. Without a limit the mode and the step make no difference, and
with or without one the box stays unset exactly if no deposit is taken in. -/
theorem bounds_ofSegments (decode : DecodeOptions) :
    let consumed := options.consumed segments
    (consumed.map Prod.fst = segments.take (Assembler.pushAll { options } segments).segments ∧
      consumed.length = (Assembler.pushAll { options } segments).segments) ∧
    (ofSegments options segments).bounds =
      Box.ofPoints ((consumed.flatMap fun (segment, room) =>
        segment.corners options.decode room).map options.normalize) ∧
    (ofSegments { options with maxPoints := none } segments).bounds =
      (ofSegments { options with maxPoints := none, decode } segments).bounds ∧
    ((∀ segment ∈ segments, segment.start.isFinite = true ∧ segment.stop.isFinite = true) →
      ((ofSegments options segments).bounds = Box.empty ↔
        ∀ segment room, (segment, room) ∈ consumed → segment.isDeposit = false)) := by
  intro consumed
  refine ⟨consumed_eq_take options segments, bounds_ofSegments_eq options segments, ?_, ?_⟩
  · rw [bounds_ofSegments_of_unlimited _ _ rfl, bounds_ofSegments_of_unlimited _ _ rfl]
    rfl
  · intro hfinite
    apply bounds_ofSegments_eq_empty_iff
    intro segment hsegment
    exact (hfinite segment hsegment).1

/-- A deposit sets the box, whatever the limit keeps of it. -/
theorem bounds_ofSegments_of_deposit :
    (ofSegments { maxPoints := some 1 }
      [{ start := .origin, stop := ⟨1.0, 0.0, 0.0⟩, isDeposit := true }]).bounds ≠ Box.empty := by
  have hfinite : Point.isFinite .origin = true ∧ Point.isFinite ⟨1.0, 0.0, 0.0⟩ = true := by
    decide +kernel
  have hset := (bounds_ofSegments { maxPoints := some 1 }
    [{ start := .origin, stop := ⟨1.0, 0.0, 0.0⟩, isDeposit := true }] {}).2.2.2
      (by simpa using hfinite)
  rw [Ne, hset]
  intro htravel
  exact absurd (htravel _ _ (List.mem_cons_self ..)) (by decide)

end PointCloud

end Toolpath
