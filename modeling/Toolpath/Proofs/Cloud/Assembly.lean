import Toolpath.Cloud.Assembly
import Toolpath.Proofs.Motion.Run

/-! # What an assembler takes from a program

An assembler has room for some number of points, or for any number if it has no
limit. What it takes from the segments pushed into it is the front of their
points that fits its room, and it stops reading lines as soon as the room is
used up. The clouds of a list of segments and of a stream of lines are both
read off that.
-/

namespace Toolpath

/-- The front of a list that fits a room, which is all of it when there is no limit. -/
def fitting {α : Type} : Option Nat → List α → List α
  | none, as => as
  | some room, as => as.take room

section Fitting

variable {α : Type} (room : Option Nat)

@[simp] theorem fitting_nil : fitting room ([] : List α) = [] := by
  cases room <;> simp [fitting]

theorem fitting_eq_nil_iff (as : List α) : fitting room as = [] ↔ room = some 0 ∨ as = [] := by
  cases room with
  | none => simp [fitting]
  | some room => simp [fitting, List.take_eq_nil_iff]

/-- A point fits as long as there is room. -/
theorem fitting_cons (h : room ≠ some 0) (a : α) (as : List α) :
    fitting room (a :: as) = a :: fitting (room.map (· - 1)) as := by
  cases room with
  | none => rfl
  | some room =>
      obtain ⟨left, rfl⟩ := Nat.exists_eq_succ_of_ne_zero (n := room) (by simpa using h)
      rfl

/-- What fits of two lists is what fits of the first and then what fits of the second into the
room left. -/
theorem fitting_append (first second : List α) :
    fitting room (first ++ second) =
      fitting room first ++ fitting (room.map (· - first.length)) second := by
  cases room with
  | none => rfl
  | some room => exact List.take_append

end Fitting

namespace Assembler

variable (assembler : Assembler)

/-- How many more points an assembler may take, `none` if that is not limited. -/
def room : Option Nat :=
  assembler.options.maxPoints.map (· - assembler.cloud.size)

theorem isFull_iff : assembler.isFull = true ↔ assembler.room = some 0 := by
  unfold isFull room
  cases assembler.options.maxPoints with
  | none => simp
  | some limit => simp [Nat.sub_eq_zero_iff_le]

/-- Of the points of a segment, those are emitted that fit. -/
theorem fst_take_allowance (points : SegmentPoints) :
    (points.take (assembler.allowance points.length)).1 =
      fitting assembler.room points.toList := by
  rw [SegmentPoints.fst_take]
  unfold allowance room
  cases assembler.options.maxPoints with
  | none => simp [fitting, List.take_of_length_le]
  | some limit =>
      rw [← SegmentPoints.length_toList]
      change points.toList.take (min points.toList.length (limit - assembler.cloud.size)) =
        points.toList.take (limit - assembler.cloud.size)
      rw [Nat.min_comm]
      exact List.take_eq_take_min.symm

theorem insert_of_isFull (h : assembler.isFull = true) (segment : MotionSegment) :
    assembler.insert segment = assembler := by
  simp [insert, h]

@[simp] theorem options_insert (segment : MotionSegment) :
    (assembler.insert segment).options = assembler.options := by
  unfold insert
  split <;> rfl

/-- A segment adds those of its points that fit. -/
theorem points_insert (segment : MotionSegment) :
    (assembler.insert segment).cloud.points.toList =
      assembler.cloud.points.toList ++
        (fitting assembler.room (segment.points assembler.options.decode).toList).map
          assembler.options.normalize := by
  by_cases h : assembler.isFull = true
  · rw [assembler.insert_of_isFull h, assembler.isFull_iff.mp h]
    simp [fitting]
  · simp [insert, h, fst_take_allowance]

/-- Every point that a segment has takes up room, up to what there is. -/
theorem room_insert (segment : MotionSegment) :
    (assembler.insert segment).room =
      assembler.room.map (· - (segment.points assembler.options.decode).length) := by
  have hpoints := congrArg List.length (assembler.points_insert segment)
  rw [List.length_append, List.length_map, Array.length_toList, Array.length_toList] at hpoints
  unfold room PointCloud.size at hpoints ⊢
  rw [options_insert]
  cases hlimit : assembler.options.maxPoints with
  | none => rfl
  | some limit =>
      rw [hlimit] at hpoints
      simp only [Option.map_some, fitting, List.length_take, SegmentPoints.length_toList] at hpoints
      simp only [Option.map_some, Option.some.injEq]
      omega

theorem foldl_insert_of_isFull (h : assembler.isFull = true) (segments : List MotionSegment) :
    segments.foldl insert assembler = assembler := by
  induction segments with
  | nil => rfl
  | cons segment segments ih => rw [List.foldl_cons, assembler.insert_of_isFull h, ih]

/-- Stopping when there is no room left makes no difference to what is taken in. -/
theorem pushAll_eq_foldl (segments : List MotionSegment) :
    assembler.pushAll segments = segments.foldl insert assembler := by
  induction segments generalizing assembler with
  | nil => rfl
  | cons segment segments ih =>
      simp only [pushAll, push, flow, List.foldl_cons]
      by_cases h : (assembler.insert segment).isFull = true
      · rw [if_pos h, foldl_insert_of_isFull _ h]
      · rw [if_neg h]
        exact ih _

/-- The points that segments add are the front of their points that fits. -/
theorem points_pushAll (segments : List MotionSegment) :
    (assembler.pushAll segments).cloud.points.toList =
      assembler.cloud.points.toList ++
        (fitting assembler.room (segments.flatMap fun segment =>
          (segment.points assembler.options.decode).toList)).map assembler.options.normalize := by
  rw [pushAll_eq_foldl]
  induction segments generalizing assembler with
  | nil => simp
  | cons segment segments ih =>
      rw [List.foldl_cons, ih, points_insert, room_insert, options_insert, List.flatMap_cons,
        fitting_append, SegmentPoints.length_toList, List.map_append, List.append_assoc]

/-- Reading lines takes in the segments of the lines. -/
theorem fst_pushLines (decoder : MotionDecoder) (lines : List String) :
    (assembler.pushLines decoder lines).1 = assembler.pushAll (decoder.segments lines) := by
  induction lines generalizing assembler decoder with
  | nil => rfl
  | cons line lines ih =>
      rw [MotionDecoder.segments_cons]
      rcases hline : decoder.decode line with ⟨segment, after⟩
      cases segment with
      | none =>
          simp only [pushLines, hline, Option.toList_none, List.nil_append]
          exact ih assembler after
      | some segment =>
          simp only [pushLines, hline, push, flow, Option.toList_some, List.cons_append,
            List.nil_append, pushAll]
          by_cases h : (assembler.insert segment).isFull = true
          · simp only [if_pos h]
          · simp only [if_neg h]
            exact ih _ after

end Assembler

namespace MotionDecoder

variable (decoder : MotionDecoder) (options : DecodeOptions)

/-- How many lines of a program are read to collect as many points as there is room for. Without
room this is found out at the first motion line; otherwise the last line read is the one that the
last of the points comes from. All lines are read if there are no such lines. -/
def linesRead (lines : List String) : Option Nat → Nat
  | none => lines.length
  | some 0 => min ((decoder.run lines).findIdx Option.isSome + 1) lines.length
  | some (last + 1) =>
      ((decoder.numberedPoints options lines)[last]?.map Prod.fst).getD lines.length

/-- A line that is passed over is one line more to read. -/
theorem linesRead_cons_of_none {line : String} {lines : List String} {after : MotionDecoder}
    (hline : decoder.decode line = (none, after)) (room : Option Nat) :
    decoder.linesRead options (line :: lines) room = after.linesRead options lines room + 1 := by
  cases room with
  | none => rfl
  | some room =>
      cases room with
      | zero =>
          simp only [linesRead, run_cons, hline, List.findIdx_cons, List.length_cons,
            Option.isSome_none, cond_false]
          omega
      | succ last =>
          simp only [linesRead, numberedPoints_cons, hline, pointsOf_none, List.map_nil,
            List.nil_append, List.getElem?_map, List.length_cons]
          cases (after.numberedPoints options lines)[last]? <;> rfl

/-- A line whose points leave room, or are not limited, is one line more to read. -/
theorem linesRead_cons_of_room {line : String} {lines : List String} {segment : MotionSegment}
    {after : MotionDecoder} (hline : decoder.decode line = (some segment, after))
    {room : Option Nat}
    (hroom : room.map (· - (segment.points options).length) ≠ some 0) :
    decoder.linesRead options (line :: lines) room =
      after.linesRead options lines (room.map (· - (segment.points options).length)) + 1 := by
  cases room with
  | none => rfl
  | some room =>
      obtain ⟨last, hlast⟩ : ∃ last, room - (segment.points options).length = last + 1 :=
        Nat.exists_eq_succ_of_ne_zero (by simpa using hroom)
      obtain ⟨count, rfl⟩ : ∃ count, room = count + 1 := ⟨room - 1, by omega⟩
      have hbehind : (segment.points options).toList.length ≤ count := by
        rw [SegmentPoints.length_toList]
        omega
      have hindex : count - (segment.points options).toList.length = last := by
        rw [SegmentPoints.length_toList]
        omega
      simp only [Option.map_some, hlast, linesRead, numberedPoints_cons, hline, pointsOf_some,
        List.length_cons]
      rw [List.getElem?_append_right (by simpa using hbehind), List.length_map, hindex,
        List.getElem?_map]
      cases (after.numberedPoints options lines)[last]? <;> rfl

/-- Nothing is read behind a line whose points use up the room. -/
theorem linesRead_cons_of_full {line : String} {lines : List String} {segment : MotionSegment}
    {after : MotionDecoder} (hline : decoder.decode line = (some segment, after))
    {room : Option Nat} (hroom : room.map (· - (segment.points options).length) = some 0) :
    decoder.linesRead options (line :: lines) room = 1 := by
  cases room with
  | none => simp at hroom
  | some room =>
      cases room with
      | zero =>
          simp [linesRead, hline, List.findIdx_cons]
      | succ last =>
          have hwithin : last < (segment.points options).toList.length := by
            rw [SegmentPoints.length_toList]
            simp only [Option.map_some, Option.some.injEq] at hroom
            omega
          simp only [linesRead, numberedPoints_cons, hline, pointsOf_some]
          rw [List.getElem?_append_left (by simpa using hwithin), List.getElem?_map,
            List.getElem?_eq_getElem hwithin]
          rfl

end MotionDecoder

namespace Assembler

/-- Reading lines leaves the lines behind the last one read, and the decoder that the lines up to
it have left. -/
theorem snd_pushLines (assembler : Assembler) (decoder : MotionDecoder) (lines : List String) :
    (assembler.pushLines decoder lines).2 =
      let used := decoder.linesRead assembler.options.decode lines assembler.room
      ⟨lines.drop used, decoder.decodeAll (lines.take used)⟩ := by
  induction lines generalizing assembler decoder with
  | nil => simp [pushLines]
  | cons line lines ih =>
      rcases hline : decoder.decode line with ⟨segment, after⟩
      cases segment with
      | none =>
          rw [MotionDecoder.linesRead_cons_of_none _ _ hline]
          simp only [pushLines, hline, ih, List.drop_succ_cons, List.take_succ_cons,
            MotionDecoder.decodeAll_cons]
      | some segment =>
          simp only [pushLines, hline, push, flow]
          have hroom := assembler.room_insert segment
          by_cases hfull : (assembler.insert segment).isFull = true
          · rw [isFull_iff, hroom] at hfull
            rw [MotionDecoder.linesRead_cons_of_full _ _ hline hfull]
            rw [← hroom, ← isFull_iff] at hfull
            simp [hfull, hline]
          · rw [isFull_iff, hroom] at hfull
            rw [MotionDecoder.linesRead_cons_of_room _ _ hline hfull]
            rw [← hroom, ← isFull_iff] at hfull
            simp only [if_neg hfull, ih, options_insert, hroom, List.drop_succ_cons,
              List.take_succ_cons, MotionDecoder.decodeAll_cons, hline]

end Assembler

namespace PointCloud

/-- Assembling a program from its first line on collects the front of its points that the limit
admits, normalized and in order, and reads no line behind the one that the last of them comes
from. -/
theorem ofStream_eq_front (options : AssemblyOptions) (lines : List String) :
    let decoder : MotionDecoder := {}
    let points := (PointStream.ofLines lines options.decode).rest.1
    let used := decoder.linesRead options.decode lines options.maxPoints
    (decoder.numberedPoints options.decode lines).map Prod.snd = points ∧
      (ofStream options { lines }).1.points.toList =
        (fitting options.maxPoints points).map options.normalize ∧
      (ofStream options { lines }).2 =
        ⟨lines.drop used, decoder.decodeAll (lines.take used)⟩ := by
  intro decoder points used
  have hpoints : points =
      (decoder.segments lines).flatMap fun segment => (segment.points options.decode).toList := by
    rw [← PointStream.output_ofLines, ← PointStream.fst_rest]
  -- An assembler that has taken nothing has as much room as the limit says.
  have hroom : Assembler.room { options } = options.maxPoints := by
    change options.maxPoints.map (· - 0) = options.maxPoints
    simp
  refine ⟨?_, ?_, ?_⟩
  · rw [hpoints]
    exact decoder.map_snd_numberedPoints options.decode lines
  · have htaken := Assembler.points_pushAll { options } (decoder.segments lines)
    rw [hroom, ← hpoints] at htaken
    change ((Assembler.pushLines { options } decoder lines).1).cloud.points.toList = _
    rw [Assembler.fst_pushLines]
    exact htaken
  · have hrest := Assembler.snd_pushLines { options } decoder lines
    rw [hroom] at hrest
    exact hrest

end PointCloud

end Toolpath
