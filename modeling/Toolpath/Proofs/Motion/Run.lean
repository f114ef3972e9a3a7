import Toolpath.Motion.Stream

/-! # Runs of the decoder

A run lists what a decoder makes of every line of a program, the lines that are
passed over included. The lazy streams deliver what the run lists, in order,
and leave behind the decoder of the whole program.
-/

namespace Toolpath

namespace MotionDecoder

variable (decoder : MotionDecoder) (options : DecodeOptions)

/-- What a decoder makes of every line of a program, `none` for a line that is passed over. -/
def run (decoder : MotionDecoder) : List String → List (Option MotionSegment)
  | [] => []
  | line :: lines => (decoder.decode line).1 :: run (decoder.decode line).2 lines

/-- The segments of a program in order. -/
def segments (lines : List String) : List MotionSegment :=
  (decoder.run lines).filterMap id

@[simp] theorem run_nil : decoder.run [] = [] := rfl

@[simp] theorem run_cons (line : String) (lines : List String) :
    decoder.run (line :: lines) = (decoder.decode line).1 :: (decoder.decode line).2.run lines :=
  rfl

@[simp] theorem decodeAll_nil : decoder.decodeAll [] = decoder := rfl

@[simp] theorem decodeAll_cons (line : String) (lines : List String) :
    decoder.decodeAll (line :: lines) = (decoder.decode line).2.decodeAll lines :=
  rfl

@[simp] theorem length_run (lines : List String) : (decoder.run lines).length = lines.length := by
  induction lines generalizing decoder with
  | nil => rfl
  | cons line lines ih => simp only [run_cons, List.length_cons, ih]

@[simp] theorem segments_nil : decoder.segments [] = [] := rfl

theorem segments_cons (line : String) (lines : List String) :
    decoder.segments (line :: lines) =
      (decoder.decode line).1.toList ++ (decoder.decode line).2.segments lines := by
  unfold segments
  rw [run_cons]
  cases (decoder.decode line).1 <;> rfl

end MotionDecoder

namespace SegmentStream

variable (decoder : MotionDecoder)

/-- Asking for more segments than there are gives all of them and reads every line. -/
theorem take_of_length_lt {n : Nat} {lines : List String}
    (h : (decoder.segments lines).length < n) :
    take n ⟨lines, decoder⟩ = (decoder.segments lines, ⟨[], decoder.decodeAll lines⟩) := by
  induction lines generalizing decoder n with
  | nil =>
      cases n with
      | zero => simp at h
      | succ n => rfl
  | cons line lines ih =>
      rw [MotionDecoder.segments_cons] at h ⊢
      rw [MotionDecoder.decodeAll_cons]
      cases n with
      | zero => simp at h
      | succ n =>
          rcases hline : decoder.decode line with ⟨segment, after⟩
          rw [hline] at h
          cases segment with
          | none =>
              -- A line that is passed over leaves the number of segments asked for as it is.
              have hskip : take (n + 1) ⟨line :: lines, decoder⟩ = take (n + 1) ⟨lines, after⟩ := by
                simp only [take, next, nextFrom, hline]
              rw [hskip]
              exact ih after h
          | some segment =>
              simp only [Option.toList_some, List.cons_append, List.nil_append,
                List.length_cons, Nat.add_lt_add_iff_right] at h
              simp only [take, next, nextFrom, hline, ih after h, Option.toList_some,
                List.cons_append, List.nil_append]

/-- A stream read to its end has delivered the segments of its program. -/
theorem rest_eq (lines : List String) :
    rest ⟨lines, decoder⟩ = (decoder.segments lines, ⟨[], decoder.decodeAll lines⟩) := by
  apply take_of_length_lt
  have h := List.length_filterMap_le id (decoder.run lines)
  rw [decoder.length_run] at h
  exact Nat.lt_succ_of_le h

end SegmentStream

namespace SegmentPoints

@[simp] theorem length_toList (points : SegmentPoints) : points.toList.length = points.length := by
  cases points with
  | single point => cases point <;> rfl
  | samples start stop steps next => simp [toList, take, length]

theorem toList_of_next?_eq_none {points : SegmentPoints} (h : points.next? = none) :
    points.toList = [] := by
  rw [← List.length_eq_zero_iff, length_toList]
  exact points.next?_eq_none_iff.mp h

theorem toList_of_next?_eq_some {points rest : SegmentPoints} {p : Point}
    (h : points.next? = some (p, rest)) : points.toList = p :: rest.toList := by
  rw [toList, length_of_next? h, take_succ, h]
  rfl

/-- Taking some points takes them from the front of all points. -/
theorem fst_take (n : Nat) (points : SegmentPoints) :
    (points.take n).1 = points.toList.take n := by
  induction n generalizing points with
  | zero => rw [take_zero, List.take_zero]
  | succ n ih =>
      rw [take_succ]
      cases h : points.next? with
      | none => rw [toList_of_next?_eq_none h, List.take_nil]
      | some found =>
          obtain ⟨p, rest⟩ := found
          rw [toList_of_next?_eq_some h, List.take_succ_cons, ← ih]

end SegmentPoints

namespace MotionDecoder

variable (decoder : MotionDecoder) (options : DecodeOptions)

/-- The points of what a line has been decoded to. -/
def pointsOf (options : DecodeOptions) (decoded : Option MotionSegment) : List Point :=
  decoded.toList.flatMap fun segment => (segment.points options).toList

@[simp] theorem pointsOf_none : pointsOf options none = [] := rfl

@[simp] theorem pointsOf_some (segment : MotionSegment) :
    pointsOf options (some segment) = (segment.points options).toList := by
  simp [pointsOf]

/-- The points of a program, each with the number of the line that it comes from. Lines are
counted from one, whether or not they move the tool. -/
def numberedPoints (lines : List String) : List (Nat × Point) :=
  ((decoder.run lines).zipIdx 1).flatMap fun (decoded, number) =>
    (pointsOf options decoded).map fun p => (number, p)

theorem numberedPoints_cons (line : String) (lines : List String) :
    decoder.numberedPoints options (line :: lines) =
      (pointsOf options (decoder.decode line).1).map (fun p => (1, p)) ++
        ((decoder.decode line).2.numberedPoints options lines).map
          fun (number, p) => (number + 1, p) := by
  unfold numberedPoints
  rw [run_cons, List.zipIdx_cons, List.flatMap_cons, List.zipIdx_succ, List.flatMap_map,
    List.map_flatMap]
  simp only [List.map_map, Function.comp_def]

/-- Without the numbers these are the points of the segments. -/
theorem map_snd_numberedPoints (lines : List String) :
    (decoder.numberedPoints options lines).map Prod.snd =
      (decoder.segments lines).flatMap fun segment => (segment.points options).toList := by
  induction lines generalizing decoder with
  | nil => rfl
  | cons line lines ih =>
      rw [numberedPoints_cons, segments_cons, List.map_append, List.flatMap_append, ← ih]
      simp [pointsOf, Function.comp_def]

end MotionDecoder

namespace PointStream

/-- All points that a stream has still to give: the ones left of the segment begun, and the ones
of the segments that its lines hold. -/
def output (stream : PointStream) : List Point :=
  stream.current.toList ++
    (stream.segments.decoder.segments stream.segments.lines).flatMap fun segment =>
      (segment.points stream.options).toList

/-- Asking for a point gives the first one that is left and leaves the others. -/
theorem nextFrom_eq (options : DecodeOptions) (current : SegmentPoints) (decoder : MotionDecoder)
    (lines : List String) :
    (nextFrom options current decoder lines).1 =
        (output ⟨⟨lines, decoder⟩, options, current⟩).head? ∧
      (nextFrom options current decoder lines).2.output =
        (output ⟨⟨lines, decoder⟩, options, current⟩).tail := by
  induction lines generalizing current decoder with
  | nil =>
      cases h : current.next? with
      | none =>
          have hempty := SegmentPoints.toList_of_next?_eq_none h
          simp [nextFrom, h, output, hempty]
      | some found =>
          have hpoints := SegmentPoints.toList_of_next?_eq_some h
          simp [nextFrom, h, output, hpoints]
  | cons line lines ih =>
      cases h : current.next? with
      | none =>
          have hempty := SegmentPoints.toList_of_next?_eq_none h
          rcases hline : decoder.decode line with ⟨segment, after⟩
          cases segment with
          | none =>
              -- Nothing is left of the segment begun, and the line does not begin another one.
              have hskip : output ⟨⟨line :: lines, decoder⟩, options, current⟩ =
                  output ⟨⟨lines, after⟩, options, current⟩ := by
                simp [output, MotionDecoder.segments_cons, hline]
              simpa only [nextFrom, h, hline, hskip] using ih current after
          | some segment =>
              have hbegin : output ⟨⟨line :: lines, decoder⟩, options, current⟩ =
                  output ⟨⟨lines, after⟩, options, segment.points options⟩ := by
                simp [output, hempty, MotionDecoder.segments_cons, hline]
              simpa only [nextFrom, h, hline, hbegin] using ih (segment.points options) after
      | some found =>
          have hpoints := SegmentPoints.toList_of_next?_eq_some h
          simp [nextFrom, h, output, hpoints]

theorem fst_next (stream : PointStream) : stream.next.1 = stream.output.head? :=
  (nextFrom_eq _ _ _ _).1

theorem output_next (stream : PointStream) : stream.next.2.output = stream.output.tail :=
  (nextFrom_eq _ _ _ _).2

/-- The first points that a stream gives are the first ones that it has. -/
theorem fst_take (n : Nat) (stream : PointStream) : (stream.take n).1 = stream.output.take n := by
  induction n generalizing stream with
  | zero => rfl
  | succ n ih =>
      have hfirst := stream.fst_next
      have hrest := stream.output_next
      rcases hnext : stream.next with ⟨point, after⟩
      rw [hnext] at hfirst hrest
      cases hout : stream.output with
      | nil =>
          rw [hout] at hfirst
          subst hfirst
          simp [take, hnext]
      | cons p ps =>
          rw [hout] at hfirst hrest
          subst hfirst
          simp [take, hnext, ih, hrest]

theorem foldl_add_length (options : DecodeOptions) (segments : List MotionSegment) (count : Nat) :
    segments.foldl (fun count segment => count + (segment.points options).length) count =
      count + (segments.flatMap fun segment => (segment.points options).toList).length := by
  induction segments generalizing count with
  | nil => rfl
  | cons segment segments ih =>
      rw [List.foldl_cons, ih, List.flatMap_cons, List.length_append,
        SegmentPoints.length_toList, Nat.add_assoc]

theorem length_eq (stream : PointStream) : stream.length = stream.output.length := by
  rw [length, output, List.length_append, SegmentPoints.length_toList, SegmentStream.rest_eq]
  exact foldl_add_length _ _ _

/-- A stream read to its end has given all its points. -/
theorem fst_rest (stream : PointStream) : stream.rest.1 = stream.output := by
  rw [rest, fst_take, length_eq]
  exact List.take_of_length_le (Nat.le_succ _)

/-- The points of a program are those of its segments, in order. -/
theorem output_ofLines (lines : List String) (options : DecodeOptions) :
    (ofLines lines options).output =
      (({} : MotionDecoder).segments lines).flatMap fun segment =>
        (segment.points options).toList :=
  rfl

end PointStream

end Toolpath
