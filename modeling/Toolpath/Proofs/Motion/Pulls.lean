import Mathlib.Algebra.GroupWithZero.Nat
import Mathlib.Data.List.Forall2
import Toolpath.Proofs.Cloud.Assembly

/-! # Pulling points from a stream

A stream of points can be read in several pulls. Each goes on where the one
before it stopped, in the middle of a segment too, and a pull reads lines up to
the one that its last point comes from and no further. Only a pull that comes
back short has looked at all of them.
-/

namespace Toolpath

namespace SegmentPoints

/-- A segment all of whose points have been taken has none left. -/
theorem next?_snd_take_length (points : SegmentPoints) :
    (points.take points.length).2.next? = none := by
  rw [next?_eq_none_iff]
  cases points with
  | single point => cases point <;> rfl
  | samples start stop steps next =>
      simp only [take, length]
      omega

end SegmentPoints

namespace MotionDecoder

variable (decoder : MotionDecoder) (options : DecodeOptions)

/-- The points of some segments, each with the segment that it belongs to. -/
def ownedPoints (options : DecodeOptions) (segments : List MotionSegment) :
    List (MotionSegment × Point) :=
  segments.flatMap fun segment => (segment.points options).toList.map fun p => (segment, p)

@[simp] theorem lines_decode (line : String) :
    (decoder.decode line).2.lines = decoder.lines + 1 := by
  unfold decode accept
  cases Line.read line.toList <;> rfl

@[simp] theorem lines_decodeAll (lines : List String) :
    (decoder.decodeAll lines).lines = decoder.lines + lines.length := by
  induction lines generalizing decoder with
  | nil => rfl
  | cons line lines ih =>
      rw [decodeAll_cons, ih, lines_decode, List.length_cons]
      omega

/-- A segment carries the number of the line that is decoded to it. -/
theorem line_of_decode {line : String} {segment : MotionSegment} {after : MotionDecoder}
    (h : decoder.decode line = (some segment, after)) : segment.line = decoder.lines + 1 := by
  unfold decode accept at h
  cases hread : Line.read line.toList with
  | motion command malformed =>
      rw [hread] at h
      obtain rfl := Option.some.inj (congrArg Prod.fst h)
      rfl
  | other =>
      rw [hread] at h
      cases h

/-- The line of a segment is one of the lines decoded. -/
theorem line_le_of_mem_segments {lines : List String} {segment : MotionSegment}
    (h : segment ∈ decoder.segments lines) : segment.line ≤ decoder.lines + lines.length := by
  induction lines generalizing decoder with
  | nil => cases h
  | cons line lines ih =>
      rw [segments_cons, List.mem_append, Option.mem_toList] at h
      rw [List.length_cons]
      rcases h with hfirst | hrest
      · have hline := decoder.line_of_decode (Prod.ext hfirst rfl)
        omega
      · have hle := ih _ hrest
        rw [lines_decode] at hle
        omega

/-- The line that a point comes from is the line of the segment that owns it. -/
theorem map_line_ownedPoints (lines : List String) :
    (ownedPoints options (decoder.segments lines)).map (fun (segment, p) => (segment.line, p)) =
      (decoder.numberedPoints options lines).map fun (number, p) =>
        (decoder.lines + number, p) := by
  induction lines generalizing decoder with
  | nil => rfl
  | cons line lines ih =>
      rw [numberedPoints_cons, segments_cons]
      rcases hline : decoder.decode line with ⟨segment, after⟩
      have hafter : after.lines = decoder.lines + 1 := by
        rw [← lines_decode decoder line, hline]
      have hrest := ih after
      simp only [hafter] at hrest
      cases segment with
      | none =>
          simp only [Option.toList_none, List.nil_append, pointsOf_none, List.map_nil, hrest,
            List.map_map]
          refine List.map_congr_left fun (number, p) _ => ?_
          simp only [Function.comp_apply, Prod.mk.injEq, and_true]
          omega
      | some segment =>
          have hnumber := decoder.line_of_decode hline
          simp only [ownedPoints, Option.toList_some, List.cons_append, List.nil_append,
            List.flatMap_cons, List.map_append, pointsOf_some, List.map_map] at hrest ⊢
          rw [hrest]
          congr 1
          · refine List.map_congr_left fun p _ => ?_
            simp only [Function.comp_apply, hnumber]
          · refine List.map_congr_left fun (number, p) _ => ?_
            simp only [Function.comp_apply, Prod.mk.injEq, and_true]
            omega

@[simp] theorem map_snd_ownedPoints (segments : List MotionSegment) :
    (ownedPoints options segments).map Prod.snd =
      segments.flatMap fun segment => (segment.points options).toList := by
  simp [ownedPoints, List.map_flatMap, Function.comp_def]

theorem mem_of_mem_ownedPoints {options : DecodeOptions} {segments : List MotionSegment}
    {owner : MotionSegment} {p : Point} (h : (owner, p) ∈ ownedPoints options segments) :
    owner ∈ segments := by
  obtain ⟨segment, hsegment, hpoint⟩ := List.mem_flatMap.mp h
  obtain ⟨_, _, heq⟩ := List.mem_map.mp hpoint
  obtain rfl : segment = owner := congrArg Prod.fst heq
  exact hsegment

/-- The lines read for some points end with the line of the segment that owns the last of them. -/
theorem linesRead_of_owner (lines : List String) {n : Nat} {owner : MotionSegment} {p : Point}
    (h : (ownedPoints options (decoder.segments lines))[n]? = some (owner, p)) :
    decoder.lines + decoder.linesRead options lines (some (n + 1)) = owner.line := by
  have hnumbered := congrArg (·[n]?) (decoder.map_line_ownedPoints options lines)
  simp only [List.getElem?_map, h, Option.map_some] at hnumbered
  simp only [linesRead]
  cases hpoint : (decoder.numberedPoints options lines)[n]? with
  | none =>
      rw [hpoint] at hnumbered
      cases hnumbered
  | some found =>
      rw [hpoint] at hnumbered
      simp only [Option.map_some, Option.some.injEq, Prod.mk.injEq] at hnumbered
      exact hnumbered.1.symm

/-- For more points than there are all lines are read. -/
theorem linesRead_of_length_le {lines : List String} {n : Nat}
    (h : ((decoder.segments lines).flatMap fun segment =>
      (segment.points options).toList).length ≤ n) :
    decoder.linesRead options lines (some (n + 1)) = lines.length := by
  rw [← map_snd_numberedPoints, List.length_map] at h
  simp only [linesRead, List.getElem?_eq_none h, Option.map_none, Option.getD_none]

end MotionDecoder

namespace PointStream

/-- Points that are left of the segment begun are given without reading a line. -/
theorem next_of_point (stream : PointStream) {p : Point} {rest : SegmentPoints}
    (h : stream.current.next? = some (p, rest)) :
    stream.next = (some p, { stream with current := rest }) := by
  obtain ⟨⟨lines, decoder⟩, options, current⟩ := stream
  change current.next? = some (p, rest) at h
  cases lines <;> simp only [next, nextFrom, h]

/-- With nothing left of the segment begun, the next line is read. -/
theorem next_of_line {decoder after : MotionDecoder} {options : DecodeOptions}
    {current : SegmentPoints} {line : String} {lines : List String}
    {decoded : Option MotionSegment} (h : current.next? = none)
    (hline : decoder.decode line = (decoded, after)) :
    next ⟨⟨line :: lines, decoder⟩, options, current⟩ =
      next ⟨⟨lines, after⟩, options,
        (decoded.map fun segment => segment.points options).getD current⟩ := by
  cases decoded <;> simp only [next, nextFrom, h, hline, Option.map_none, Option.map_some,
    Option.getD_none, Option.getD_some]

/-- With nothing left of the segment begun and no line to read, the stream has ended. -/
theorem next_of_end {decoder : MotionDecoder} {options : DecodeOptions} {current : SegmentPoints}
    (h : current.next? = none) :
    next ⟨⟨[], decoder⟩, options, current⟩ = (none, ⟨⟨[], decoder⟩, options, current⟩) := by
  simp only [next, nextFrom, h]

/-- A stream that has no next point stays as it is when it is asked again. -/
theorem next_of_next_eq_none {stream after : PointStream} (h : stream.next = (none, after)) :
    after.next = (none, after) := by
  obtain ⟨⟨lines, decoder⟩, options, current⟩ := stream
  induction lines generalizing decoder current with
  | nil =>
      cases hcurrent : current.next? with
      | none =>
          rw [next_of_end hcurrent] at h
          obtain rfl := congrArg Prod.snd h
          exact next_of_end hcurrent
      | some found =>
          rw [next_of_point ⟨_, _, current⟩ hcurrent] at h
          cases h
  | cons line lines ih =>
      cases hcurrent : current.next? with
      | none =>
          rw [next_of_line hcurrent rfl] at h
          exact ih _ _ h
      | some found =>
          rw [next_of_point ⟨_, _, current⟩ hcurrent] at h
          cases h

theorem take_of_next_eq_none {stream : PointStream} (n : Nat) (h : stream.next = (none, stream)) :
    stream.take n = ([], stream) := by
  cases n with
  | zero => rfl
  | succ n => simp only [take, h]

/-- A stream goes on where it was left: points taken in two pulls are the points taken in one. -/
theorem take_add (m n : Nat) (stream : PointStream) :
    stream.take (m + n) =
      ((stream.take m).1 ++ ((stream.take m).2.take n).1, ((stream.take m).2.take n).2) := by
  induction m generalizing stream with
  | zero => simp only [Nat.zero_add, take, List.nil_append]
  | succ m ih =>
      rw [Nat.succ_add]
      rcases hnext : stream.next with ⟨point, after⟩
      cases point with
      | none =>
          have hended := take_of_next_eq_none n (next_of_next_eq_none hnext)
          simp only [take, hnext, hended, List.nil_append]
      | some p => simp only [take, hnext, ih after, List.cons_append]

/-- The points of the segment begun come first, and no line is read for them. -/
theorem take_of_le {n : Nat} {segments : SegmentStream} {options : DecodeOptions}
    {current : SegmentPoints} (h : n ≤ current.length) :
    (take n ⟨segments, options, current⟩).2 = ⟨segments, options, (current.take n).2⟩ := by
  induction n generalizing current with
  | zero => rw [SegmentPoints.take_zero, take]
  | succ n ih =>
      cases hcurrent : current.next? with
      | none =>
          rw [current.next?_eq_none_iff] at hcurrent
          omega
      | some found =>
          obtain ⟨p, rest⟩ := found
          have hlength := SegmentPoints.length_of_next? hcurrent
          simp only [take, next_of_point ⟨_, _, current⟩ hcurrent,
            SegmentPoints.take_succ, hcurrent]
          exact ih (by omega)

/-- Behind the points of the segment begun the stream goes on with its lines. -/
theorem snd_take_length_add (n : Nat) (segments : SegmentStream) (options : DecodeOptions)
    (current : SegmentPoints) :
    (take (current.length + n) ⟨segments, options, current⟩).2 =
      (take n ⟨segments, options, (current.take current.length).2⟩).2 := by
  rw [take_add, take_of_le (Nat.le_refl _)]

/-- Taking points reads no line as long as there are enough of the segment begun. Otherwise it
reads the lines up to the one that the last point comes from. -/
theorem segments_take (n : Nat) (lines : List String) (decoder : MotionDecoder)
    (options : DecodeOptions) (current : SegmentPoints) :
    (take n ⟨⟨lines, decoder⟩, options, current⟩).2.segments =
      if n ≤ current.length then ⟨lines, decoder⟩
      else
        let used := decoder.linesRead options lines (some (n - current.length))
        ⟨lines.drop used, decoder.decodeAll (lines.take used)⟩ := by
  induction lines generalizing decoder current n with
  | nil =>
      by_cases hn : n ≤ current.length
      · rw [if_pos hn, take_of_le hn]
      · obtain ⟨m, rfl⟩ := Nat.exists_eq_add_of_le (Nat.le_of_not_le hn)
        rw [if_neg hn, snd_take_length_add,
          take_of_next_eq_none m (next_of_end current.next?_snd_take_length)]
        simp
  | cons line lines ih =>
      by_cases hn : n ≤ current.length
      · rw [if_pos hn, take_of_le hn]
      · obtain ⟨m, rfl⟩ : ∃ m, n = current.length + (m + 1) := ⟨n - current.length - 1, by omega⟩
        have hleft : current.length + (m + 1) - current.length = m + 1 := by omega
        have hempty := current.next?_snd_take_length
        have hlength := (SegmentPoints.next?_eq_none_iff _).mp hempty
        rw [if_neg hn, snd_take_length_add, hleft]
        generalize (current.take current.length).2 = emptied at hempty hlength
        rcases hline : decoder.decode line with ⟨segment, after⟩
        -- The next line is read, and asking goes on behind it.
        have hread : take (m + 1) ⟨⟨line :: lines, decoder⟩, options, emptied⟩ =
            take (m + 1) ⟨⟨lines, after⟩, options,
              (segment.map fun segment => segment.points options).getD emptied⟩ := by
          simp only [take, next_of_line hempty hline]
        rw [hread, ih]
        cases segment with
        | none =>
            rw [Option.map_none, Option.getD_none, hlength, if_neg (by omega), Nat.sub_zero,
              MotionDecoder.linesRead_cons_of_none _ _ hline]
            simp only [List.drop_succ_cons, List.take_succ_cons, MotionDecoder.decodeAll_cons,
              hline]
        | some segment =>
            rw [Option.map_some, Option.getD_some]
            by_cases hm : m + 1 ≤ (segment.points options).length
            · have hfull : (some (m + 1)).map (· - (segment.points options).length) = some 0 := by
                simp only [Option.map_some, Option.some.injEq]
                omega
              rw [if_pos hm, MotionDecoder.linesRead_cons_of_full _ _ hline hfull]
              simp [hline]
            · have hroom : (some (m + 1)).map (· - (segment.points options).length) ≠ some 0 := by
                simp only [Option.map_some, ne_eq, Option.some.injEq]
                omega
              rw [if_neg hm, MotionDecoder.linesRead_cons_of_room _ _ hline hroom]
              simp only [Option.map_some, List.drop_succ_cons, List.take_succ_cons,
                MotionDecoder.decodeAll_cons, hline]

/-- Successive pulls from one stream, each with the number of points that it asks for. -/
def pulls : List Nat → PointStream → List (List Point) × PointStream
  | [], stream => ([], stream)
  | size :: sizes, stream =>
      let (points, after) := stream.take size
      let (pulled, final) := pulls sizes after
      (points :: pulled, final)

/-- Whether some pull gave fewer points than it asked for. -/
def CameShort (sizes : List Nat) (pulled : List (List Point)) : Prop :=
  ∃ pull ∈ sizes.zip pulled, pull.2.length < pull.1

/-- Several pulls give what one pull gives that asks for as much as all of them. -/
theorem pulls_eq_take (sizes : List Nat) (stream : PointStream) :
    (stream.pulls sizes).1.flatten = (stream.take sizes.sum).1 ∧
      (stream.pulls sizes).2 = (stream.take sizes.sum).2 := by
  induction sizes generalizing stream with
  | nil => exact ⟨rfl, rfl⟩
  | cons size sizes ih =>
      obtain ⟨hpoints, hfinal⟩ := ih (stream.take size).2
      rw [List.sum_cons, take_add]
      exact ⟨congrArg ((stream.take size).1 ++ ·) hpoints, hfinal⟩

/-- No pull gives more points than it asks for. -/
theorem length_pulls_le (sizes : List Nat) (stream : PointStream) :
    List.Forall₂ (fun size points => points.length ≤ size) sizes (stream.pulls sizes).1 := by
  induction sizes generalizing stream with
  | nil => exact .nil
  | cons size sizes ih =>
      refine .cons ?_ (ih _)
      rw [fst_take]
      exact List.length_take_le _ _

/-- Some pull comes back short exactly if there are fewer points in all than were asked for. -/
theorem cameShort_iff {sizes : List Nat} {pulled : List (List Point)}
    (h : List.Forall₂ (fun size points => points.length ≤ size) sizes pulled) :
    CameShort sizes pulled ↔ pulled.flatten.length < sizes.sum := by
  -- The sum of the lengths is at most the sum of the sizes, and less if one length is less.
  have hle : pulled.flatten.length ≤ sizes.sum ∧
      (CameShort sizes pulled ↔ pulled.flatten.length < sizes.sum) := by
    induction h with
    | nil => simp [CameShort]
    | cons hlength _ ih =>
        obtain ⟨hle, hshort⟩ := ih
        unfold CameShort at hshort ⊢
        simp only [List.zip_cons_cons, List.mem_cons, exists_eq_or_imp, hshort,
          List.flatten_cons, List.length_append, List.sum_cons]
        omega
  exact hle.2

/-- What is left of the lines of a program behind some pulls. -/
theorem segments_pulls (lines : List String) (options : DecodeOptions) (sizes : List Nat) :
    ((ofLines lines options).pulls sizes).2.segments =
      if sizes.sum = 0 then ⟨lines, {}⟩
      else
        ⟨lines.drop (MotionDecoder.linesRead {} options lines (some sizes.sum)),
          MotionDecoder.decodeAll {}
            (lines.take (MotionDecoder.linesRead {} options lines (some sizes.sum)))⟩ := by
  have htake := segments_take sizes.sum lines {} options .empty
  rw [show SegmentPoints.empty.length = 0 from rfl, Nat.sub_zero] at htake
  simp only [Nat.le_zero] at htake
  rw [← htake]
  exact congrArg PointStream.segments (pulls_eq_take sizes (ofLines lines options)).2

/-- The lines of a program read for some points are as many as the line number of the segment that
owns the last of them. -/
theorem linesRead_eq_line (lines : List String) (options : DecodeOptions) {n : Nat}
    {owner : MotionSegment} {p : Point}
    (h : (MotionDecoder.ownedPoints options (MotionDecoder.segments {} lines))[n]? =
      some (owner, p)) :
    MotionDecoder.linesRead {} options lines (some (n + 1)) = owner.line ∧
      owner.line ≤ lines.length := by
  have hread := MotionDecoder.linesRead_of_owner {} options lines h
  have hmem := MotionDecoder.mem_of_mem_ownedPoints (List.mem_of_getElem? h)
  have hcount := MotionDecoder.line_le_of_mem_segments {} hmem
  rw [show ({} : MotionDecoder).lines = 0 from rfl, Nat.zero_add] at hread hcount
  exact ⟨hread, hcount⟩

/-- The decoder behind the first lines of a program has counted them. -/
theorem lines_decodeAll_take {lines : List String} {n : Nat} (h : n ≤ lines.length) :
    (MotionDecoder.decodeAll {} (lines.take n)).lines = n := by
  rw [MotionDecoder.lines_decodeAll, List.length_take, Nat.min_eq_left h]
  exact Nat.zero_add n

/-- Pulling points from a program in any number of steps gives its points in order, those of its
segments one after the other, and stays lazy throughout. As long as every pull is met in full, the
lines read are those up to the line of the segment that owns the last point given, or none at all
if no point was asked for; a pull that comes back short has read the program to its end. -/
theorem pulls_ofLines (lines : List String) (options : DecodeOptions) (sizes : List Nat) :
    let stream := ofLines lines options
    let decoder : MotionDecoder := {}
    let segments := (SegmentStream.rest { lines }).1
    let owned := MotionDecoder.ownedPoints options segments
    let pulled := (stream.pulls sizes).1
    let after := (stream.pulls sizes).2
    stream.rest.1 = segments.flatMap (fun segment => (segment.points options).toList) ∧
      owned.map Prod.snd = stream.rest.1 ∧
      List.Forall₂ (fun size points => points.length ≤ size) sizes pulled ∧
      pulled.flatten = stream.rest.1.take sizes.sum ∧
      (CameShort sizes pulled → after.segments = ⟨[], decoder.decodeAll lines⟩) ∧
      (¬CameShort sizes pulled → ∀ n, pulled.flatten.length = n →
        (n = 0 → after.segments = ⟨lines, decoder⟩) ∧
        (0 < n → ∃ owner p, owned[n - 1]? = some (owner, p) ∧
          after.decoder.lines = owner.line ∧
          after.segments =
            ⟨lines.drop owner.line, decoder.decodeAll (lines.take owner.line)⟩)) := by
  intro stream decoder segments owned pulled after
  have hsegments : segments = decoder.segments lines :=
    congrArg Prod.fst (SegmentStream.rest_eq {} lines)
  have hrest : stream.rest.1 =
      (decoder.segments lines).flatMap fun segment => (segment.points options).toList := by
    rw [fst_rest, output_ofLines]
  have howned : owned.map Prod.snd = stream.rest.1 := by
    rw [hrest, ← hsegments, MotionDecoder.map_snd_ownedPoints]
  have hle : List.Forall₂ (fun size points => points.length ≤ size) sizes pulled :=
    length_pulls_le sizes stream
  have hpulled : pulled.flatten = stream.rest.1.take sizes.sum := by
    rw [fst_rest, ← fst_take]
    exact (pulls_eq_take sizes stream).1
  have hlength := congrArg List.length hpulled
  rw [List.length_take] at hlength
  have hafter := segments_pulls lines options sizes
  refine ⟨hsegments ▸ hrest, howned, hle, hpulled, ?_, ?_⟩
  · intro hshort
    rw [cameShort_iff hle] at hshort
    obtain ⟨n, hn⟩ : ∃ n, sizes.sum = n + 1 := Nat.exists_eq_add_of_le' (by omega)
    rw [hn] at hshort hlength hafter
    have hall : MotionDecoder.linesRead {} options lines (some (n + 1)) = lines.length := by
      refine MotionDecoder.linesRead_of_length_le {} options ?_
      change ((decoder.segments lines).flatMap _).length ≤ n
      rw [← hrest]
      omega
    rw [if_neg (by omega), hall, List.drop_length, List.take_length] at hafter
    exact hafter
  · intro hfull n hn
    rw [cameShort_iff hle, hn] at hfull
    constructor
    · intro hzero
      exact hafter.trans (if_pos (by omega))
    · intro hpos
      obtain ⟨last, rfl⟩ := Nat.exists_eq_add_of_le' hpos
      have hsum : sizes.sum = last + 1 := by omega
      have hbound : last < owned.length := by
        rw [← List.length_map Prod.snd, howned]
        omega
      obtain ⟨owner, p, howner⟩ : ∃ owner p, owned[last]? = some (owner, p) :=
        ⟨_, _, List.getElem?_eq_getElem hbound⟩
      obtain ⟨hline, hcount⟩ := linesRead_eq_line lines options (by rwa [← hsegments])
      rw [if_neg (by omega), hsum, hline] at hafter
      refine ⟨owner, p, howner, ?_, hafter⟩
      exact (congrArg (·.decoder.lines) hafter).trans (lines_decodeAll_take hcount)

/-- A pull that stops in the middle of a segment has read the line of that segment and no more. -/
theorem pulls_ofLines_midway :
    let lines := ["G28", "G1 X1 E1", "G1 X2 E2"]
    let stream := ofLines lines { step := 0.25 }
    ¬CameShort [1, 0, 2] (stream.pulls [1, 0, 2]).1 ∧
      (stream.pulls [1, 0, 2]).2.segments.lines = ["G1 X2 E2"] := by
  intro lines stream
  obtain ⟨-, -, -, -, -, hfull⟩ := pulls_ofLines lines { step := 0.25 } [1, 0, 2]
  have hmet : ¬CameShort [1, 0, 2] (stream.pulls [1, 0, 2]).1 ∧
      (stream.pulls [1, 0, 2]).1.flatten.length = 3 := by
    unfold CameShort
    decide +kernel
  have howner : ((MotionDecoder.ownedPoints { step := 0.25 }
      (SegmentStream.rest { lines }).1)[2]?).map (·.1.line) = some 2 := by
    decide +kernel
  obtain ⟨owner, p, hlast, -, hafter⟩ := (hfull hmet.1 3 hmet.2).2 (by decide)
  rw [hlast] at howner
  refine ⟨hmet.1, ?_⟩
  rw [hafter, show owner.line = 2 from Option.some.inj howner]
  rfl

end PointStream

end Toolpath
