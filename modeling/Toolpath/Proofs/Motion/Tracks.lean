import Toolpath.Cloud.Layer
import Toolpath.Proofs.Cloud.Assembly
import Toolpath.Proofs.Motion.History

/-! # What feed and extrusion decide

The feed rate of a command decides nothing, and its extrusion decides only which
of the segments are deposits. Programs that agree line by line in the kind and
the coordinates of their commands lead the tool along the same track, however
far apart their extruders are; if the extrusion agrees as well, nothing that is
made of their segments tells them apart.
-/

namespace Toolpath

/-- What a command says about the track of the tool. -/
structure Track where
  kind : MotionKind
  x : Option Float
  y : Option Float
  z : Option Float
  deriving DecidableEq

def MotionCommand.track (command : MotionCommand) : Track :=
  ⟨command.kind, command.words.x, command.words.y, command.words.z⟩

/-- A segment without its classification. -/
def MotionSegment.unclassified (segment : MotionSegment) : MotionSegment :=
  { segment with isDeposit := false }

namespace Line

/-- The track of a line, `none` if it is no motion line. -/
def track? (line : String) : Option Track :=
  (command? line.toList).map (·.track)

/-- The extrusion that is accepted of a line, if it is a motion line and has one. -/
def extrusion? (line : String) : Option Float :=
  (command? line.toList).bind (·.words.e)

/-- Of two lines with the same track, both are motion lines or neither is. -/
theorem command?_of_track? {line other : String} (h : track? line = track? other) :
    (command? line.toList = none ∧ command? other.toList = none) ∨
      ∃ command command', command? line.toList = some command ∧
        command? other.toList = some command' ∧ command.track = command'.track := by
  unfold track? at h
  cases hcommand : command? line.toList with
  | none =>
      rw [hcommand, Option.map_none, eq_comm, Option.map_eq_none_iff] at h
      exact .inl ⟨rfl, h⟩
  | some command =>
      rw [hcommand, Option.map_some, eq_comm, Option.map_eq_some_iff] at h
      obtain ⟨command', hcommand', htrack⟩ := h
      exact .inr ⟨command, command', rfl, hcommand', htrack.symm⟩

end Line

namespace ToolState

variable {first second : ToolState} {command other : MotionCommand}

/-- Commands with the same track lead from a place to the same place. -/
theorem apply_of_track (hposition : first.position = second.position)
    (htrack : command.track = other.track) :
    (first.apply command).1.position = (second.apply other).1.position ∧
      (first.apply command).2.unclassified = (second.apply other).2.unclassified := by
  simp only [MotionCommand.track, Track.mk.injEq] at htrack
  obtain ⟨hkind, hx, hy, hz⟩ := htrack
  simp only [apply, MotionSegment.unclassified, hposition, hkind, hx, hy, hz, and_self]

/-- Where the extruders agree too, the moves are of the same class. -/
theorem apply_of_extrusion (hextrusion : first.extrusion = second.extrusion)
    (hkind : command.kind = other.kind) (hword : command.words.e = other.words.e) :
    (first.apply command).1.extrusion = (second.apply other).1.extrusion ∧
      (first.apply command).2.isDeposit = (second.apply other).2.isDeposit := by
  simp only [apply, hextrusion, hkind, hword, and_self]

end ToolState

namespace MotionDecoder

/-- What two decoders in related states make of lines that are alike is alike, and so is what they
make of whole programs. -/
theorem map_segments_of_related {α β : Type} (Related : MotionDecoder → MotionDecoder → Prop)
    (f : MotionSegment → α) (g : String → β)
    (step : ∀ first second line other, Related first second → g line = g other →
      (first.decode line).1.map f = (second.decode other).1.map f ∧
        Related (first.decode line).2 (second.decode other).2)
    {first second : MotionDecoder} (h : Related first second) {lines others : List String}
    (hlines : lines.map g = others.map g) :
    (first.segments lines).map f = (second.segments others).map f := by
  induction lines generalizing first second others with
  | nil =>
      rw [List.map_nil, eq_comm, List.map_eq_nil_iff] at hlines
      rw [hlines]
      rfl
  | cons line lines ih =>
      cases others with
      | nil => exact absurd hlines (by simp)
      | cons other others =>
          obtain ⟨hline, hrest⟩ := List.cons_eq_cons.mp hlines
          obtain ⟨hsegment, hafter⟩ := step first second line other h hline
          rw [segments_cons, segments_cons, List.map_append, List.map_append, ih hafter hrest,
            ← Option.toList_map, ← Option.toList_map, hsegment]

/-- Whether two decoders are at the same place and have read the same number of lines. Nothing is
said about extruder and feed rate. -/
structure SamePlace (first second : MotionDecoder) : Prop where
  position : first.state.position = second.state.position
  lines : first.lines = second.lines

namespace SamePlace

variable {first second : MotionDecoder} (h : SamePlace first second) {line other : String}

include h

/-- Lines with the same track lead to the same place. -/
theorem decode (htrack : Line.track? line = Line.track? other) :
    (first.decode line).1.map (·.unclassified) = (second.decode other).1.map (·.unclassified) ∧
      SamePlace (first.decode line).2 (second.decode other).2 := by
  obtain ⟨hsegment, hstate, hcount⟩ := first.decode_eq line
  obtain ⟨hsegment', hstate', hcount'⟩ := second.decode_eq other
  have hlines : (first.decode line).2.lines = (second.decode other).2.lines := by
    rw [hcount, hcount', h.lines]
  rcases Line.command?_of_track? htrack with
    ⟨hnone, hnone'⟩ | ⟨command, command', hcommand, hcommand', hsame⟩
  · rw [hnone] at hsegment hstate
    rw [hnone'] at hsegment' hstate'
    refine ⟨by rw [hsegment, hsegment']; rfl, ?_, hlines⟩
    rw [hstate, hstate']
    exact h.position
  · rw [hcommand] at hsegment hstate
    rw [hcommand'] at hsegment' hstate'
    obtain ⟨hposition, hmove⟩ := ToolState.apply_of_track h.position hsame
    refine ⟨?_, by rw [hstate, hstate']; exact hposition, hlines⟩
    rw [hsegment, hsegment', h.lines]
    exact congrArg (fun move => some { move with line := second.lines + 1 }) hmove

/-- If their extrusion agrees as well, what they are decoded to is the same. -/
theorem decode_of_extrusion (hextrusion : first.state.extrusion = second.state.extrusion)
    (htrack : Line.track? line = Line.track? other)
    (hword : Line.extrusion? line = Line.extrusion? other) :
    (first.decode line).1 = (second.decode other).1 ∧
      (first.decode line).2.state.extrusion = (second.decode other).2.state.extrusion := by
  have hmoves := (h.decode htrack).1
  obtain ⟨hsegment, hstate, -⟩ := first.decode_eq line
  obtain ⟨hsegment', hstate', -⟩ := second.decode_eq other
  rcases Line.command?_of_track? htrack with
    ⟨hnone, hnone'⟩ | ⟨command, command', hcommand, hcommand', hsame⟩
  · rw [hnone] at hsegment hstate
    rw [hnone'] at hsegment' hstate'
    rw [hsegment, hsegment', hstate, hstate']
    exact ⟨rfl, hextrusion⟩
  · rw [Line.extrusion?, Line.extrusion?, hcommand, hcommand'] at hword
    rw [hcommand] at hsegment hstate
    rw [hcommand'] at hsegment' hstate'
    obtain ⟨hextrusion', hclass⟩ :=
      ToolState.apply_of_extrusion hextrusion (congrArg Track.kind hsame) hword
    rw [hsegment, hsegment'] at hmoves ⊢
    rw [hstate, hstate']
    refine ⟨?_, hextrusion'⟩
    -- The moves agree without their class, and the class agrees.
    have hmove := Option.some.inj hmoves
    simp only [MotionSegment.unclassified, MotionSegment.mk.injEq, true_and] at hmove
    obtain ⟨hstart, hstop, hkind, hnumber⟩ := hmove
    simp only [Option.map_some, Option.some.injEq, MotionSegment.mk.injEq]
    exact ⟨hstart, hstop, hkind, hclass, hnumber⟩

variable {lines others : List String}

/-- Programs along the same track have the same segments but for their classes. -/
theorem segments (htrack : lines.map Line.track? = others.map Line.track?) :
    (first.segments lines).map (·.unclassified) =
      (second.segments others).map (·.unclassified) :=
  map_segments_of_related SamePlace _ _ (fun _ _ _ _ hplace hline => hplace.decode hline) h htrack

/-- If their extrusion agrees as well, they have the same segments. -/
theorem segments_of_extrusion (hextrusion : first.state.extrusion = second.state.extrusion)
    (htrack : lines.map Line.track? = others.map Line.track?)
    (hwords : lines.map Line.extrusion? = others.map Line.extrusion?) :
    first.segments lines = second.segments others := by
  have hlines : lines.map (fun line => (Line.track? line, Line.extrusion? line)) =
      others.map fun line => (Line.track? line, Line.extrusion? line) := by
    rw [← List.zip_map', ← List.zip_map', htrack, hwords]
  have hsame := map_segments_of_related
    (fun first second => SamePlace first second ∧ first.state.extrusion = second.state.extrusion)
    id _ (fun _ _ _ _ hboth hline => ?_) ⟨h, hextrusion⟩ hlines
  · rwa [List.map_id, List.map_id] at hsame
  · obtain ⟨hplace, hextruder⟩ := hboth
    obtain ⟨htrack, hword⟩ := Prod.mk.inj hline
    obtain ⟨hsegment, hextruder'⟩ := hplace.decode_of_extrusion hextruder htrack hword
    exact ⟨congrArg (Option.map id) hsegment, (hplace.decode htrack).2, hextruder'⟩

end SamePlace

end MotionDecoder

/-- The points of the vertices do not tell segments of different classes apart. -/
theorem MotionSegment.flatMap_points_vertex (step : Float) (segments : List MotionSegment) :
    (segments.flatMap fun segment => (segment.points { mode := .vertex, step }).toList) =
      (segments.map (·.unclassified)).map (·.stop) := by
  induction segments with
  | nil => rfl
  | cons segment segments ih =>
      rw [List.flatMap_cons, ih]
      rfl

/-- Programs that agree line by line in the kind and the coordinates of their commands have the same
segments up to which of them are deposits, and so the same vertices. If they agree line by line in
extrusion too, they have the same segments, and nothing made of these differs: the points in any
mode, the clouds with their boxes, the layers. -/
theorem SegmentStream.rest_eq_of_track {lines others : List String}
    (htrack : lines.map Line.track? = others.map Line.track?) :
    let segments := (rest { lines }).1
    let segments' := (rest { lines := others }).1
    segments.map (·.unclassified) = segments'.map (·.unclassified) ∧
    (∀ step n, ((PointStream.ofLines lines { mode := .vertex, step }).take n).1 =
      ((PointStream.ofLines others { mode := .vertex, step }).take n).1) ∧
    (lines.map Line.extrusion? = others.map Line.extrusion? →
      segments = segments' ∧
      (∀ options, (PointStream.ofLines lines options).rest.1 =
        (PointStream.ofLines others options).rest.1) ∧
      (∀ options, (PointCloud.ofStream options { lines }).1 =
        (PointCloud.ofStream options { lines := others }).1) ∧
      Layer.ofSegments segments = Layer.ofSegments segments') := by
  intro segments segments'
  have hstart : MotionDecoder.SamePlace {} {} := ⟨rfl, rfl⟩
  have hsegments : segments = ({} : MotionDecoder).segments lines :=
    congrArg Prod.fst (rest_eq {} lines)
  have hsegments' : segments' = ({} : MotionDecoder).segments others :=
    congrArg Prod.fst (rest_eq {} others)
  have hmoves : segments.map (·.unclassified) = segments'.map (·.unclassified) := by
    rw [hsegments, hsegments']
    exact hstart.segments htrack
  refine ⟨hmoves, fun step n => ?_, fun hwords => ?_⟩
  · rw [PointStream.fst_take, PointStream.fst_take, PointStream.output_ofLines,
      PointStream.output_ofLines, ← hsegments, ← hsegments',
      MotionSegment.flatMap_points_vertex, MotionSegment.flatMap_points_vertex, hmoves]
  · have hsame : segments = segments' := by
      rw [hsegments, hsegments']
      exact hstart.segments_of_extrusion rfl htrack hwords
    refine ⟨hsame, fun options => ?_, fun options => ?_, congrArg Layer.ofSegments hsame⟩
    · rw [PointStream.fst_rest, PointStream.fst_rest, PointStream.output_ofLines,
        PointStream.output_ofLines, ← hsegments, ← hsegments', hsame]
    · simp only [PointCloud.ofStream, Assembler.fst_pushLines, ← hsegments, ← hsegments', hsame]

/-- A malformed feed rate, a comment or another code makes no difference. -/
theorem SegmentStream.rest_eq_of_feed :
    (rest { lines := ["G1 X1 E1 F1800", "M104 S200", "G0 Y2 E0.5", "G1 X3 E0.75"] }).1 =
      (rest { lines := ["G01 X1 E1 Fast", "; heat", "G0 E0.5 Y2 F1", "G1 X2 X3 E.75"] }).1 :=
  ((rest_eq_of_track (by decide +kernel)).2.2 (by decide +kernel)).1

end Toolpath
