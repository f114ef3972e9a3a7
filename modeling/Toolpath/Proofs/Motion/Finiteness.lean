import Toolpath.Proofs.Motion.Display
import Toolpath.Proofs.Motion.History
import Toolpath.Proofs.Motion.Samples

/-! # Finite states

A word with a number that is not finite as a double is dropped, so a line only
ever sets finite values. Whatever the lines of a program say, the tool stands at
a finite position all along, with a finite extrusion and a finite feed rate, and
what carries over from line to line is finite too. Every segment runs between
finite positions, and so the points of a program are finite.
-/

namespace Toolpath

/-- A segment between finite positions. -/
def MotionSegment.IsFinite (segment : MotionSegment) : Prop :=
  segment.start.isFinite = true ∧ segment.stop.isFinite = true

/-- A state of finite values. There need not be a feed rate. -/
structure ToolState.IsFinite (state : ToolState) : Prop where
  position : state.position.isFinite = true
  extrusion : state.extrusion.isFinite = true
  feedRate : ∀ rate ∈ state.feedRate, rate.isFinite = true

/-- A command with finite values leads from a finite state to a finite one, along a finite
segment. -/
theorem ToolState.IsFinite.apply {state : ToolState} (h : state.IsFinite)
    {command : MotionCommand} (hcommand : command.IsFinite) :
    (state.apply command).1.IsFinite ∧ (state.apply command).2.IsFinite := by
  have hword (axis : Axis) {held : Float} (hheld : held.isFinite = true) :
      ((command.words.get? axis).getD held).isFinite = true := by
    cases hvalue : command.words.get? axis with
    | none => exact hheld
    | some value => exact hcommand axis value hvalue
  obtain ⟨hx, hy, hz⟩ := Point.isFinite_iff.mp h.position
  have hstop : (state.apply command).2.stop.isFinite = true :=
    Point.isFinite_iff.mpr ⟨hword .x hx, hword .y hy, hword .z hz⟩
  refine ⟨⟨hstop, hword .e h.extrusion, ?_⟩, h.position, hstop⟩
  intro rate hrate
  rcases Option.or_eq_some_iff.mp hrate with hgiven | ⟨-, hheld⟩
  · exact hcommand .f rate hgiven
  · exact h.feedRate rate hheld

namespace MotionDecoder

variable {decoder : MotionDecoder}

/-- Decoding a line keeps the state finite, and what it returns is finite. -/
theorem isFinite_decode (h : decoder.state.IsFinite) (line : String) :
    (decoder.decode line).2.state.IsFinite ∧
      ∀ segment ∈ (decoder.decode line).1, segment.IsFinite := by
  obtain ⟨hsegment, hstate, -⟩ := decoder.decode_eq line
  rw [hsegment, hstate]
  cases hcommand : Line.command? line.toList with
  | none => exact ⟨h, fun segment hmem => by cases hmem⟩
  | some command =>
      obtain ⟨hnext, hmove⟩ := h.apply (MotionCommand.isFinite_of_command? hcommand)
      refine ⟨hnext, fun segment hmem => ?_⟩
      cases hmem
      exact hmove

theorem isFinite_decodeAll (h : decoder.state.IsFinite) (lines : List String) :
    (decoder.decodeAll lines).state.IsFinite := by
  induction lines generalizing decoder with
  | nil => exact h
  | cons line lines ih => exact ih (isFinite_decode h line).1

/-- The segments of a program run between finite positions. -/
theorem isFinite_of_mem_segments (h : decoder.state.IsFinite) (lines : List String) :
    ∀ segment ∈ decoder.segments lines, segment.IsFinite := by
  induction lines generalizing decoder with
  | nil => simp
  | cons line lines ih =>
      obtain ⟨hafter, hsegment⟩ := isFinite_decode h line
      intro segment hmem
      rw [segments_cons, List.mem_append, Option.mem_toList] at hmem
      rcases hmem with hmem | hmem
      · exact hsegment segment hmem
      · exact ih hafter segment hmem

theorem isFinite_origin : ({} : MotionDecoder).state.IsFinite where
  position := by decide +kernel
  extrusion := by decide +kernel
  feedRate := fun _ hrate => by cases hrate

/-- No number that is not finite gets into a run, whatever its lines carry. Behind every line the
state is finite, and the segment of the line, if it has one, runs between finite positions. The
points of the program are then finite, in either mode and with any step. -/
theorem finite_throughout (lines : List String) :
    (∀ front line behind, lines = front ++ line :: behind →
      let decoded := (decodeAll {} front).decode line
      decoded.2.state.IsFinite ∧ ∀ segment ∈ decoded.1, segment.IsFinite) ∧
    (∀ segment ∈ (SegmentStream.rest { lines }).1, segment.IsFinite) ∧
    ∀ options, ∀ p ∈ (PointStream.ofLines lines options).rest.1, p.isFinite = true := by
  have hsegments := isFinite_of_mem_segments isFinite_origin lines
  refine ⟨fun front line _ _ => isFinite_decode (isFinite_decodeAll isFinite_origin front) line,
    ?_, fun options p hp => ?_⟩
  · rw [SegmentStream.rest_eq]
    exact hsegments
  · rw [PointStream.fst_rest, PointStream.output_ofLines] at hp
    obtain ⟨segment, hsegment, hpoint⟩ := List.mem_flatMap.mp hp
    obtain ⟨hstart, hstop⟩ := hsegments segment hsegment
    exact MotionSegment.isFinite_of_mem_points hstart hstop hpoint

/-- A coordinate beyond the largest double and the names of infinity leave what was held, and a
letter in a number begins the next word. -/
theorem finite_throughout_of_overflow :
    let first := "G1 X2.5 E1 F1800"
    let second := String.ofList
      ("G1 X".toList ++ List.replicate 400 '9' ++ " Zinf F-inf Y1e999".toList)
    let state := ((decodeAll {} [first]).decode second).2.state
    Line.read second.toList = .motion ⟨.linear, { y := some 1, e := some 999 }⟩ 5 ∧
      state = ⟨⟨2.5, 1, 0⟩, 999, some 1800⟩ ∧ state.IsFinite := by
  intro first second state
  have hread : Line.read second.toList =
      .motion ⟨.linear, { y := some 1, e := some 999 }⟩ 5 := by
    rw [String.toList_ofList]
    decide +kernel
  have hstate : state = ⟨⟨2.5, 1, 0⟩, 999, some 1800⟩ := by
    simp only [state, decode, hread]
    decide +kernel
  have hlines : [first, second] = [first] ++ second :: [] := List.singleton_append.symm
  exact ⟨hread, hstate, ((finite_throughout _).1 _ _ _ hlines).1⟩

end MotionDecoder

end Toolpath
