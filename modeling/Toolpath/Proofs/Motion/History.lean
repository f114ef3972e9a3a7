import Mathlib.Data.List.Forall2
import Toolpath.Proofs.Motion.Run
import Toolpath.Proofs.Motion.Words
import Toolpath.Proofs.Number.Order

/-! # The state of a run, read off its history

A decoder carries its state from line to line. What it holds at any time can be
told without it, by looking back: for each axis the last word that was accepted
on any motion line counts, wherever that line stands, and everything else in the
program is irrelevant.
-/

namespace Toolpath

namespace History

/-- Whether a line is a motion line. -/
def isMotion (line : String) : Bool :=
  (Line.command? line.toList).isSome

/-- The motion lines of a program, each with its number. All lines are counted, from one. -/
def motionLines (lines : List String) : List (String × Nat) :=
  (lines.zipIdx 1).filter fun (line, _) => isMotion line

/-- The last value that the motion lines of a program give for an axis. -/
def last? (axis : Axis) (lines : List String) : Option Float :=
  ((lines.filter isMotion).flatMap fun line => Line.accepted axis line.toList).getLast?

/-- Where a program leaves the tool. -/
def position (lines : List String) : Point :=
  ⟨(last? .x lines).getD 0.0, (last? .y lines).getD 0.0, (last? .z lines).getD 0.0⟩

/-- How far a program leaves the extruder. -/
def extrusion (lines : List String) : Float :=
  (last? .e lines).getD 0.0

/-- The state in which a program leaves the tool. -/
def state (lines : List String) : ToolState :=
  ⟨position lines, extrusion lines, last? .f lines⟩

/-- What a segment says about the motion line that it comes from. -/
structure Describes (lines : List String) (motion : String × Nat) (segment : MotionSegment) :
    Prop where
  line : segment.line = motion.2
  stop : segment.stop = position (lines.take motion.2)
  kind : (Line.command? motion.1.toList).map (·.kind) = some segment.kind
  deposit : segment.isDeposit = true ↔ segment.kind = .linear ∧
    ∃ e, (Line.accepted .e motion.1.toList).getLast? = some e ∧
      extrusion (lines.take (motion.2 - 1)) < e

theorem last?_append_of_motion {line : String} (h : isMotion line = true) (axis : Axis)
    (before : List String) :
    last? axis (before ++ [line]) =
      (Line.accepted axis line.toList).getLast?.or (last? axis before) := by
  unfold last?
  rw [List.filter_append, List.flatMap_append, List.getLast?_append]
  simp [h]

theorem last?_append_of_other {line : String} (h : isMotion line = false) (axis : Axis)
    (before : List String) : last? axis (before ++ [line]) = last? axis before := by
  unfold last?
  rw [List.filter_append]
  simp [h]

end History

namespace MotionDecoder

variable (decoder : MotionDecoder)

/-- Decoding a line, in terms of its command: with one the tool moves, without one only the line is
counted. -/
theorem decode_eq (line : String) :
    (decoder.decode line).1 = (Line.command? line.toList).map (fun command =>
        { (decoder.state.apply command).2 with line := decoder.lines + 1 }) ∧
      (decoder.decode line).2.state =
        ((Line.command? line.toList).map fun command => (decoder.state.apply command).1).getD
          decoder.state ∧
      (decoder.decode line).2.lines = decoder.lines + 1 := by
  unfold decode accept Line.command?
  cases Line.read line.toList with
  | motion command malformed => exact ⟨rfl, rfl, rfl⟩
  | other => exact ⟨rfl, rfl, rfl⟩

/-- Every segment starts where the one before it stops, and the tool is left at the last stop. -/
theorem map_start_segments (lines : List String) :
    (decoder.segments lines).map (·.start) ++ [(decoder.decodeAll lines).state.position] =
      decoder.state.position :: (decoder.segments lines).map (·.stop) := by
  induction lines generalizing decoder with
  | nil => rfl
  | cons line lines ih =>
      obtain ⟨hsegment, hstate, -⟩ := decoder.decode_eq line
      rw [segments_cons, decodeAll_cons, List.map_append, List.map_append, List.append_assoc, ih,
        hsegment, hstate]
      cases Line.command? line.toList <;> rfl

/-- One more line adds to the state what it adds to the history. -/
theorem state_decode {before : List String} (hstate : decoder.state = History.state before)
    (line : String) : (decoder.decode line).2.state = History.state (before ++ [line]) := by
  -- Either the line is part of the history or nothing happens.
  rw [(decoder.decode_eq line).2.1, hstate]
  cases hcommand : Line.command? line.toList with
  | none =>
      have hother : History.isMotion line = false := by
        rw [History.isMotion, hcommand]
        rfl
      simp only [History.state, History.position, History.extrusion,
        History.last?_append_of_other hother, Option.map_none, Option.getD_none]
  | some command =>
      have hmotion : History.isMotion line = true := by
        rw [History.isMotion, hcommand]
        rfl
      have hlast (axis : Axis) : History.last? axis (before ++ [line]) =
          (command.words.get? axis).or (History.last? axis before) := by
        rw [History.last?_append_of_motion hmotion, Line.get?_of_command? axis hcommand]
      simp only [History.state, History.position, History.extrusion, hlast, Option.getD_or]
      rfl

/-- The segment of a motion line is what the history up to the line says. -/
theorem describes_segment {before : List String} (hstate : decoder.state = History.state before)
    (hlines : decoder.lines = before.length) {line : String} {command : MotionCommand}
    (hcommand : Line.command? line.toList = some command) (lines : List String) :
    History.Describes (before ++ line :: lines) (line, before.length + 1)
      { (decoder.state.apply command).2 with line := decoder.lines + 1 } := by
  have hbefore : (before ++ line :: lines).take before.length = before := List.take_left
  have hthrough : (before ++ line :: lines).take (before.length + 1) = before ++ [line] := by
    rw [List.take_length_add_append]
    rfl
  refine ⟨?_, ?_, ?_, ?_⟩
  · exact congrArg (· + 1) hlines
  · change _ = History.position ((before ++ line :: lines).take (before.length + 1))
    have hnext := decoder.state_decode hstate line
    rw [(decoder.decode_eq line).2.1, hcommand] at hnext
    rw [hthrough]
    exact congrArg ToolState.position hnext
  · change (Line.command? line.toList).map (·.kind) = some command.kind
    rw [hcommand]
    rfl
  · change (command.kind == .linear && decoder.state.extrusion <
      command.words.e.getD decoder.state.extrusion) = true ↔ command.kind = .linear ∧
        ∃ e, (Line.accepted .e line.toList).getLast? = some e ∧
          History.extrusion ((before ++ line :: lines).take before.length) < e
    have haccepted : command.words.e = (Line.accepted .e line.toList).getLast? :=
      Line.get?_of_command? .e hcommand
    have hextrusion : decoder.state.extrusion = History.extrusion before := by rw [hstate]; rfl
    rw [hbefore, ← haccepted, hextrusion, Bool.and_eq_true, beq_iff_eq, decide_eq_true_iff]
    refine and_congr_right fun _ => ?_
    cases command.words.e with
    | none =>
        -- Without a value the extruder does not move, and nothing is below itself.
        simp [Number.lt_irrefl]
    | some e => simp

/-- What is decoded behind some lines is what the history of the whole program says. -/
theorem describes_segments (before lines : List String)
    (hstate : decoder.state = History.state before) (hlines : decoder.lines = before.length) :
    List.Forall₂ (History.Describes (before ++ lines))
        ((lines.zipIdx (before.length + 1)).filter fun (line, _) => History.isMotion line)
        (decoder.segments lines) ∧
      (decoder.decodeAll lines).state = History.state (before ++ lines) := by
  induction lines generalizing decoder before with
  | nil =>
      rw [List.append_nil]
      exact ⟨.nil, hstate⟩
  | cons line lines ih =>
      obtain ⟨hsegment, -, hcount⟩ := decoder.decode_eq line
      have hafter : (decoder.decode line).2.lines = (before ++ [line]).length := by
        rw [hcount, hlines, List.length_append, List.length_singleton]
      obtain ⟨hrest, hlast⟩ := ih (decoder.decode line).2 (before ++ [line])
        (decoder.state_decode hstate line) hafter
      rw [List.append_assoc, List.singleton_append] at hrest hlast
      rw [List.length_append, List.length_singleton] at hrest
      refine ⟨?_, hlast⟩
      rw [segments_cons, hsegment, List.zipIdx_cons, List.filter_cons]
      cases hcommand : Line.command? line.toList with
      | none =>
          have hother : History.isMotion line = false := by rw [History.isMotion, hcommand]; rfl
          rw [if_neg (by simp [hother])]
          exact hrest
      | some command =>
          have hmotion : History.isMotion line = true := by rw [History.isMotion, hcommand]; rfl
          rw [if_pos hmotion]
          exact .cons (decoder.describes_segment hstate hlines hcommand lines) hrest

end MotionDecoder

/-- The segments of a program are told by its history: they come from its motion lines, one each
and in order, every one says what the lines up to its own leave, each starts where the one before
it stops, and the run ends in the state that all lines leave. -/
theorem SegmentStream.rest_eq_history (lines : List String) :
    let segments := (rest { lines }).1
    let final := (rest { lines }).2.decoder.state
    List.Forall₂ (History.Describes lines) (History.motionLines lines) segments ∧
      segments.map (·.start) ++ [final.position] = Point.origin :: segments.map (·.stop) ∧
      final = ⟨History.position lines, History.extrusion lines, History.last? .f lines⟩ := by
  intro segments final
  have hsegments : segments = ({} : MotionDecoder).segments lines :=
    congrArg Prod.fst (SegmentStream.rest_eq {} lines)
  have hfinal : final = (({} : MotionDecoder).decodeAll lines).state :=
    congrArg (·.2.decoder.state) (SegmentStream.rest_eq {} lines)
  obtain ⟨hdescribes, hstate⟩ :=
    MotionDecoder.describes_segments {} [] lines rfl rfl
  rw [hsegments, hfinal]
  exact ⟨hdescribes, MotionDecoder.map_start_segments {} lines, hstate⟩

end Toolpath
