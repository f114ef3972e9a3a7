import Toolpath.Motion.Segment

/-! # The state of the tool

The tool is where the last command left it. A command names only what changes;
everything else carries over from the state before.
-/

namespace Toolpath

/-- Where the tool stands, how far the extruder has gone, and the last feed rate. -/
structure ToolState where
  position : Point := Point.origin
  extrusion : Float := 0.0
  feedRate : Option Float := none
  deriving BEq, DecidableEq, Inhabited

namespace ToolState

/-- The state after a command and the segment travelled to reach it. The state moves on
whether or not material is deposited. -/
def apply (state : ToolState) (command : MotionCommand) : ToolState × MotionSegment :=
  let words := command.words
  let stop : Point :=
    ⟨words.x.getD state.position.x, words.y.getD state.position.y, words.z.getD state.position.z⟩
  let extrusion := words.e.getD state.extrusion
  let isDeposit := command.kind == .linear && state.extrusion < extrusion
  (⟨stop, extrusion, words.f.or state.feedRate⟩,
    { start := state.position, stop, kind := command.kind, isDeposit })

end ToolState

end Toolpath
