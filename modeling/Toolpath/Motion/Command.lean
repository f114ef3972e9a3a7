import Toolpath.Number.Style

/-! # Motion commands

A motion command is one of two codes with a value for some of five axis words.
Its text lists the words that are present in the order X, Y, Z, E, F.
-/

namespace Toolpath

/-- The two motion codes. -/
inductive MotionKind where
  /-- G0, positioning: it never deposits material. -/
  | rapid
  /-- G1, a straight move: it deposits material when the extrusion goes up. -/
  | linear
  deriving DecidableEq, Repr, Inhabited

namespace MotionKind

/-- The kind with a code number. -/
def ofCode? : Nat → Option MotionKind
  | 0 => some .rapid
  | 1 => some .linear
  | _ => none

/-- The code as it is written. -/
def code : MotionKind → String
  | .rapid => "G0"
  | .linear => "G1"

end MotionKind

/-- The words that set something: three coordinates, the extruder position, the feed rate. -/
inductive Axis where
  | x
  | y
  | z
  | e
  | f
  deriving DecidableEq, Repr

namespace Axis

/-- The axis named by a letter, which is a capital one. -/
def ofLetter? : Char → Option Axis
  | 'X' => some .x
  | 'Y' => some .y
  | 'Z' => some .z
  | 'E' => some .e
  | 'F' => some .f
  | _ => none

/-- The letter of an axis. -/
def letter : Axis → Char
  | .x => 'X'
  | .y => 'Y'
  | .z => 'Z'
  | .e => 'E'
  | .f => 'F'

/-- All axes, in the order in which words are written. -/
def all : List Axis := [.x, .y, .z, .e, .f]

theorem ofLetter?_letter (a : Axis) : ofLetter? a.letter = some a := by
  cases a <;> rfl

end Axis

/-- The value given for each axis, `none` where nothing is said about it. -/
structure AxisWords where
  x : Option Float := none
  y : Option Float := none
  z : Option Float := none
  e : Option Float := none
  f : Option Float := none
  deriving BEq, DecidableEq, Inhabited

namespace AxisWords

/-- The words with a value stored for one axis. -/
def set (words : AxisWords) (axis : Axis) (value : Float) : AxisWords :=
  match axis with
  | .x => { words with x := some value }
  | .y => { words with y := some value }
  | .z => { words with z := some value }
  | .e => { words with e := some value }
  | .f => { words with f := some value }

/-- The value given for one axis. -/
def get? (words : AxisWords) : Axis → Option Float
  | .x => words.x
  | .y => words.y
  | .z => words.z
  | .e => words.e
  | .f => words.f

/-- Whether no axis has a value. -/
def isEmpty (words : AxisWords) : Bool :=
  Axis.all.all fun axis => (words.get? axis).isNone

theorem get?_set (words : AxisWords) (axis other : Axis) (value : Float) :
    (words.set axis value).get? other = if axis = other then some value else words.get? other := by
  cases axis <;> cases other <;> rfl

end AxisWords

/-- A motion line: its code and its axis words. -/
structure MotionCommand where
  kind : MotionKind
  words : AxisWords := {}
  deriving BEq, DecidableEq, Inhabited

namespace MotionCommand

/-- The command as a program line. -/
def text (command : MotionCommand) : List Char :=
  command.kind.code.toList ++ Axis.all.flatMap fun axis =>
    match command.words.get? axis with
    | some value => ' ' :: axis.letter :: Number.text value
    | none => []

/-- The command as a program line, in a string. -/
def display (command : MotionCommand) : String :=
  String.ofList command.text

end MotionCommand

end Toolpath
