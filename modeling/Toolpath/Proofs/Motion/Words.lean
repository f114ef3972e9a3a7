import Toolpath.Motion.Line

/-! # What the words of a line record

The words behind the command of a line are recorded one after the other. For
every axis the last of them that names it and carries a finite number is the one
that counts.
-/

namespace Toolpath.Line

/-- The value that a word gives for an axis: its finite number, if it names the axis. -/
def Word.valueFor (axis : Axis) (word : Word) : Option Float :=
  if word.axis? = some axis then word.value? else none

/-- The values that a line gives for an axis, in order. The first word of a line is its command and
gives no value. -/
def accepted (axis : Axis) (cs : List Char) : List Float :=
  (words (stripComments cs)).tail.filterMap (Word.valueFor axis)

variable (axis : Axis) (recorded : AxisWords)

/-- Recording a word replaces the value of the axis that it has a value for. -/
theorem Word.get?_record (word : Word) :
    (Word.record recorded word).get? axis = (word.valueFor axis).or (recorded.get? axis) := by
  unfold Word.record Word.valueFor
  split
  next named value hnamed hvalue =>
    rw [AxisWords.get?_set, hnamed, hvalue]
    by_cases h : named = axis <;> simp [h]
  next hnone =>
    split
    next haxis =>
      cases hvalue : word.value? with
      | none => rfl
      | some value => exact absurd hvalue (hnone axis value haxis)
    next => rfl

/-- Recording words one after the other leaves the last value of each axis. -/
theorem get?_foldl_record (ws : List Word) :
    (ws.foldl Word.record recorded).get? axis =
      (ws.filterMap (Word.valueFor axis)).getLast?.or (recorded.get? axis) := by
  induction ws generalizing recorded with
  | nil => rfl
  | cons word ws ih =>
      rw [List.foldl_cons, ih, Word.get?_record, List.filterMap_cons]
      cases word.valueFor axis with
      | none => rfl
      | some value =>
          rw [List.getLast?_cons]
          cases (ws.filterMap (Word.valueFor axis)).getLast? <;> rfl

/-- What is recorded from nothing on. -/
theorem get?_foldl_record_empty (ws : List Word) :
    (ws.foldl Word.record {}).get? axis = (ws.filterMap (Word.valueFor axis)).getLast? := by
  have hnone : ({} : AxisWords).get? axis = none := by cases axis <;> rfl
  rw [get?_foldl_record, hnone, Option.or_none]

theorem get?_of_command? {cs : List Char} {command : MotionCommand}
    (h : command? cs = some command) :
    command.words.get? axis = (accepted axis cs).getLast? := by
  unfold command? read at h
  unfold accepted
  cases hwords : words (stripComments cs) with
  | nil =>
      rw [hwords] at h
      cases h
  | cons first rest =>
      rw [hwords] at h
      simp only [readWords] at h
      cases hkind : first.motion? with
      | none =>
          rw [hkind] at h
          cases h
      | some kind =>
          rw [hkind] at h
          obtain rfl := Option.some.inj h
          exact get?_foldl_record_empty axis rest

end Toolpath.Line
