import Toolpath.Proofs.Motion.Grammar
import Toolpath.Proofs.Motion.Words
import Toolpath.Proofs.Number.Written

/-! # Reading the text of a command

The text of a motion command with finite values is a line that says this command
and nothing else. A command that was read from a line has finite values.
-/

namespace Toolpath

open Text

/-- A digit belongs to the word of the letter before it and starts no comment. -/
theorem Line.isSuffix_of_isDigit {c : Char} (h : c.isDigit = true) :
    isSuffix c = true ∧ c ≠ ';' ∧ c ≠ '(' := by
  refine ⟨by simp [isSuffix, isAlpha_of_isDigit h, isBlank_of_isDigit h], ?_⟩
  constructor <;> rintro rfl <;> cases h

/-- The same holds of every character of a number. -/
theorem Number.isSuffix_of_mem_text {x : Float} (hx : x.isFinite = true) {c : Char}
    (hc : c ∈ Number.text x) : Line.isSuffix c = true ∧ c ≠ ';' ∧ c ≠ '(' := by
  rcases Number.mem_text hx hc with hdigit | rfl | rfl
  · exact Line.isSuffix_of_isDigit hdigit
  all_goals decide

/-- Without anything that starts a comment a text stays as it is. -/
theorem Line.stripComments_of_plain {cs : List Char} (h : ∀ c ∈ cs, c ≠ ';' ∧ c ≠ '(') :
    stripComments cs = cs := by
  refine strips_iff.mp ?_
  induction cs with
  | nil => exact .nil
  | cons c cs ih =>
      obtain ⟨hc, hcs⟩ := List.forall_mem_cons.mp h
      exact .plain hc.1 hc.2 (ih hcs)

namespace MotionCommand

open Line (Word isSuffix stripComments)

/-- Whether every value that is given is finite. -/
def IsFinite (command : MotionCommand) : Prop :=
  ∀ axis value, command.words.get? axis = some value → value.isFinite = true

/-- The text of the word of an axis, with a space in front of it. -/
def axisText (command : MotionCommand) (axis : Axis) : List Char :=
  match command.words.get? axis with
  | some value => ' ' :: axis.letter :: Number.text value
  | none => []

/-- The word of an axis. -/
def axisWord? (command : MotionCommand) (axis : Axis) : Option Word :=
  (command.words.get? axis).map fun value => ⟨axis.letter, Number.text value⟩

theorem text_eq (command : MotionCommand) :
    command.text = command.kind.code.toList ++ Axis.all.flatMap command.axisText := rfl

variable {command : MotionCommand}

/-- The letter of an axis starts a word, as it is, and no comment. -/
theorem letter_facts (axis : Axis) : axis.letter.isAlpha = true ∧
    axis.letter.toUpper = axis.letter ∧ axis.letter ≠ ';' ∧ axis.letter ≠ '(' := by
  cases axis <;> decide

/-- The text of a command has no comments. -/
theorem mem_axisText (h : command.IsFinite) (axis : Axis) :
    ∀ c ∈ command.axisText axis, c ≠ ';' ∧ c ≠ '(' := by
  intro c hc
  unfold axisText at hc
  cases hvalue : command.words.get? axis with
  | none =>
      rw [hvalue] at hc
      cases hc
  | some value =>
      rw [hvalue] at hc
      rcases List.mem_cons.mp hc with rfl | hc
      · decide
      rcases List.mem_cons.mp hc with rfl | hc
      · exact (letter_facts axis).2.2
      · exact (Number.isSuffix_of_mem_text (h axis value hvalue) hc).2

/-- The words of a command's axes are the words of its text behind the code. -/
theorem words_flatMap_axisText (h : command.IsFinite) (axes : List Axis) :
    Line.words (axes.flatMap command.axisText) = axes.filterMap command.axisWord? ∧
      Stops isSuffix (axes.flatMap command.axisText) := by
  induction axes with
  | nil => exact ⟨rfl, stops_nil _⟩
  | cons axis axes ih =>
      rw [List.flatMap_cons, List.filterMap_cons]
      cases hvalue : command.words.get? axis with
      | none =>
          simp only [axisText, axisWord?, hvalue, Option.map_none, List.nil_append]
          exact ih
      | some value =>
          obtain ⟨halpha, hupper, -⟩ := letter_facts axis
          have hsuffix : ∀ c ∈ Number.text value, isSuffix c = true := fun c hc =>
            (Number.isSuffix_of_mem_text (h axis value hvalue) hc).1
          simp only [axisText, axisWord?, hvalue, Option.map_some, List.cons_append]
          constructor
          · rw [Line.words, if_neg (by decide), Line.words_word halpha hsuffix ih.2, hupper, ih.1]
          · intro c hc
            obtain rfl := Option.some.inj hc
            rfl

/-- A code is the letter G and a digit. -/
theorem exists_digit (kind : MotionKind) : ∃ digit, kind.code.toList = ['G', digit] ∧
    digit.isDigit = true ∧ Word.motion? ⟨'G', [digit]⟩ = some kind := by
  cases kind with
  | rapid => exact ⟨'0', rfl, rfl, rfl⟩
  | linear => exact ⟨'1', rfl, rfl, rfl⟩

/-- The words of a command's text are its code and the words of its axes. -/
theorem words_text (h : command.IsFinite) :
    ∃ code, code.motion? = some command.kind ∧
      Line.words (stripComments command.text) = code :: Axis.all.filterMap command.axisWord? := by
  obtain ⟨hwords, hstops⟩ := words_flatMap_axisText h Axis.all
  have haxes : ∀ c ∈ Axis.all.flatMap command.axisText, c ≠ ';' ∧ c ≠ '(' := by
    intro c hc
    obtain ⟨axis, -, hc⟩ := List.mem_flatMap.mp hc
    exact mem_axisText h axis c hc
  obtain ⟨digit, hcode, hdigit, hkind⟩ := exists_digit command.kind
  obtain ⟨hsuffix, hplain⟩ := Line.isSuffix_of_isDigit hdigit
  have htext : command.text = 'G' :: ([digit] ++ Axis.all.flatMap command.axisText) := by
    rw [text_eq, hcode]
    rfl
  have hstrip : stripComments command.text = command.text := by
    refine Line.stripComments_of_plain fun c hc => ?_
    rw [htext] at hc
    rcases List.mem_cons.mp hc with rfl | hc
    · decide
    rcases List.mem_cons.mp hc with rfl | hc
    · exact hplain
    · exact haxes c hc
  have hrun : ∀ c ∈ [digit], isSuffix c = true := fun c hc => List.mem_singleton.mp hc ▸ hsuffix
  refine ⟨⟨'G', [digit]⟩, hkind, ?_⟩
  rw [hstrip, htext, Line.words_word (by decide) hrun hstops, hwords]
  rfl

/-- The value of the word of an axis is the value that it was written for. -/
theorem value?_axisWord {axis : Axis} {value : Float} (hvalue : value.isFinite = true) :
    Word.value? ⟨axis.letter, Number.text value⟩ = some value := by
  rw [Word.value?, Number.read?_text hvalue, Option.filter_some, if_pos hvalue]

/-- The word of an axis gives a value for this axis only. -/
theorem valueFor_axisWord? (h : command.IsFinite) (axis other : Axis) :
    (command.axisWord? other).bind (Word.valueFor axis) =
      if other = axis then command.words.get? axis else none := by
  unfold axisWord? Word.valueFor Word.axis?
  cases hvalue : command.words.get? other with
  | none =>
      split
      · next heq => rw [← heq, hvalue]; rfl
      · rfl
  | some value =>
      simp only [Option.map_some, Option.bind_some, Axis.ofLetter?_letter, Option.some.injEq,
        value?_axisWord (h other value hvalue)]
      split
      · next heq => rw [← heq, hvalue]
      · rfl

/-- Every axis has one word, so the words together record the values that they were written for. -/
theorem foldl_record_axisWords (h : command.IsFinite) :
    (Axis.all.filterMap command.axisWord?).foldl Word.record {} = command.words := by
  refine Line.ext_get? fun axis => ?_
  rw [Line.get?_foldl_record_empty, List.filterMap_filterMap]
  simp only [valueFor_axisWord? h axis]
  cases axis <;> cases command.words.get? _ <;> rfl

theorem countP_isMalformed_axisWords (h : command.IsFinite) :
    (Axis.all.filterMap command.axisWord?).countP Word.isMalformed = 0 := by
  rw [List.countP_eq_zero]
  intro word hword
  obtain ⟨axis, -, haxis⟩ := List.mem_filterMap.mp hword
  obtain ⟨value, hvalue, rfl⟩ := Option.map_eq_some_iff.mp haxis
  rw [Word.isMalformed, value?_axisWord (h axis value hvalue)]
  simp

theorem read_text (h : command.IsFinite) : Line.read command.text = .motion command 0 := by
  obtain ⟨code, hkind, hwords⟩ := words_text h
  rw [Line.read, hwords, Line.readWords]
  simp only [hkind, foldl_record_axisWords h, countP_isMalformed_axisWords h]

/-- A command that was read has finite values. -/
theorem isFinite_of_command? {cs : List Char} (h : Line.command? cs = some command) :
    command.IsFinite := by
  intro axis value hvalue
  rw [Line.get?_of_command? axis h] at hvalue
  obtain ⟨word, -, hword⟩ := List.mem_filterMap.mp (List.mem_of_getLast? hvalue)
  unfold Word.valueFor at hword
  split at hword
  · exact (Option.filter_eq_some_iff.mp hword).2
  · cases hword

/-- The text of a command with finite values is read as the command, with the same bits in every
value and no word dropped. So a command that a line was read as is what its text is read as. -/
theorem read_display :
    (∀ command : MotionCommand, command.IsFinite →
      Line.read command.display.toList = .motion command 0) ∧
    ∀ (cs : List Char) (command : MotionCommand), Line.command? cs = some command →
      Line.command? command.display.toList = some command := by
  have hfinite (command : MotionCommand) (h : command.IsFinite) :
      Line.read command.display.toList = .motion command 0 := by
    rw [display, String.toList_ofList]
    exact read_text h
  refine ⟨hfinite, fun cs command h => ?_⟩
  rw [Line.command?, hfinite command (isFinite_of_command? h)]

/-- Negative zero, the least positive double, the least finite one and the one nearest to a tenth
come back, and so does what an untidy line is read as. -/
theorem read_display_of_extremes :
    let extreme : AxisWords :=
      { x := some (Float.ofBits 0x8000000000000000)
        y := some (Float.ofBits 1)
        z := some (Float.ofBits 0xFFEFFFFFFFFFFFFF)
        f := some (Float.ofBits 0x3FB999999999999A) }
    let untidy : AxisWords :=
      { x := some (Float.ofBits 0xBFB999999999999A)
        y := some (Float.ofBits 0x3FF0000000000000)
        e := some (Float.ofBits 0x4014000000000000) }
    Line.read (display ⟨.linear, extreme⟩).toList = .motion ⟨.linear, extreme⟩ 0 ∧
      Line.command? "g01 X-0.10 y1E5(a);z".toList = some ⟨.linear, untidy⟩ ∧
      Line.command? (display ⟨.linear, untidy⟩).toList = some ⟨.linear, untidy⟩ := by
  intro extreme untidy
  have hread : Line.command? "g01 X-0.10 y1E5(a);z".toList = some ⟨.linear, untidy⟩ := by
    decide +kernel
  refine ⟨read_display.1 _ ?_, hread, read_display.2 _ _ hread⟩
  rintro (_ | _ | _ | _ | _) value hvalue <;> cases hvalue <;> decide +kernel

end MotionCommand

end Toolpath
