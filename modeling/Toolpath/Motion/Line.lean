import Toolpath.Motion.Command
import Toolpath.Text.Basic

/-! # Program lines

A line is read in three steps. Comments go first, each leaving one space: a
semicolon comments out the rest of its line, a parenthesis everything up to and
including the closing one, or to the end of the text. What remains falls into
words, a letter with everything behind it up to the next letter or blank. A
line whose first word is a motion code is a motion command; it takes the values
of its axis words, an unreadable one being dropped on its own.
-/

namespace Toolpath.Line

open Text

/-- Where a character stands with respect to comments. -/
inductive Region where
  /-- Outside of comments. -/
  | code
  /-- Behind a semicolon. -/
  | remark
  /-- Behind an opening parenthesis. -/
  | aside
  deriving DecidableEq, Repr

/-- The text with every comment replaced by a space, when it starts in the given region. The
space stands at the opening of the comment. -/
def stripFrom : Region → List Char → List Char
  | _, [] => []
  | .code, c :: cs =>
      if c = ';' then ' ' :: stripFrom .remark cs
      else if c = '(' then ' ' :: stripFrom .aside cs
      else c :: stripFrom .code cs
  | .remark, c :: cs =>
      if c = '\n' then c :: stripFrom .code cs else stripFrom .remark cs
  | .aside, c :: cs =>
      if c = ')' then stripFrom .code cs else stripFrom .aside cs

/-- The text with every comment replaced by a space. -/
def stripComments (cs : List Char) : List Char :=
  stripFrom .code cs

/-- A letter, read as a capital, and the characters that belong to it. -/
structure Word where
  letter : Char
  suffix : List Char
  deriving DecidableEq, Repr

/-- Whether a character belongs to the word of the letter before it. -/
def isSuffix (c : Char) : Bool :=
  !c.isAlpha && !isBlank c

/-- The words of a text without comments. -/
def words : List Char → List Word
  | [] => []
  | c :: cs =>
      if c.isAlpha then ⟨c.toUpper, cs.takeWhile isSuffix⟩ :: words cs else words cs

namespace Word

/-- The motion code that a word is, one leading zero being allowed. -/
def motion? (word : Word) : Option MotionKind :=
  if word.letter ≠ 'G' then none
  else if word.suffix = ['0'] ∨ word.suffix = ['0', '0'] then some .rapid
  else if word.suffix = ['1'] ∨ word.suffix = ['0', '1'] then some .linear
  else none

/-- The axis that a word sets. -/
def axis? (word : Word) : Option Axis :=
  Axis.ofLetter? word.letter

/-- The finite number behind the letter. -/
def value? (word : Word) : Option Float :=
  (Number.read? word.suffix).filter (·.isFinite)

/-- Whether the word names an axis but carries no finite number. -/
def isMalformed (word : Word) : Bool :=
  word.axis?.isSome && word.value?.isNone

/-- The axis words with the value of this word stored, if it has an axis and a value. -/
def record (words : AxisWords) (word : Word) : AxisWords :=
  match word.axis?, word.value? with
  | some axis, some value => words.set axis value
  | _, _ => words

end Word

/-- What a line says. -/
inductive Reading where
  /-- A motion command, together with the number of axis words dropped from it. -/
  | motion (command : MotionCommand) (malformed : Nat)
  /-- Anything else, which is passed over. -/
  | other
  deriving DecidableEq

/-- The reading of a list of words: the first must be a motion code, and of several words for
one axis the last readable one counts. -/
def readWords : List Word → Reading
  | [] => .other
  | first :: rest =>
      match first.motion? with
      | none => .other
      | some kind => .motion ⟨kind, rest.foldl Word.record {}⟩ (rest.countP Word.isMalformed)

/-- The reading of a line. -/
def read (cs : List Char) : Reading :=
  readWords (words (stripComments cs))

/-- The command of a line, if it is a motion line. -/
def command? (cs : List Char) : Option MotionCommand :=
  match read cs with
  | .motion command _ => some command
  | .other => none

/-- Counters over the lines read so far. -/
structure Counts where
  /-- Lines that are motion commands. -/
  motion : Nat := 0
  /-- Lines that were passed over. -/
  ignored : Nat := 0
  /-- Axis words dropped for an unreadable number. -/
  malformed : Nat := 0
  deriving DecidableEq, Repr, Inhabited

/-- The counters after one more line. -/
def Counts.add (counts : Counts) : Reading → Counts
  | .motion _ malformed =>
      { counts with motion := counts.motion + 1, malformed := counts.malformed + malformed }
  | .other => { counts with ignored := counts.ignored + 1 }

end Toolpath.Line
