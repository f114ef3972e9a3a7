import Toolpath.Files.Faults

/-! # Program files

A program file is looked up before anything is read, so that a missing file is
reported as such. It is then read line by line, or as a whole. Bytes that are
not UTF-8 never stop the reading; they only make a line count as lossy.
-/

namespace Toolpath

/-- Why a program cannot be read. -/
inductive InputError where
  | notFound (path : String)
  | notAFile (path : String)
  | unreadable (path : String) (cause : IoFailure)
  deriving DecidableEq, Repr

namespace InputError

/-- The wording of the error. -/
def message : InputError → String
  | notFound path => s!"File does not exist: {path}"
  | notAFile path => s!"Path is not a file: {path}"
  | unreadable path cause => s!"Failed to read {path}: {cause.message}"

/-- The failure behind the error, if there is one. -/
def cause? : InputError → Option IoFailure
  | unreadable _ cause => some cause
  | _ => none

end InputError

/-- Whether a reader wants another line. -/
inductive Flow where
  | goOn
  | stop
  deriving DecidableEq, Repr

/-- What has been read of a file. -/
structure ReadStats where
  /-- Bytes of the lines read, their endings included. -/
  bytes : Nat := 0
  lines : Nat := 0
  /-- Lines with bytes that are not UTF-8. -/
  lossyLines : Nat := 0
  /-- The size of the whole file. -/
  size : Nat := 0
  /-- The reader did not want another line. -/
  stoppedEarly : Bool := false
  deriving DecidableEq, Repr, Inhabited

/-- How much of the file has been read, in percent. -/
def ReadStats.progress (stats : ReadStats) : Float :=
  if stats.size = 0 then 0.0
  else stats.bytes.toUInt64.toFloat / stats.size.toUInt64.toFloat * 100.0

/-- A program file that has been found. -/
structure ProgramFile where
  path : String
  content : List UInt8

namespace ProgramFile

/-- Find a program file. -/
def find (fs : FileSystem) (path : String) (faults : Faults := {}) :
    Except InputError ProgramFile :=
  match fs.stat path with
  | .error _ => .error (.notFound path)
  | .ok .directory => .error (.notAFile path)
  | .ok (.file content) =>
      match faults.sizing path with
      | none => .ok ⟨path, content⟩
      | some cause => .error (.unreadable path cause)

/-- The size of the file in bytes. -/
def size (file : ProgramFile) : Nat := file.content.length

/-- The whole file as text. -/
def text (file : ProgramFile) : List Char := Utf8.decodeLossy file.content

/-- The line feed. -/
def lineFeed : UInt8 := 10

/-- The carriage return. -/
def carriageReturn : UInt8 := 13

/-- The first line of some bytes. Its line feed belongs to it. -/
def firstLine (bytes : List UInt8) : List UInt8 :=
  bytes.takeWhile (· ≠ lineFeed) ++ (bytes.dropWhile (· ≠ lineFeed)).take 1

/-- The bytes behind the first line. -/
def afterLine (bytes : List UInt8) : List UInt8 :=
  (bytes.dropWhile (· ≠ lineFeed)).drop 1

/-- A line without what ends it: a line feed, and a carriage return in front of that or at the
end of the file. -/
def lineBody (line : List UInt8) : List UInt8 :=
  Text.dropFinal carriageReturn (Text.dropFinal lineFeed line)

theorem firstLine_append_afterLine (bytes : List UInt8) :
    firstLine bytes ++ afterLine bytes = bytes := by
  rw [firstLine, afterLine, List.append_assoc, List.take_append_drop,
    List.takeWhile_append_dropWhile]

theorem firstLine_ne_nil (b : UInt8) (bytes : List UInt8) : firstLine (b :: bytes) ≠ [] := by
  by_cases hb : b = lineFeed <;> simp [firstLine, hb]

theorem afterLine_length_lt (b : UInt8) (bytes : List UInt8) :
    (afterLine (b :: bytes)).length < (b :: bytes).length := by
  have whole := congrArg List.length (firstLine_append_afterLine (b :: bytes))
  have start := List.length_pos_iff.mpr (firstLine_ne_nil b bytes)
  rw [List.length_append] at whole
  omega

/-- What has been read after one more line. -/
def count (stats : ReadStats) (line : List UInt8) : ReadStats :=
  { stats with
    bytes := stats.bytes + line.length
    lines := stats.lines + 1
    lossyLines := stats.lossyLines + if Utf8.isValid (lineBody line) then 0 else 1 }

/-- Pass the lines on to a reader until it has enough or there are no more. -/
def scan {σ : Type} (reader : σ → String → Flow × σ) (stats : ReadStats) (state : σ) :
    List UInt8 → ReadStats × σ
  | [] => (stats, state)
  | b :: bytes =>
      let line := firstLine (b :: bytes)
      let stats := count stats line
      match reader state (String.ofList (Utf8.decodeLossy (lineBody line))) with
      | (.goOn, state) => scan reader stats state (afterLine (b :: bytes))
      | (.stop, state) => ({ stats with stoppedEarly := true }, state)
termination_by bytes => bytes.length
decreasing_by exact afterLine_length_lt b bytes

/-- Read the file line by line. -/
def readLines {σ : Type} (file : ProgramFile) (reader : σ → String → Flow × σ) (state : σ) :
    ReadStats × σ :=
  scan reader { size := file.size } state file.content

/-- The lines at the front of some bytes that have their line feed. -/
def wholeLines (bytes : List UInt8) : List UInt8 :=
  (bytes.reverse.dropWhile (· ≠ lineFeed)).reverse

/-- Read the file line by line although reading it may break off. Only whole lines are passed on
then, and if the reader wants more than there are, all that comes of it is an error. -/
def readLinesUntil {σ : Type} (file : ProgramFile) (broken? : Option Break)
    (reader : σ → String → Flow × σ) (state : σ) : Except InputError (ReadStats × σ) :=
  match broken? with
  | none => .ok (file.readLines reader state)
  | some broken =>
      let (stats, state) :=
        scan reader { size := file.size } state (wholeLines (file.content.take broken.bytes))
      if stats.stoppedEarly then .ok (stats, state)
      else .error (.unreadable file.path broken.cause)

/-- The lines of the file. -/
def lines (file : ProgramFile) : List String × ReadStats :=
  let (stats, lines) := file.readLines (fun acc line => (.goOn, acc.push line)) #[]
  (lines.toList, stats)

/-- The first lines of the file, at most `limit`. With none wanted, nothing is read; the reading
then counts as stopped if there was anything to read. -/
def linesUpTo (file : ProgramFile) (limit : Nat) : List String × ReadStats :=
  if limit = 0 then ([], { size := file.size, stoppedEarly := 0 < file.size })
  else
    let reader (acc : Array String) (line : String) : Flow × Array String :=
      let acc := acc.push line
      (if limit ≤ acc.size then .stop else .goOn, acc)
    let (stats, lines) := file.readLines reader #[]
    (lines.toList, stats)

end ProgramFile

end Toolpath
