/-! # Failures of input and output

What can go wrong with a file, and how it is worded.
-/

namespace Toolpath

/-- The cause of a failed operation on a file or a sink. -/
inductive IoFailure where
  | noSuchFile
  | fileExists
  | notADirectory
  | isADirectory
  | nameTooLong
  /-- A path with a character that no path can hold. -/
  | nulInPath
  | invalidUtf8
  /-- A sink has taken all the bytes it takes. -/
  | sinkFull
  /-- Any other failure, with its own wording. -/
  | other (text : String)
  deriving DecidableEq, Repr

namespace IoFailure

/-- The wording of a failure. -/
def message : IoFailure → String
  | noSuchFile => "No such file or directory (os error 2)"
  | fileExists => "File exists (os error 17)"
  | notADirectory => "Not a directory (os error 20)"
  | isADirectory => "Is a directory (os error 21)"
  | nameTooLong => "File name too long (os error 36)"
  | nulInPath => "file name contained an unexpected NUL byte"
  | invalidUtf8 => "stream did not contain valid UTF-8"
  | sinkFull => "sink full"
  | other text => text

end IoFailure

/-- Where reading or writing breaks off. -/
structure Break where
  /-- How many bytes are read or written before that, if there are as many. -/
  bytes : Nat
  cause : IoFailure
  deriving DecidableEq, Repr

end Toolpath
