import Toolpath.Files.Sink
import Toolpath.Files.System

/-! # What goes wrong

That a path leads to a file does not mean that the file can be read to its end,
nor that it can be written. What fails there does not follow from the files and
directories, so it is given beside them. Nothing goes wrong unless it is said.
-/

namespace Toolpath

/-- What goes wrong with the files under paths, and with what is shown. -/
structure Faults where
  /-- Why the size of a file cannot be told. -/
  sizing : String → Option IoFailure := fun _ => none
  /-- Where reading a file breaks off. One that cannot even be opened breaks off in front of its
  first byte. -/
  reading : String → Option Break := fun _ => none
  /-- Why a file cannot be opened for writing. -/
  creating : String → Option IoFailure := fun _ => none
  /-- Where writing a file breaks off. -/
  writing : String → Option Break := fun _ => none
  /-- Where showing a text breaks off. -/
  showing : Option Break := none

namespace Faults

/-- The content of a file as text, which it must be. -/
def readText (faults : Faults) (fs : FileSystem) (path : String) : Except IoFailure (List Char) :=
  match faults.reading path with
  | none => fs.readText path
  | some broken => do
      discard (fs.read path)
      .error broken.cause

@[simp]
theorem readText_default (fs : FileSystem) (path : String) :
    ({} : Faults).readText fs path = fs.readText path := rfl

/-- Open a file for writing. It is created if there is none, and empty if there is. The answer is
where it is. -/
def create (faults : Faults) (fs : FileSystem) (path : String) : Except IoFailure Location :=
  match faults.creating path with
  | none => fs.place path
  | some cause => .error cause

end Faults

end Toolpath
