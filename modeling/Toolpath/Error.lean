import Toolpath.Cloud.Format
import Toolpath.Files.Program
import Toolpath.Reconstruction

/-! # Errors of any kind

The errors of the parts of the library as one type.
-/

namespace Toolpath

/-- An error of any part of the library. -/
inductive Error where
  | input (error : InputError)
  | exporting (error : ExportError)
  | reconstruction (error : ReconstructionError)
  | io (cause : IoFailure)
  | other (text : String)
  deriving DecidableEq, Repr

namespace Error

/-- The wording of the error, which is that of the part it comes from. -/
def message : Error → String
  | input error => error.message
  | exporting error => error.message
  | reconstruction error => error.message
  | io cause => s!"I/O error: {cause.message}"
  | other text => text

/-- Whether the program could not be read. -/
def isInputError : Error → Bool
  | input _ => true
  | _ => false

/-- Whether a cloud was not fit to be handed to a reconstruction. -/
def isPrecondition : Error → Bool
  | reconstruction error => error.isPrecondition
  | _ => false

end Error

end Toolpath
