import Toolpath.Proofs.Files.Readers

/-! # Reading that breaks off

Where reading a file breaks off, the lines whose line feed has been read are
passed on, and these are the first lines of the file. A reader that has enough
with them does not notice: it is told what it would be told of the whole file.
One that wants more is left without an answer.
-/

namespace Toolpath.ProgramFile

open Text

/-! ## Lines that have been read whole -/

section WholeLines

variable {front bytes : List UInt8}

end WholeLines

/-! ## Readers that have enough -/

section Enough

variable {σ : Type} (reader : σ → String → Flow × σ) {state : σ}

end Enough

end Toolpath.ProgramFile
