import Toolpath.Cloud.Assembly
import Toolpath.Cloud.Layer

/-! # Converting a program file

A program file is read, decoded and assembled in one pass that ends as soon as
the cloud is full.
-/

namespace Toolpath

/-- What comes of a program file. -/
structure Conversion where
  input : String
  cloud : PointCloud
  stats : DecodeStats
  read : ReadStats
  deriving DecidableEq

/-- The pass over a program file as far as it has come, with what a caller keeps of the
segments. -/
structure Pass (σ : Type) where
  decoder : MotionDecoder := {}
  assembler : Assembler
  kept : σ

namespace Pass

/-- The pass after one more line. -/
def line {σ : Type} (keep : σ → MotionSegment → σ) (pass : Pass σ) (line : String) :
    Flow × Pass σ :=
  match pass.decoder.decode line with
  | (none, decoder) => (.goOn, { pass with decoder })
  | (some segment, decoder) =>
      let (flow, assembler) := pass.assembler.push segment
      (flow, { decoder, assembler, kept := keep pass.kept segment })

end Pass

namespace Conversion

/-- Convert a program file, keeping what the caller wants of its segments. -/
def run {σ : Type} (fs : FileSystem) (path : String) (options : AssemblyOptions)
    (keep : σ → MotionSegment → σ) (kept : σ) (faults : Faults := {}) :
    Except InputError (Conversion × σ) := do
  let file ← ProgramFile.find fs path faults
  let (read, pass) ←
    file.readLinesUntil (faults.reading path) (Pass.line keep) { assembler := { options }, kept }
  return (⟨path, pass.assembler.cloud, pass.decoder.stats, read⟩, pass.kept)

end Conversion

/-- The conversion of a program file. -/
def convertFile (fs : FileSystem) (path : String) (options : AssemblyOptions)
    (faults : Faults := {}) : Except InputError Conversion :=
  (Conversion.run fs path options (fun _ _ => ()) () faults).map Prod.fst

/-- The conversion of a program file and the layers of what was decoded. -/
def inspectFile (fs : FileSystem) (path : String) (options : AssemblyOptions)
    (faults : Faults := {}) : Except InputError (Conversion × List Layer) := do
  let keep (deposits : Array MotionSegment) (segment : MotionSegment) : Array MotionSegment :=
    if segment.isDeposit then deposits.push segment else deposits
  let (conversion, deposits) ← Conversion.run fs path options keep #[] faults
  return (conversion, Layer.ofSegments deposits.toList)

end Toolpath
