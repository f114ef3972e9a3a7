import Toolpath.Files.Failure

/-! # Sinks

A sink takes bytes until its capacity is used up. A write that does not fit
fails, and the part of it that does fit has been taken.
-/

namespace Toolpath

/-- A place for bytes. -/
structure Sink where
  /-- How many bytes are taken in all, if there is a limit. -/
  capacity : Option Nat := none
  /-- What a write that does not fit fails with. -/
  failure : IoFailure := .sinkFull
  taken : Array UInt8 := #[]

namespace Sink

/-- A sink that writing to breaks off, if it does. -/
def upTo : Option Break → Sink
  | none => {}
  | some broken => { capacity := some broken.bytes, failure := broken.cause }

/-- Write some bytes. -/
def write (sink : Sink) (bytes : List UInt8) : Except IoFailure Unit × Sink :=
  match sink.capacity with
  | none => (.ok (), { sink with taken := sink.taken ++ bytes })
  | some capacity =>
      let room := capacity - sink.taken.size
      let after := { sink with taken := sink.taken ++ bytes.take room }
      (if bytes.length ≤ room then .ok () else .error sink.failure, after)

/-- Write pieces of bytes one after the other until one of them fails. -/
def writeAll (sink : Sink) : List (List UInt8) → Except IoFailure Unit × Sink
  | [] => (.ok (), sink)
  | piece :: pieces =>
      match sink.write piece with
      | (.ok (), after) => after.writeAll pieces
      | (.error failure, after) => (.error failure, after)

end Sink

end Toolpath
